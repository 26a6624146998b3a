import Ethrex.Payload.Build

/-!
# What the loop of the builder keeps

Every round of the loop takes a transaction off the queues. The estimate of the size counts the
canonical form of every transaction that was tried.
-/

namespace Ethrex.Payload

variable {σ κ : Type} {b : Builder σ κ} {c c' c'' : PayloadBuildContext σ}

/-- What stays when a transaction is tried. -/
structure Kept (c c' : PayloadBuildContext σ) : Prop where
  requests : c'.requests = c.requests
  ommers : c'.payload.body.ommers = c.payload.body.ommers
  withdrawals : c'.payload.body.withdrawals = c.payload.body.withdrawals
  header : c'.payload.header =
    { c.payload.header with blobGasUsed := c'.payload.header.blobGasUsed }
  blobGas : c.payload.header.blobGasUsed.isSome → c'.payload.header.blobGasUsed.isSome

theorem Kept.refl (c : PayloadBuildContext σ) : Kept c c := ⟨rfl, rfl, rfl, rfl, id⟩

theorem Kept.trans (h : Kept c c') (h' : Kept c' c'') : Kept c c'' where
  requests := h'.requests.trans h.requests
  ommers := h'.ommers.trans h.ommers
  withdrawals := h'.withdrawals.trans h.withdrawals
  header := by
    rw [h'.header, h.header]
  blobGas hsome := h'.blobGas (h.blobGas hsome)

theorem settleExecution_eq (b : Builder σ κ) (head : HeadTransaction) (report : ExecutionReport)
    (c : PayloadBuildContext σ) :
    (settleExecution b head report c).2.payload = c.payload ∧
      (settleExecution b head report c).2.requests = c.requests ∧
      (settleExecution b head report c).2.payloadSize = c.payloadSize := by
  rw [settleExecution]
  split
  · cases b.machine.undoLastTx c.vm with
    | mk result vm =>
      cases result with
      | error e => exact ⟨rfl, rfl, rfl⟩
      | ok _ => exact ⟨rfl, rfl, rfl⟩
  · exact ⟨rfl, rfl, rfl⟩

theorem applyPlainTransaction_eq (b : Builder σ κ) (head : HeadTransaction)
    (c : PayloadBuildContext σ) :
    (applyPlainTransaction b head c).2.payload = c.payload ∧
      (applyPlainTransaction b head c).2.requests = c.requests ∧
      (applyPlainTransaction b head c).2.payloadSize = c.payloadSize := by
  rw [applyPlainTransaction]
  cases b.machine.executeTx head.tx.inner head.tx.sender c.payload.header c.vm with
  | mk result vm =>
    cases result with
    | error e => exact ⟨rfl, rfl, rfl⟩
    | ok report => exact settleExecution_eq b head report _

theorem applyTransaction_kept (b : Builder σ κ) (head : HeadTransaction)
    (c : PayloadBuildContext σ) :
    Kept c (applyTransaction b head c).2 ∧
      (applyTransaction b head c).2.payload.body = c.payload.body ∧
      (applyTransaction b head c).2.payloadSize = c.payloadSize := by
  obtain ⟨hpayload, hrequests, hsize⟩ := applyPlainTransaction_eq b head c
  have hplain : Kept c (applyPlainTransaction b head c).2 := by
    refine ⟨hrequests, ?_, ?_, ?_, ?_⟩ <;> rw [hpayload]
    exact id
  have hbody : (applyPlainTransaction b head c).2.payload.body = c.payload.body := by rw [hpayload]
  rw [applyTransaction]
  split
  · rw [applyBlobTransaction]
    cases checkBlobs b head c with
    | error e => exact ⟨.refl c, rfl, rfl⟩
    | ok blobs =>
      dsimp only
      cases happly : applyPlainTransaction b head c with
      | mk result c' =>
        rw [happly] at hplain hbody hsize
        cases result with
        | error e => exact ⟨hplain, hbody, hsize⟩
        | ok receipt =>
          refine ⟨⟨hplain.requests, hplain.ommers, hplain.withdrawals, ?_, fun _ => rfl⟩, hbody, hsize⟩
          simp only [addBlobGas]
          rw [hplain.header]
  · exact ⟨hplain, hbody, hsize⟩

theorem applyTxToPayload_kept (b : Builder σ κ) (head : HeadTransaction)
    (c : PayloadBuildContext σ) :
    Kept c (applyTxToPayload b head c).2 ∧
      ((applyTxToPayload b head c).2.payload.body.transactions =
        match (applyTxToPayload b head c).1 with
        | .ok () => c.payload.body.transactions ++ [head.tx.inner]
        | .error _ => c.payload.body.transactions) ∧
      (applyTxToPayload b head c).2.payloadSize = c.payloadSize := by
  rw [applyTxToPayload]
  split
  · exact ⟨.refl c, rfl, rfl⟩
  dsimp only
  obtain ⟨hkept, hbody, hsize⟩ := applyTransaction_kept b head { c with
    vm := b.machine.recordTouchedAddress head.tx.sender (b.machine.setBalIndex (nextBalIndex c) c.vm) }
  have htxs := congrArg BlockBody.transactions hbody
  cases happly : applyTransaction b head { c with
      vm := b.machine.recordTouchedAddress head.tx.sender
        (b.machine.setBalIndex (nextBalIndex c) c.vm) } with
  | mk result c' =>
    rw [happly] at hkept htxs hsize
    cases result with
    | error e =>
      exact ⟨⟨hkept.requests, hkept.ommers, hkept.withdrawals, hkept.header, hkept.blobGas⟩, htxs,
        hsize⟩
    | ok receipt =>
      exact ⟨⟨hkept.requests, hkept.ommers, hkept.withdrawals, hkept.header, hkept.blobGas⟩,
        congrArg (· ++ [head.tx.inner]) htxs, hsize⟩

def canonicalBytes (txs : List Transaction) : Nat := (txs.map Transaction.encodeCanonicalLen).sum

/-- What holds of the context after any number of rounds. -/
structure Progress (b : Builder σ κ) (start c : PayloadBuildContext σ) : Prop
    extends Kept start c where
  /-- The estimate has counted every transaction of the payload. -/
  counted : start.payloadSize + canonicalBytes c.payload.body.transactions ≤ c.payloadSize
  /-- From Osaka on the estimate stays in the limit. -/
  bounded : b.rules.osaka → start.payloadSize ≤ maxRlpBlockSize → c.payloadSize ≤ maxRlpBlockSize

theorem Progress.start {start : PayloadBuildContext σ} (h : start.payload.body.transactions = []) :
    Progress b start start where
  toKept := .refl start
  counted := by simp [canonicalBytes, h]
  bounded _ hstart := hstart

namespace Filling

variable {s s' : Filling σ} {head : HeadTransaction} {isBlob : Bool}

@[simp] theorem context_pop (s : Filling σ) (isBlob : Bool) : (s.pop isBlob).context = s.context := by
  rw [pop]
  split <;> rfl

@[simp] theorem context_dropBlobs (s : Filling σ) : (s.dropBlobs b).context = s.context := by
  rw [dropBlobs]
  split <;> rfl

theorem shift_eq_ok (h : s.shift isBlob = .ok s') :
    ∃ txs, (if isBlob then s.blobTxs else s.plainTxs).shift = .ok txs ∧
      s' = if isBlob then { s with blobTxs := txs } else { s with plainTxs := txs } := by
  cases isBlob with
  | true =>
    obtain ⟨txs, hshift, rfl⟩ := map_eq_ok.1 h
    exact ⟨txs, hshift, rfl⟩
  | false =>
    obtain ⟨txs, hshift, rfl⟩ := map_eq_ok.1 h
    exact ⟨txs, hshift, rfl⟩

theorem context_shift (h : s.shift isBlob = .ok s') : s'.context = s.context := by
  obtain ⟨txs, -, rfl⟩ := shift_eq_ok h
  split <;> rfl

end Filling

variable {s s' : Filling σ} {head : HeadTransaction} {isBlob : Bool}
variable {start : PayloadBuildContext σ}

theorem tryTransaction_progress {size : Nat} (hprogress : Progress b start s.context)
    (hsize : size = s.context.payloadSize + head.tx.inner.encodeCanonicalLen)
    (hbounded : b.rules.osaka → size ≤ maxRlpBlockSize)
    (h : tryTransaction b { s with context := { s.context with payloadSize := size } } head isBlob =
      .ok s') : Progress b start s'.context := by
  have hcounted := hprogress.counted
  have hkept : Kept start { s.context with payloadSize := size } :=
    ⟨hprogress.requests, hprogress.ommers, hprogress.withdrawals, hprogress.header,
      hprogress.blobGas⟩
  have hskipped : Progress b start { s.context with payloadSize := size } := by
    refine ⟨hkept, ?_, fun hosaka _ => hbounded hosaka⟩
    show start.payloadSize + canonicalBytes s.context.payload.body.transactions ≤ size
    omega
  rw [tryTransaction] at h
  split at h
  · cases h
    rw [Filling.context_pop]
    exact hskipped
  obtain ⟨htried, htxs, hpayloadSize⟩ := applyTxToPayload_kept b head
    { s.context with payloadSize := size }
  split at h
  · rename_i context happly
    rw [happly] at htried htxs hpayloadSize
    rw [Filling.context_shift h]
    refine ⟨hkept.trans htried, ?_, fun hosaka _ => ?_⟩
    · have hbytes : canonicalBytes context.payload.body.transactions =
          canonicalBytes s.context.payload.body.transactions + head.tx.inner.encodeCanonicalLen := by
        rw [show context.payload.body.transactions =
          s.context.payload.body.transactions ++ [head.tx.inner] from htxs]
        simp [canonicalBytes]
      have hsame : context.payloadSize = size := hpayloadSize
      show start.payloadSize + canonicalBytes context.payload.body.transactions ≤ context.payloadSize
      omega
    · exact hpayloadSize.trans_le (hbounded hosaka)
  · rename_i e context happly
    rw [happly] at htried htxs hpayloadSize
    cases h
    rw [Filling.context_pop]
    refine ⟨hkept.trans htried, ?_, fun hosaka _ => ?_⟩
    · have hsame : context.payloadSize = size := hpayloadSize
      show start.payloadSize + canonicalBytes context.payload.body.transactions ≤ context.payloadSize
      rw [show context.payload.body.transactions = s.context.payload.body.transactions from htxs]
      omega
    · exact hpayloadSize.trans_le (hbounded hosaka)

theorem fillStep_eq_ok (h : fillStep b s = .ok (some s')) :
    ∃ head isBlob, (s.dropBlobs b).next = some (head, isBlob) ∧
      (s' = (s.dropBlobs b).pop isBlob ∨
        (b.rules.osaka →
          s.context.payloadSize + head.tx.inner.encodeCanonicalLen ≤ maxRlpBlockSize) ∧
        tryTransaction b { s.dropBlobs b with context := { s.context with
          payloadSize := s.context.payloadSize + head.tx.inner.encodeCanonicalLen } } head isBlob =
            .ok s') := by
  rw [fillStep] at h
  split at h
  · cases h
  dsimp only at h
  split at h
  · cases h
  rename_i head isBlob hnext
  refine ⟨head, isBlob, hnext, ?_⟩
  rw [fillHead, Filling.context_dropBlobs] at h
  split at h
  · cases h
    exact .inl rfl
  split at h
  · cases h
  rename_i hfits
  obtain ⟨s'', htry, h⟩ := map_eq_ok.1 h
  cases h
  exact .inr ⟨fun hosaka => not_lt.1 fun hlt => hfits ⟨hosaka, hlt⟩, htry⟩

theorem fillStep_progress (hprogress : Progress b start s.context)
    (h : fillStep b s = .ok (some s')) : Progress b start s'.context := by
  rw [← Filling.context_dropBlobs (b := b)] at hprogress
  obtain ⟨head, isBlob, -, rfl | ⟨hbounded, htry⟩⟩ := fillStep_eq_ok h
  · rwa [Filling.context_pop]
  · rw [← Filling.context_dropBlobs (b := b) s] at hbounded htry
    exact tryTransaction_progress hprogress rfl hbounded htry

variable (head isBlob) in
theorem fillStep_accepted {context : PayloadBuildContext σ}
    (hgas : ¬ s.context.remainingGas < txGasCost)
    (hnext : (s.dropBlobs b).next = some (head, isBlob))
    (hreserved :
      ¬ s.context.remainingGas < txGasReservation s.context.isAmsterdam head.tx.inner)
    (hsize : s.context.payloadSize + head.tx.inner.encodeCanonicalLen ≤ maxRlpBlockSize)
    (hnever : neverFits b s.context.payload.header head.tx.inner = false)
    (happly : applyTxToPayload b head { s.context with
      payloadSize := s.context.payloadSize + head.tx.inner.encodeCanonicalLen } = (.ok (), context))
    (hshift : Filling.shift { s.dropBlobs b with context } isBlob = .ok s') :
    fillStep b s = .ok (some s') := by
  have hcontext := Filling.context_dropBlobs (b := b) s
  rw [fillStep, if_neg hgas]
  simp only [hnext]
  rw [fillHead, hcontext, if_neg hreserved, if_neg fun h => absurd h.2 (not_lt.2 hsize),
    tryTransaction, hnever, if_neg (by decide), happly]
  simp only [hshift]
  rfl

namespace Filling

/-- The transactions of the payload and of the queues. -/
def transactions (s : Filling σ) : Multiset Transaction :=
  s.context.payload.body.transactions + (s.plainTxs.transactions + s.blobTxs.transactions)

theorem transactions_pop_le (s : Filling σ) (isBlob : Bool) :
    (s.pop isBlob).transactions ≤ s.transactions := by
  cases isBlob with
  | true => exact add_le_add_right (add_le_add_right s.blobTxs.transactions_pop_le _) _
  | false => exact add_le_add_right (add_le_add_left s.plainTxs.transactions_pop_le _) _

theorem transactions_dropBlobs_le (s : Filling σ) :
    (s.dropBlobs b).transactions ≤ s.transactions := by
  rw [dropBlobs]
  split
  · exact add_le_add_right (add_le_add_right (Multiset.zero_le _) _) _
  · exact le_rfl

theorem transactions_shift (hpeek : (if isBlob then s.blobTxs else s.plainTxs).peek = some head)
    (h : s.shift isBlob = .ok s') : s.transactions = head.tx.inner ::ₘ s'.transactions := by
  obtain ⟨txs, hshift, rfl⟩ := shift_eq_ok h
  have htxs := TransactionQueue.transactions_shift hpeek hshift
  cases isBlob with
  | true =>
    rw [transactions, show s.blobTxs.transactions = _ from htxs, Multiset.add_cons,
      Multiset.add_cons]
    rfl
  | false =>
    rw [transactions, show s.plainTxs.transactions = _ from htxs, Multiset.cons_add,
      Multiset.add_cons]
    rfl

theorem peek_of_next (h : s.next = some (head, isBlob)) :
    (if isBlob then s.blobTxs else s.plainTxs).peek = some head := by
  rw [next] at h
  split at h
  · cases h
  · cases h
    assumption
  · cases h
    assumption
  · split at h <;> cases h <;> assumption

end Filling

/-- A transaction that is taken into the payload has left its queue. -/
theorem tryTransaction_transactions_le
    (hpeek : (if isBlob then s.blobTxs else s.plainTxs).peek = some head)
    (h : tryTransaction b s head isBlob = .ok s') : s'.transactions ≤ s.transactions := by
  rw [tryTransaction] at h
  split at h
  · cases h
    exact s.transactions_pop_le isBlob
  obtain ⟨-, htxs, -⟩ := applyTxToPayload_kept b head s.context
  split at h
  · rename_i context happly
    rw [happly] at htxs
    have hleft := Filling.transactions_shift (s := { s with context }) hpeek h
    have hadded : Filling.transactions { s with context } = head.tx.inner ::ₘ s.transactions := by
      rw [Filling.transactions, htxs, ← Multiset.coe_add, Multiset.coe_singleton,
        Multiset.add_comm _ {_}, Multiset.singleton_add, Multiset.cons_add]
      rfl
    exact ((Multiset.cons_inj_right _).1 (hleft.symm.trans hadded)).le
  · rename_i e context happly
    rw [happly] at htxs
    cases h
    refine (Filling.transactions_pop_le { s with context } isBlob).trans_eq ?_
    rw [Filling.transactions, htxs]
    rfl

theorem fillStep_transactions_le (h : fillStep b s = .ok (some s')) :
    s'.transactions ≤ s.transactions := by
  refine le_trans ?_ (s.transactions_dropBlobs_le (b := b))
  obtain ⟨head, isBlob, hnext, rfl | ⟨-, htry⟩⟩ := fillStep_eq_ok h
  · exact Filling.transactions_pop_le _ isBlob
  · have hpeek := Filling.peek_of_next hnext
    refine (tryTransaction_transactions_le ?_ htry).trans_eq ?_
    · exact hpeek
    · rw [Filling.transactions, ← Filling.context_dropBlobs (b := b) s]
      rfl

theorem fillLoop_transactions_le (rounds : Nat) (s : Filling σ)
    (h : fillLoop b rounds s = .ok c) : ↑c.payload.body.transactions ≤ s.transactions := by
  induction rounds generalizing s with
  | zero =>
    cases h
    exact Multiset.le_add_right _ _
  | succ rounds ih =>
    rw [fillLoop] at h
    cases hstep : fillStep b s with
    | error e =>
      rw [hstep] at h
      cases h
    | ok next =>
      rw [hstep] at h
      cases next with
      | none =>
        cases h
        exact Multiset.le_add_right _ _
      | some s' => exact (ih s' h).trans (fillStep_transactions_le hstep)

theorem fillLoop_progress (rounds : Nat) (s : Filling σ) (hprogress : Progress b start s.context)
    (h : fillLoop b rounds s = .ok c) : Progress b start c := by
  induction rounds generalizing s with
  | zero =>
    cases h
    exact hprogress
  | succ rounds ih =>
    rw [fillLoop] at h
    cases hstep : fillStep b s with
    | error e =>
      rw [hstep] at h
      cases h
    | ok next =>
      rw [hstep] at h
      cases next with
      | none =>
        cases h
        exact hprogress
      | some s' => exact ih s' (fillStep_progress hprogress hstep) h

theorem fillTransactions_progress {plainTxs blobTxs : TransactionQueue}
    (hempty : start.payload.body.transactions = [])
    (h : fillTransactions b start plainTxs blobTxs = .ok c) : Progress b start c :=
  fillLoop_progress _ _ (.start hempty) h

theorem fillTransactions_transactions_le {plainTxs blobTxs : TransactionQueue}
    (hempty : start.payload.body.transactions = [])
    (h : fillTransactions b start plainTxs blobTxs = .ok c) :
    ↑c.payload.body.transactions ≤ plainTxs.transactions + blobTxs.transactions := by
  have := fillLoop_transactions_le _ _ h
  rwa [Filling.transactions, hempty, Multiset.coe_nil, zero_add] at this

end Ethrex.Payload
