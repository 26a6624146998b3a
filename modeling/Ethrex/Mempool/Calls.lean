import Ethrex.Mempool.Index

/-!
# Sequences of calls on the pool

From the empty pool on, a refused call changes nothing, and of the subtractions of the books only
the comparison of a paymaster's balance with its reservations can saturate.
-/

namespace Ethrex.Mempool

open Tally MempoolInner List

variable {txOf : H256 → MempoolTransaction} {given : H256 → Option FramePaymasterReservation}

/-! ### The cost of a sender's transactions -/

/-- The cost of a transaction, if it counts for the sender from a nonce on. -/
def costFrom (sender : Address) (nonce : U64) (tx : MempoolTransaction) : Nat :=
  if tx.sender = sender ∧ nonce ≤ tx.nonce then tx.costWithoutBaseFee.elim 0 fun cost => cost.val
  else 0

def MempoolInner.pooledCost (s : MempoolInner) (sender : Address) (nonce : U64) : Nat :=
  total (fun _ tx => costFrom sender nonce tx) s.transactionPool

def MempoolInner.costOf (s : MempoolInner) (exclude : Option H256) (hash : H256) : Nat :=
  if some hash = exclude then 0
  else ((s.transactionPool.lookup hash).bind fun tx => tx.costWithoutBaseFee).elim 0 fun cost =>
    cost.val

theorem sumCostFrom_ok (s : MempoolInner) (exclude : Option H256) (range : List (U64 × H256)) :
    ∀ {sum result : Nat}, s.sumCostFrom exclude sum range = .ok result →
      result = sum + (range.map fun e => s.costOf exclude e.2).sum := by
  induction range with
  | nil =>
    intro sum result h
    simpa [sumCostFrom] using h.symm
  | cons e range ih =>
    obtain ⟨nonce, hash⟩ := e
    intro sum result h
    rw [sumCostFrom] at h
    split at h
    · rename_i hexclude
      simpa [costOf, hexclude] using ih h
    rename_i hexclude
    split at h
    · cases h
    rename_i tx hlookup
    split at h
    · cases h
    rename_i cost hcost
    split at h
    · have := ih h
      simp only [map_cons, sum_cons, costOf, hexclude, hlookup, Option.bind_some,
        hcost, Option.elim_some, if_false]
      simp only [costOf] at this
      omega
    · cases h

theorem sum_senderRange (s : MempoolInner) (sender : Address) (nonce : U64) (g : H256 → Nat) :
    ((s.senderRange sender nonce).map fun e => g e.2).sum =
      total (fun key hash => if key.1 = sender ∧ nonce ≤ key.2 then g hash else 0)
        s.txsBySenderNonce := by
  have hsort := perm_insertionSort (fun a b : U64 × H256 => a.1 ≤ b.1)
    ((s.txsBySenderNonce.entries.filter fun e => e.1.1 = sender ∧ nonce ≤ e.1.2).map fun e =>
      (e.1.2, e.2))
  rw [senderRange, (hsort.map fun e => g e.2).sum_eq, total, map_map]
  induction s.txsBySenderNonce.entries with
  | nil => rfl
  | cons e entries ih =>
    rw [filter_cons, map_cons, sum_cons, ← ih]
    by_cases hin : e.1.1 = sender ∧ nonce ≤ e.1.2
    · simp [hin]
    · simp [hin]

theorem sumCostForSenderInner_ok {s : MempoolInner} (hs : Coherent txOf given s) {sender : Address}
    {nonce : U64} {exclude : Option H256} {existing : Nat}
    (h : s.sumCostForSenderInner sender nonce exclude = .ok existing) :
    existing = total (fun hash tx => if some hash = exclude then 0 else costFrom sender nonce tx)
      s.transactionPool := by
  have hsum := sumCostFrom_ok s exclude _ h
  rw [hsum, Nat.zero_add, sum_senderRange]
  apply total_eq_of_bij _ _ fun _ hash => hash
  · rintro ⟨sender', nonce'⟩ hash hslot
    obtain ⟨hpooled, rfl, rfl⟩ := (hs.indexed _ _ _).1 hslot
    refine ⟨txOf hash, hs.lookup_eq hpooled, ?_⟩
    simp only [costFrom, costOf, hs.lookup_eq hpooled, Option.bind_some]
    split <;> simp
  · rintro ⟨sender₁, nonce₁⟩ hash ⟨sender₂, nonce₂⟩ hash' h₁ h₂ rfl
    obtain ⟨-, rfl, rfl⟩ := (hs.indexed _ _ _).1 h₁
    obtain ⟨-, rfl, rfl⟩ := (hs.indexed _ _ _).1 h₂
    rfl
  · intro hash tx hlookup
    have hpooled : (s.transactionPool.lookup hash).isSome := by simp [hlookup]
    exact ⟨_, hash, (hs.indexed _ _ hash).2 ⟨hpooled, rfl, rfl⟩, rfl⟩

variable {hash : H256}

/-- The transactions that an admission with a balance check leaves beside the new one are covered
together with it. -/
theorem checkAdmission_covers {s s' : MempoolInner} (hs : Coherent txOf given s)
    {admission : SenderAdmission} {check : BalanceCheck}
    (hcheck : admission.balanceCheck = some check)
    (h : s.checkAdmission (txOf hash).sender (txOf hash).nonce admission = .ok ())
    (hpool : ∀ hash' tx, s'.transactionPool.lookup hash' = some tx →
      s.transactionPool.lookup hash' = some tx)
    (hfree : SlotFree txOf s' (txOf hash).sender (txOf hash).nonce) :
    s'.pooledCost (txOf hash).sender admission.accountNonce + check.txCost.val ≤
      check.senderBalance.val := by
  simp only [checkAdmission, hcheck] at h
  split at h
  · cases h
  rw [checkBalance] at h
  split at h
  · cases h
  rename_i existing hsum
  simp only at h
  split at h
  · cases h
  split at h
  · cases h
  rename_i hcovered
  rw [sumCostForSenderInner_ok hs hsum] at hcovered
  have hle : s'.pooledCost (txOf hash).sender admission.accountNonce ≤
      total (fun hash' tx =>
        if some hash' = s.txsBySenderNonce.lookup ((txOf hash).sender, (txOf hash).nonce)
        then 0 else costFrom (txOf hash).sender admission.accountNonce tx)
        s.transactionPool := by
    refine le_trans (le_of_eq ?_) (total_le_of_lookup _ hpool)
    apply total_congr
    intro hash' tx hlookup
    rw [if_neg]
    intro hslot
    obtain ⟨-, hsender, hnonce⟩ := (hs.indexed _ _ _).1 hslot.symm
    exact hfree hash' (by simp [hlookup]) hsender hnonce
  omega

theorem Coherent.logged {s : MempoolInner} (hs : Coherent txOf given s)
    {made : List Subtraction} (hmade : ∀ sub ∈ made, sub.book ≠ .available → sub.Exact) :
    Coherent txOf given (s.logged made) :=
  { hs with
    exact := by
      intro sub hsub hbook
      rcases mem_append.1 hsub with hmem | hmem
      · exact hmade sub hmem hbook
      · exact hs.exact sub hmem hbook }

variable (versionedHash : Commitment → H256) (iteration : IterationOrder)

/-- What an accepted call leaves: the new transaction, and a part of the pool that does not hold its
slot. -/
structure Admitted (txOf : H256 → MempoolTransaction)
    (given : H256 → Option FramePaymasterReservation) (s : MempoolInner) (hash : H256)
    (reservation : Option FramePaymasterReservation) (s' : MempoolInner) : Prop where
  coherent : Coherent txOf (Function.update given hash reservation) s'
  entered : ∃ rest : MempoolInner,
    (∀ hash' tx, rest.transactionPool.lookup hash' = some tx →
      s.transactionPool.lookup hash' = some tx) ∧
    SlotFree txOf rest (txOf hash).sender (txOf hash).nonce ∧
    s'.transactionPool = rest.transactionPool.insert hash (txOf hash)

theorem admitted_insertTransaction {s : MempoolInner} (hs : Coherent txOf given s)
    (hfree : SlotFree txOf s (txOf hash).sender (txOf hash).nonce)
    (reservation : Option FramePaymasterReservation)
    (hgates : (txOf hash).isFrame → ∃ r, reservation = some r ∧
      (∀ hash', (s.transactionPool.lookup hash').isSome → (txOf hash').isFrame →
        (txOf hash').sender ≠ (txOf hash).sender) ∧
      total (reservedFor given r.paymaster) s.transactionPool + r.reservedCost.val < 2 ^ 256 ∧
      (r.isCanonical = false → total (countedFor given r.paymaster) s.transactionPool + 1 ≤
        frameTxMaxPendingNoncanonicalPaymaster)) (broadcast : Bool) :
    ∃ s', s.insertTransaction versionedHash iteration hash (txOf hash).sender (txOf hash)
        reservation broadcast = (.ok (), s') ∧
      Admitted txOf given s hash reservation s' := by
  have hprune := kept_pruneOrder hs
  have hroom := hprune.trans
    (kept_makeRoom versionedHash iteration hprune.coherent (txOf hash).isBlob hash)
  have hfree' := hfree.of_kept hroom
  simp only [insertTransaction]
  cases hframe : (txOf hash).isFrame with
  | false =>
    exact ⟨_, rfl, coherent_enter hroom.coherent hfree' reservation hframe broadcast,
      _, hroom.pool, hfree', rfl⟩
  | true =>
    obtain ⟨r, rfl, halone, hcost, hcount⟩ := hgates hframe
    have hless := total_le hroom (reservedFor given r.paymaster)
    have hfewer := total_le hroom (countedFor given r.paymaster)
    obtain ⟨s', heq, hcoherent, hpool⟩ := coherent_enterFrame hroom.coherent hfree' hframe
      (fun hash' hpooled => halone hash' (hroom.isSome hpooled)) r (by omega)
      (fun hcanonical => by have := hcount hcanonical; omega) broadcast
    exact ⟨s', heq, hcoherent, _, hroom.pool, hfree', hpool⟩

theorem addTransactionInner_spec {s : MempoolInner} (hs : Coherent txOf given s) (hash : H256)
    {reservation : Option FramePaymasterReservation}
    (hreservation : (txOf hash).isFrame → reservation.isSome) (admission : SenderAdmission)
    (broadcast : Bool) :
    (∃ e made, s.addTransactionInner versionedHash iteration hash (txOf hash).sender (txOf hash)
        reservation (some admission) broadcast =
          (.error e, s.logged made) ∧
      ∀ sub ∈ made, sub.book ≠ .available → sub.Exact) ∨
    (∃ s', s.addTransactionInner versionedHash iteration hash (txOf hash).sender (txOf hash)
        reservation (some admission) broadcast = (.ok (), s') ∧
      s.checkAdmission (txOf hash).sender (txOf hash).nonce admission = .ok () ∧
      Admitted txOf given s hash reservation s') := by
  simp only [addTransactionInner, Option.elim_some, Option.isSome_some, Bool.true_and]
  cases hadmission : s.checkAdmission (txOf hash).sender (txOf hash).nonce admission with
  | error e => exact .inl ⟨e, [], rfl, by simp⟩
  | ok _ =>
    cases hframe : (txOf hash).isFrame with
    | false =>
      right
      have hclear := kept_clearSlot versionedHash hs (txOf hash).sender (txOf hash).nonce
      obtain ⟨s', heq, hadmitted⟩ := admitted_insertTransaction versionedHash iteration
        hclear.coherent (slotFree_clearSlot versionedHash hs _ _) reservation
        (fun h => by simp [hframe] at h) broadcast
      obtain ⟨rest, hrest, hfree, hpool⟩ := hadmitted.entered
      exact ⟨s', heq, rfl, hadmitted.coherent, rest,
        fun hash' tx h => hclear.pool hash' tx (hrest hash' tx h), hfree, hpool⟩
    | true =>
      obtain ⟨r, rfl⟩ := Option.isSome_iff_exists.1 (hreservation hframe)
      have hexact := exact_checkFrame hs (txOf hash).sender (txOf hash).nonce hash (some r)
      simp only [Bool.not_true, Bool.false_eq_true, if_false, if_true]
      cases hcheck : (s.checkFrame (txOf hash).sender (txOf hash).nonce hash (some r)).1 with
      | error e => exact .inl ⟨e, _, rfl, hexact⟩
      | ok _ =>
        right
        have hclear := kept_clearSlot versionedHash hs (txOf hash).sender (txOf hash).nonce
        have hfree := slotFree_clearSlot versionedHash hs (txOf hash).sender (txOf hash).nonce
        obtain ⟨halone, hcost, hcount⟩ := checkFrame_ok hs hcheck hclear hfree
        obtain ⟨s', heq, hadmitted⟩ := admitted_insertTransaction versionedHash iteration
          hclear.coherent hfree (some r) (fun _ => ⟨r, rfl, halone, hcost, hcount⟩) broadcast
        obtain ⟨rest, hrest, hfree, hpool⟩ := hadmitted.entered
        exact ⟨s'.logged _, by rw [heq], trivial, hadmitted.coherent.logged hexact, rest,
          fun hash' tx h => hclear.pool hash' tx (hrest hash' tx h), hfree, hpool⟩

/-- A call on the pool.  The hash stands for its transaction. -/
inductive PoolCall where
  | add (hash : H256) (reservation : Option FramePaymasterReservation) (admission : SenderAdmission)
    (broadcast : Bool)
  | remove (hash : H256)
  | addBundle (hash : H256) (bundle : BlobsBundle)
  | removeBundle (hash : H256)

/-- A frame transaction comes with a reservation, and the cost in a balance check is that of the
transaction. -/
def PoolCall.Valid (txOf : H256 → MempoolTransaction) : PoolCall → Prop
  | .add hash reservation admission _ =>
    ((txOf hash).isFrame → reservation.isSome) ∧
      ∀ check, admission.balanceCheck = some check →
        (txOf hash).costWithoutBaseFee = some check.txCost
  | _ => True

/-- The pool, and the reservation that each hash was last admitted with. -/
structure Tracked where
  inner : MempoolInner
  given : H256 → Option FramePaymasterReservation

variable (txOf) in
def PoolCall.apply (s : Tracked) : PoolCall → Except MempoolError Unit × Tracked
  | .add hash reservation admission broadcast =>
    let (result, inner) := s.inner.addTransactionInner versionedHash iteration hash
      (txOf hash).sender (txOf hash) reservation (some admission) broadcast
    (result, {
      inner
      given := if result.isOk then Function.update s.given hash reservation else s.given })
  | .remove hash => (.ok (), { s with inner := s.inner.removeTransactionWithLock versionedHash hash })
  | .addBundle hash bundle =>
    (.ok (), { s with inner := s.inner.addBlobsBundle versionedHash hash bundle })
  | .removeBundle hash => (.ok (), { s with inner := s.inner.removeBlobBundle versionedHash hash })

variable (txOf) in
def runCalls (s : Tracked) (calls : List PoolCall) : Tracked :=
  calls.foldl (fun s call => (call.apply txOf versionedHash iteration s).2) s

def Tracked.new (maxMempoolSize maxBlobMempoolSize : Nat) : Tracked :=
  ⟨.new maxMempoolSize maxBlobMempoolSize, fun _ => none⟩

def Tracked.Coherent (txOf : H256 → MempoolTransaction) (s : Tracked) : Prop :=
  Mempool.Coherent txOf s.given s.inner

theorem Tracked.Coherent.apply {s : Tracked} (hs : s.Coherent txOf) {call : PoolCall}
    (hvalid : call.Valid txOf) : (call.apply txOf versionedHash iteration s).2.Coherent txOf := by
  cases call with
  | add hash reservation admission broadcast =>
    rcases addTransactionInner_spec versionedHash iteration hs hash hvalid.1 admission
      broadcast with ⟨e, made, heq, hmade⟩ | ⟨s', heq, -, hadmitted⟩
    · simp only [PoolCall.apply, heq]
      exact hs.logged hmade
    · simp only [PoolCall.apply, heq]
      exact hadmitted.coherent
  | remove hash => exact hs.remove versionedHash hash
  | addBundle hash bundle => exact hs.withBundles _ _
  | removeBundle hash =>
    show Mempool.Coherent txOf s.given (s.inner.removeBlobBundle versionedHash hash)
    rw [removeBlobBundle_eq]
    exact hs.withBundles _ _

theorem Tracked.Coherent.runCalls {calls : List PoolCall} :
    ∀ {s : Tracked}, s.Coherent txOf → (∀ call ∈ calls, call.Valid txOf) →
      (runCalls txOf versionedHash iteration s calls).Coherent txOf := by
  induction calls with
  | nil => exact fun hs _ => hs
  | cons call calls ih =>
    intro s hs hvalid
    exact ih (hs.apply versionedHash iteration (hvalid call (by simp)))
      fun call' hcall' => hvalid call' (by simp [hcall'])

/-- After every sequence of calls the index and the books agree with the pooled transactions and
every subtraction from the books was exact; the next call is refused and changes nothing, or the
balance of its check covers the pooled transactions of the sender. -/
theorem runCalls_coherent (maxMempoolSize maxBlobMempoolSize : Nat) (calls : List PoolCall)
    (hvalid : ∀ call ∈ calls, call.Valid txOf) :
    let s := runCalls txOf versionedHash iteration (.new maxMempoolSize maxBlobMempoolSize) calls
    Coherent txOf s.given s.inner ∧
      ∀ hash reservation admission broadcast,
        (PoolCall.add hash reservation admission broadcast).Valid txOf →
        ∀ result s', (PoolCall.add hash reservation admission broadcast).apply txOf versionedHash
            iteration s = (result, s') →
          (∀ e, result = .error e →
            ∃ made, s' = { s with inner := s.inner.logged made }) ∧
          (result = .ok () → ∀ check, admission.balanceCheck = some check →
            s'.inner.pooledCost (txOf hash).sender admission.accountNonce ≤
              check.senderBalance.val) := by
  intro s
  have hs : s.Coherent txOf :=
    Tracked.Coherent.runCalls versionedHash iteration (coherent_new _ _) hvalid
  refine ⟨hs, ?_⟩
  intro hash reservation admission broadcast hcall result s' happly
  rcases addTransactionInner_spec versionedHash iteration hs hash hcall.1 admission
    broadcast with ⟨e, made, heq, -⟩ | ⟨inner, heq, hadmission, hadmitted⟩
  · simp only [PoolCall.apply, heq, Prod.mk.injEq] at happly
    obtain ⟨rfl, rfl⟩ := happly
    refine ⟨fun e' _ => ⟨made, rfl⟩, ?_⟩
    intro hok
    cases hok
  · simp only [PoolCall.apply, heq, Prod.mk.injEq] at happly
    obtain ⟨rfl, rfl⟩ := happly
    refine ⟨fun e herror => ?_, fun _ check hcheck => ?_⟩
    · cases herror
    obtain ⟨rest, hrest, hfree, hpool⟩ := hadmitted.entered
    have hcovers := checkAdmission_covers hs hcheck hadmission hrest hfree
    have hcost := hcall.2 check hcheck
    have hterm : costFrom (txOf hash).sender admission.accountNonce (txOf hash) ≤
        check.txCost.val := by
      simp only [costFrom, hcost, Option.elim_some]
      split
      · exact le_rfl
      · exact Nat.zero_le _
    show total (fun _ tx => costFrom (txOf hash).sender admission.accountNonce tx)
      inner.transactionPool ≤ _
    rw [hpool, total_insert hfree.lookup_eq_none]
    exact le_trans (Nat.add_le_add_right hterm _) (by rw [Nat.add_comm]; exact hcovers)

/-! ### Sponsored transactions and blobs -/

/-- Frame transactions at 1 and 2 and blob transactions at other hashes, of senders of their own. -/
def sponsoredTx (hash : H256) : MempoolTransaction where
  txType := if hash = .ofNat 1 ∨ hash = .ofNat 2 then .frame else .eip4844
  sender :=
    if hash = .ofNat 1 then 1 else if hash = .ofNat 2 then 2 else if hash = .ofNat 3 then 3 else 4
  nonce := 0
  costWithoutBaseFee := some 0
  maxFeePerBlobGas := some 5

def plainAdmission : SenderAdmission where
  accountNonce := 0
  queuedMax := 16
  gapThreshold := 100
  balanceCheck := none

/-- The same canonical paymaster for both; its balance has dropped before the second comes. -/
def sponsoredCalls : List PoolCall :=
  [.add (.ofNat 1)
      (some { paymaster := 7, reservedCost := 100, isCanonical := true, paymasterBalance := 100 })
      plainAdmission true,
    .add (.ofNat 2)
      (some { paymaster := 7, reservedCost := 10, isCanonical := true, paymasterBalance := 50 })
      plainAdmission true]

/-- With room for one blob transaction, the bundle of the second evicts the first. -/
def blobCalls : List PoolCall :=
  [.addBundle (.ofNat 3) ⟨[]⟩, .add (.ofNat 3) none plainAdmission true,
    .addBundle (.ofNat 4) ⟨[]⟩, .add (.ofNat 4) none plainAdmission true]

theorem runCalls_coherent_evicts :
    (∀ call ∈ sponsoredCalls ++ blobCalls, call.Valid sponsoredTx) ∧
      let s := runCalls sponsoredTx (fun _ => .ofNat 0) .asListed (.new 10 1)
        (sponsoredCalls ++ blobCalls)
      s.inner.transactionPool.keys = [.ofNat 4, .ofNat 1] ∧ Coherent sponsoredTx s.given s.inner := by
  have hplain : (sponsoredTx (.ofNat 3)).isFrame = false ∧
      (sponsoredTx (.ofNat 4)).isFrame = false := by
    decide +kernel
  have hvalid : ∀ call ∈ sponsoredCalls ++ blobCalls, call.Valid sponsoredTx := by
    simp [sponsoredCalls, blobCalls, PoolCall.Valid, plainAdmission, hplain]
  exact ⟨hvalid, by decide +kernel, (runCalls_coherent _ _ 10 1 _ hvalid).1⟩

/-- The second transaction is refused after a subtraction that saturates: 50 less the 100 that are
reserved. -/
theorem sponsored_availability_saturates :
    (∀ call ∈ sponsoredCalls, call.Valid sponsoredTx) ∧
      ¬ ∀ sub ∈ (runCalls sponsoredTx (fun _ => .ofNat 0) .asListed (.new 10 10)
        sponsoredCalls).inner.subtractions, sub.Exact := by
  refine ⟨by simp [sponsoredCalls, PoolCall.Valid, plainAdmission], ?_⟩
  decide +kernel

end Ethrex.Mempool
