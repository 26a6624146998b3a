import Ethrex.Mempool.Books

/-!
# Coherence of the pool under every sequence of calls

`add_transaction` keeps the index and the books coherent, or changes nothing. After a balance check
the sender is covered.
-/

namespace Ethrex.Mempool

open Tally MempoolInner Function

variable {txOf : H256 → MempoolTransaction} {given : H256 → Option FramePaymasterReservation}

/-! ### Steps that only remove -/

/-- A coherent state that holds a part of what another one holds. -/
structure Kept (txOf : H256 → MempoolTransaction)
    (given : H256 → Option FramePaymasterReservation) (s s' : MempoolInner) : Prop where
  coherent : Coherent txOf given s'
  pool : ∀ hash tx, s'.transactionPool.lookup hash = some tx →
    s.transactionPool.lookup hash = some tx

namespace Kept

variable {s s' s'' : MempoolInner}

theorem refl (hs : Coherent txOf given s) : Kept txOf given s s := ⟨hs, fun _ _ h => h⟩

theorem trans (h : Kept txOf given s s') (h' : Kept txOf given s' s'') : Kept txOf given s s'' :=
  ⟨h'.coherent, fun hash tx hlookup => h.pool hash tx (h'.pool hash tx hlookup)⟩

theorem isSome (h : Kept txOf given s s') {hash : H256}
    (hpooled : (s'.transactionPool.lookup hash).isSome) :
    (s.transactionPool.lookup hash).isSome := by
  obtain ⟨tx, htx⟩ := Option.isSome_iff_exists.1 hpooled
  simp [h.pool hash tx htx]

end Kept

variable {s : MempoolInner}

theorem Coherent.withOrder (hs : Coherent txOf given s) (order : List H256) :
    Coherent txOf given { s with txsOrder := order } :=
  ⟨hs.pooled, hs.indexed, hs.pendingFrame, hs.recorded, hs.reserved, hs.counted, hs.limited,
    hs.bounded, hs.exact⟩

theorem Coherent.withBundles (hs : Coherent txOf given s) (bundles : Map H256 BlobsBundle)
    (index : Map H256 (Map H256 Nat)) :
    Coherent txOf given
      { s with blobsBundlePool := bundles, blobsBundleByVersionedHash := index } :=
  ⟨hs.pooled, hs.indexed, hs.pendingFrame, hs.recorded, hs.reserved, hs.counted, hs.limited,
    hs.bounded, hs.exact⟩

section Removing

variable (versionedHash : Commitment → H256) {s : MempoolInner}

theorem kept_remove (hs : Coherent txOf given s) (hash : H256) :
    Kept txOf given s (s.removeTransactionWithLock versionedHash hash) where
  coherent := hs.remove versionedHash hash
  pool := by
    intro hash' tx h
    rw [(removeTransactionWithLock_eq versionedHash s hash).1] at h
    exact (lookup_erase_eq_some.1 h).2

theorem kept_clearSlot (hs : Coherent txOf given s) (sender : Address) (nonce : U64) :
    Kept txOf given s (s.clearSlot versionedHash sender nonce) := by
  rw [clearSlot]
  split
  · exact .refl hs
  · exact kept_remove versionedHash hs _

theorem kept_pruneOrder (hs : Coherent txOf given s) : Kept txOf given s s.pruneOrder := by
  rw [pruneOrder]
  split
  · exact ⟨hs.withOrder _, fun _ _ h => h⟩
  · exact .refl hs

theorem kept_removeOldestFrom (queue : List H256) :
    ∀ {s : MempoolInner}, Coherent txOf given s →
      Kept txOf given s (removeOldestFrom versionedHash queue s) := by
  induction queue with
  | nil => exact fun hs => .refl hs
  | cons oldestHash queue ih =>
    intro s hs
    rw [removeOldestFrom]
    split
    · have hremove := kept_remove versionedHash (hs.withOrder queue) oldestHash
      have hstep : Kept txOf given s (({ s with txsOrder := queue }).removeTransactionWithLock
          versionedHash oldestHash) := ⟨hremove.coherent, hremove.pool⟩
      exact hstep.trans (ih hstep.coherent)
    · exact .refl hs

theorem kept_removeWorstFrom (iteration : IterationOrder) (fuel : Nat) :
    ∀ {s : MempoolInner}, Coherent txOf given s →
      Kept txOf given s (removeWorstFrom versionedHash iteration fuel s) := by
  induction fuel with
  | zero => exact fun hs => .refl hs
  | succ fuel ih =>
    intro s hs
    rw [removeWorstFrom]
    split
    · split
      · exact .refl hs
      · rename_i hash _
        have hstep := kept_remove versionedHash hs hash
        exact hstep.trans (ih hstep.coherent)
    · exact .refl hs

theorem kept_makeRoom (iteration : IterationOrder) (hs : Coherent txOf given s) (isBlob : Bool)
    (hash : H256) : Kept txOf given s (s.makeRoom versionedHash iteration isBlob hash) := by
  rw [makeRoom]
  split
  · split
    · exact kept_removeWorstFrom versionedHash iteration _ hs
    · exact .refl hs
  have hroom : Kept txOf given s
      (if s.regularTxCount ≥ s.maxMempoolSize then s.removeOldestRegularTransaction versionedHash
      else s) := by
    split
    · exact kept_removeOldestFrom versionedHash _ hs
    · exact .refl hs
  exact ⟨hroom.coherent.withOrder _, hroom.pool⟩

end Removing

def SlotFree (txOf : H256 → MempoolTransaction) (s : MempoolInner) (sender : Address)
    (nonce : U64) : Prop :=
  ∀ hash, (s.transactionPool.lookup hash).isSome → (txOf hash).sender = sender →
    (txOf hash).nonce ≠ nonce

theorem slotFree_clearSlot (versionedHash : Commitment → H256) (hs : Coherent txOf given s)
    (sender : Address) (nonce : U64) :
    SlotFree txOf (s.clearSlot versionedHash sender nonce) sender nonce := by
  rintro hash hpooled rfl rfl
  have hbefore := (kept_clearSlot versionedHash hs _ _).isSome hpooled
  have hslot := (hs.indexed _ _ hash).2 ⟨hbefore, rfl, rfl⟩
  rw [clearSlot, hslot] at hpooled
  simp only [(removeTransactionWithLock_eq versionedHash s hash).1, AList.lookup_erase,
    Option.isSome_none, Bool.false_eq_true] at hpooled

theorem SlotFree.of_kept {s' : MempoolInner} {sender : Address} {nonce : U64}
    (hfree : SlotFree txOf s sender nonce) (hkept : Kept txOf given s s') :
    SlotFree txOf s' sender nonce :=
  fun hash hpooled => hfree hash (hkept.isSome hpooled)

section Entering

variable {s : MempoolInner} {hash : H256}

theorem SlotFree.lookup_eq_none (hfree : SlotFree txOf s (txOf hash).sender (txOf hash).nonce) :
    s.transactionPool.lookup hash = none := by
  by_contra hpooled
  exact hfree hash (Option.isSome_iff_ne_none.2 hpooled) rfl rfl

variable (hs : Coherent txOf given s)
  (hfree : SlotFree txOf s (txOf hash).sender (txOf hash).nonce)
  (reservation : Option FramePaymasterReservation)

include hfree

theorem total_update (f : (H256 → Option FramePaymasterReservation) → H256 → MempoolTransaction → Nat)
    (hf : ∀ given given' hash tx, given hash = given' hash → f given hash tx = f given' hash tx) :
    total (f (update given hash reservation)) s.transactionPool =
      total (f given) s.transactionPool := by
  apply total_congr
  intro hash' tx hlookup
  apply hf
  rw [update_of_ne]
  rintro rfl
  rw [hfree.lookup_eq_none] at hlookup
  cases hlookup

variable (given) in
theorem reserved_enter (paymaster : Address) :
    total (reservedFor (update given hash reservation) paymaster)
        (s.transactionPool.insert hash (txOf hash)) =
      reservedFor (update given hash reservation) paymaster hash (txOf hash) +
        total (reservedFor given paymaster) s.transactionPool := by
  rw [total_insert hfree.lookup_eq_none,
    total_update hfree reservation fun given => reservedFor given paymaster]
  intro given given' hash tx heq
  simp [reservedFor, heq]

variable (given) in
theorem counted_enter (paymaster : Address) :
    total (countedFor (update given hash reservation) paymaster)
        (s.transactionPool.insert hash (txOf hash)) =
      countedFor (update given hash reservation) paymaster hash (txOf hash) +
        total (countedFor given paymaster) s.transactionPool := by
  rw [total_insert hfree.lookup_eq_none,
    total_update hfree reservation fun given => countedFor given paymaster]
  intro given given' hash tx heq
  simp [countedFor, heq]

include hs

omit hfree in
theorem pooled_enter : ∀ hash' tx,
    (s.transactionPool.insert hash (txOf hash)).lookup hash' = some tx → tx = txOf hash' := by
  intro hash' tx h
  rcases lookup_insert_eq_some.1 h with ⟨rfl, rfl⟩ | ⟨-, h⟩
  · rfl
  · exact hs.pooled hash' tx h

theorem indexed_enter : ∀ sender nonce hash',
    (s.txsBySenderNonce.insert ((txOf hash).sender, (txOf hash).nonce) hash).lookup
        (sender, nonce) = some hash' ↔
      ((s.transactionPool.insert hash (txOf hash)).lookup hash').isSome ∧
        (txOf hash').sender = sender ∧ (txOf hash').nonce = nonce := by
  intro sender nonce hash'
  rw [lookup_insert_eq_some, isSome_insert, hs.indexed]
  constructor
  · rintro (⟨hslot, rfl⟩ | ⟨-, hpooled, hslot⟩)
    · exact ⟨.inl rfl, (Prod.mk.inj hslot).1.symm, (Prod.mk.inj hslot).2.symm⟩
    · exact ⟨.inr hpooled, hslot⟩
  · rintro ⟨rfl | hpooled, rfl, rfl⟩
    · exact .inl ⟨rfl, rfl⟩
    · refine .inr ⟨fun hslot => ?_, hpooled, rfl, rfl⟩
      exact hfree hash' hpooled (Prod.mk.inj hslot).1 (Prod.mk.inj hslot).2

theorem coherent_enter (hframe : (txOf hash).isFrame = false) (broadcast : Bool) :
    Coherent txOf (update given hash reservation)
      (s.enter hash (txOf hash).sender (txOf hash) broadcast) where
  pooled := pooled_enter hs
  indexed := indexed_enter hs hfree
  pendingFrame := by
    intro sender hash' nonce
    rw [enter, hs.pendingFrame, isSome_insert]
    by_cases hhash : hash' = hash <;> simp [hhash, hframe]
  recorded := by
    intro hash'
    rw [enter, hs.recorded]
    simp only [isSome_insert]
    by_cases hhash : hash' = hash <;> simp [hhash, hframe]
  reserved := by
    intro paymaster
    rw [enter, reserved_enter given hfree, hs.reserved]
    simp [reservedFor, hframe]
  counted := by
    intro paymaster
    rw [enter, counted_enter given hfree, hs.counted]
    simp [countedFor, hframe]
  limited := by
    intro paymaster
    rw [enter, counted_enter given hfree]
    simpa [countedFor, hframe] using hs.limited paymaster
  bounded := by
    intro paymaster
    rw [enter, reserved_enter given hfree]
    simpa [reservedFor, hframe] using hs.bounded paymaster
  exact := hs.exact

theorem coherent_enterFrame (hframe : (txOf hash).isFrame)
    (halone : ∀ hash', (s.transactionPool.lookup hash').isSome → (txOf hash').isFrame →
      (txOf hash').sender ≠ (txOf hash).sender)
    (r : FramePaymasterReservation)
    (hcost : total (reservedFor given r.paymaster) s.transactionPool + r.reservedCost.val < 2 ^ 256)
    (hcount : r.isCanonical = false →
      total (countedFor given r.paymaster) s.transactionPool + 1 ≤
        frameTxMaxPendingNoncanonicalPaymaster)
    (broadcast : Bool) :
    ∃ s', (s.enter hash (txOf hash).sender (txOf hash) broadcast).enterFrame hash
        (txOf hash).sender (txOf hash).nonce (some r) = (.ok (), s') ∧
      Coherent txOf (update given hash (some r)) s' ∧
      s'.transactionPool = s.transactionPool.insert hash (txOf hash) := by
  have hreserved : ∀ paymaster, total (reservedFor (update given hash (some r)) paymaster)
      (s.transactionPool.insert hash (txOf hash)) =
        (if paymaster = r.paymaster then r.reservedCost.val else 0) +
          total (reservedFor given paymaster) s.transactionPool := by
    intro paymaster
    rw [reserved_enter given hfree]
    simp [reservedFor, hframe, eq_comm]
  have hcounted : ∀ paymaster, total (countedFor (update given hash (some r)) paymaster)
      (s.transactionPool.insert hash (txOf hash)) =
        (if paymaster = r.paymaster ∧ r.isCanonical = false then 1 else 0) +
          total (countedFor given paymaster) s.transactionPool := by
    intro paymaster
    rw [counted_enter given hfree]
    simp only [countedFor, hframe, update_self, Option.any_some, Bool.true_and,
      Bool.and_eq_true, decide_eq_true_eq, Bool.not_eq_true', eq_comm (a := r.paymaster)]
  have hfits : ¬ 2 ^ 256 ≤ (s.reservedPendingCost.lookup r.paymaster).getD 0 + r.reservedCost.val := by
    rw [hs.reserved]
    exact not_le.2 hcost
  simp only [enterFrame, reserve, enter, hfits, if_false]
  refine ⟨_, rfl, ?_, rfl⟩
  exact {
    pooled := pooled_enter hs
    indexed := indexed_enter hs hfree
    pendingFrame := by
      intro sender hash' nonce
      simp only [lookup_insert_eq_some, isSome_insert, hs.pendingFrame]
      constructor
      · rintro (⟨rfl, heq⟩ | ⟨-, hpooled, hrest⟩)
        · obtain ⟨rfl, rfl⟩ := Prod.mk.inj heq
          exact ⟨.inl rfl, hframe, rfl, rfl⟩
        · exact ⟨.inr hpooled, hrest⟩
      · rintro ⟨rfl | hpooled, hframe', rfl, rfl⟩
        · exact .inl ⟨rfl, rfl⟩
        · exact .inr ⟨halone hash' hpooled hframe', hpooled, hframe', rfl, rfl⟩
    recorded := by
      intro hash'
      simp only [lookup_insert_eq, hs.recorded]
      by_cases hhash : hash' = hash <;> simp [hhash, hframe]
    reserved := by
      intro paymaster
      simp only [hreserved, lookup_insert_eq, hs.reserved]
      split_ifs with hpaymaster
      · rw [Option.getD_some, hpaymaster, Nat.add_comm]
      · rw [hs.reserved, Nat.zero_add]
    counted := by
      intro paymaster
      simp only [hcounted]
      cases hcanonical : r.isCanonical with
      | true => simp [hs.counted]
      | false =>
        have hlimit := hcount hcanonical
        rw [frameTxMaxPendingNoncanonicalPaymaster] at hlimit
        simp only [Bool.false_eq_true, if_false, and_true, lookup_insert_eq, hs.counted]
        split_ifs with hpaymaster
        · rw [Option.getD_some, hpaymaster]
          omega
        · rw [hs.counted, Nat.zero_add]
    limited := by
      intro paymaster
      have hlimit := hs.limited paymaster
      simp only [hcounted]
      split_ifs with hcase
      · have hroom := hcount hcase.2
        rw [← hcase.1] at hroom
        omega
      · omega
    bounded := by
      intro paymaster
      have hbound := hs.bounded paymaster
      simp only [hreserved]
      split_ifs with hcase
      · rw [hcase]
        omega
      · omega
    exact := hs.exact }

end Entering

/-! ### The gates of frame transactions -/

section FrameGates

variable {s : MempoolInner} (hs : Coherent txOf given s)

include hs

theorem oldReservation_split {existing : Option H256} {r old : FramePaymasterReservation}
    (hold : s.oldReservation existing r = some old) :
    ∃ hash, existing = some hash ∧ s.transactionPool.lookup hash = some (txOf hash) ∧
      reservedFor given r.paymaster hash (txOf hash) = old.reservedCost.val ∧
      countedFor given r.paymaster hash (txOf hash) = if old.isCanonical then 0 else 1 := by
  rw [oldReservation, Option.filter_eq_some_iff] at hold
  obtain ⟨hbind, hpaymaster⟩ := hold
  obtain ⟨hash, hexisting, hrecord⟩ := Option.bind_eq_some_iff.1 hbind
  obtain ⟨⟨hpooled, -, -⟩, hcost, hcount⟩ := hs.reserved_split hrecord
  rw [of_decide_eq_true hpaymaster] at hcost hcount
  exact ⟨hash, hexisting, hpooled, hcost, hcount⟩

variable (existing : Option H256) (r : FramePaymasterReservation)

include existing r

theorem exact_countSubtraction :
    ∀ sub ∈ s.countSubtraction existing r, sub.Exact := by
  intro sub hsub
  rw [countSubtraction] at hsub
  split at hsub
  · rename_i hgives
    simp only [givesBack, Bool.and_eq_true, Option.any_eq_true] at hgives
    obtain ⟨-, old, hold, hcanonical⟩ := hgives
    obtain ⟨hash, -, hpooled, -, hcount⟩ := oldReservation_split hs hold
    have hle := le_total (f := countedFor given r.paymaster) hpooled
    rw [Bool.not_eq_true'] at hcanonical
    rw [hcount, hcanonical] at hle
    rw [List.mem_singleton] at hsub
    rw [hsub, Subtraction.Exact, hs.counted]
    exact hle
  · simp at hsub

theorem exact_costSubtraction :
    ∀ sub ∈ s.costSubtraction existing r, sub.Exact := by
  intro sub hsub
  simp only [costSubtraction, Option.mem_toList, Option.map_eq_some_iff] at hsub
  obtain ⟨old, hold, rfl⟩ := hsub
  obtain ⟨hash, -, hpooled, hcost, -⟩ := oldReservation_split hs hold
  have hle := le_total (f := reservedFor given r.paymaster) hpooled
  rw [hcost] at hle
  rw [Subtraction.Exact, hs.reserved]
  exact hle

theorem exact_checkPaymaster :
    ∀ sub ∈ (s.checkPaymaster existing r).2, sub.book ≠ .available → sub.Exact := by
  intro sub hsub hbook
  have hmade : sub = ⟨.available, r.paymasterBalance.val, s.reservedAfter existing r⟩ ∨
      sub ∈ s.costSubtraction existing r ∨ sub ∈ s.countSubtraction existing r := by
    simp only [checkPaymaster] at hsub
    split at hsub
    · exact .inr (.inr hsub)
    · split at hsub <;> simpa [or_assoc] using hsub
  rcases hmade with rfl | hmem | hmem
  · exact absurd rfl hbook
  · exact exact_costSubtraction hs existing r sub hmem
  · exact exact_countSubtraction hs existing r sub hmem

omit existing r

theorem exact_checkFrame (sender : Address) (nonce : U64) (hash : H256)
    (reservation : Option FramePaymasterReservation) :
    ∀ sub ∈ (s.checkFrame sender nonce hash reservation).2, sub.book ≠ .available → sub.Exact := by
  intro sub hsub
  rw [checkFrame] at hsub
  split at hsub
  · simp at hsub
  · split at hsub
    · simp at hsub
    · exact exact_checkPaymaster hs _ _ sub hsub

variable {s' : MempoolInner}

omit hs in
theorem total_add_le (hkept : Kept txOf given s s') (f : H256 → MempoolTransaction → Nat)
    {hash : H256} (hpooled : s.transactionPool.lookup hash = some (txOf hash))
    (hgone : s'.transactionPool.lookup hash = none) :
    total f s'.transactionPool + f hash (txOf hash) ≤ total f s.transactionPool := by
  have hsplit := total_erase (f := f) hpooled
  have hle : total f s'.transactionPool ≤ total f (s.transactionPool.erase hash) := by
    apply total_le_of_lookup
    intro hash' tx hlookup
    rw [lookup_erase_eq, if_neg]
    · exact hkept.pool hash' tx hlookup
    · rintro rfl
      rw [hgone] at hlookup
      cases hlookup
  omega

omit hs in
theorem total_le (hkept : Kept txOf given s s') (f : H256 → MempoolTransaction → Nat) :
    total f s'.transactionPool ≤ total f s.transactionPool := total_le_of_lookup f hkept.pool

variable {hash : H256}

theorem checkFrameTxSenderPending_ok {existing : Option H256}
    (h : s.checkFrameTxSenderPending (txOf hash).sender (txOf hash).nonce hash = .ok existing) :
    (∀ hash', (s.transactionPool.lookup hash').isSome → (txOf hash').isFrame →
      (txOf hash').sender = (txOf hash).sender → (txOf hash').nonce = (txOf hash).nonce) ∧
    ∀ hash', existing = some hash' →
      (txOf hash').sender = (txOf hash).sender ∧ (txOf hash').nonce = (txOf hash).nonce := by
  rw [checkFrameTxSenderPending] at h
  cases hpending : s.pendingFrameTxBySender.lookup (txOf hash).sender with
  | none =>
    simp only [hpending, Except.ok.injEq] at h
    subst h
    refine ⟨?_, fun hash' hnone => by cases hnone⟩
    intro hash' hpooled hframe hsender
    have hsome := (hs.pendingFrame _ hash' _).2 ⟨hpooled, hframe, hsender, rfl⟩
    rw [hpending] at hsome
    cases hsome
  | some pending =>
    obtain ⟨existingHash, existingNonce⟩ := pending
    have hexisting := (hs.pendingFrame _ _ _).1 hpending
    have honly : ∀ hash', (s.transactionPool.lookup hash').isSome → (txOf hash').isFrame →
        (txOf hash').sender = (txOf hash).sender → hash' = existingHash := by
      intro hash' hpooled hframe hsender
      have hsome := (hs.pendingFrame _ hash' _).2 ⟨hpooled, hframe, hsender, rfl⟩
      rw [hpending] at hsome
      exact ((Prod.mk.inj (Option.some.inj hsome)).1).symm
    simp only [hpending] at h
    split at h
    · rename_i hsame
      obtain rfl := Except.ok.inj h
      refine ⟨?_, fun hash' hnone => by cases hnone⟩
      intro hash' hpooled hframe hsender
      rw [honly hash' hpooled hframe hsender, hsame]
    · split at h
      · rename_i hnonce
        obtain rfl := Except.ok.inj h
        refine ⟨?_, ?_⟩
        · intro hash' hpooled hframe hsender
          rw [honly hash' hpooled hframe hsender, hexisting.2.2.2, hnonce]
        · intro hash' heq
          obtain rfl := Option.some.inj heq
          exact ⟨hexisting.2.2.1, hexisting.2.2.2.trans hnonce⟩
      · cases h

theorem reservedAfter_ge (hkept : Kept txOf given s s') {existing : Option H256}
    (hgone : ∀ hash', existing = some hash' → s'.transactionPool.lookup hash' = none)
    (r : FramePaymasterReservation) :
    total (reservedFor given r.paymaster) s'.transactionPool ≤ s.reservedAfter existing r := by
  rw [reservedAfter, hs.reserved]
  cases hold : s.oldReservation existing r with
  | none => exact total_le hkept _
  | some old =>
    obtain ⟨hash', heq, hpooled, hcost, -⟩ := oldReservation_split hs hold
    have hle := total_add_le hkept (reservedFor given r.paymaster) hpooled (hgone hash' heq)
    rw [hcost] at hle
    simp only [Option.map_some, Option.getD_some]
    omega

theorem pendingAfter_ge (hkept : Kept txOf given s s') {existing : Option H256}
    (hgone : ∀ hash', existing = some hash' → s'.transactionPool.lookup hash' = none)
    (r : FramePaymasterReservation) :
    total (countedFor given r.paymaster) s'.transactionPool ≤ s.pendingAfter existing r := by
  simp only [pendingAfter, hs.counted]
  split
  · rename_i hgives
    simp only [givesBack, Bool.and_eq_true, Option.any_eq_true, Bool.not_eq_true'] at hgives
    obtain ⟨-, old, hold, hold'⟩ := hgives
    obtain ⟨hash', heq, hpooled, -, hcount⟩ := oldReservation_split hs hold
    have hle := total_add_le hkept (countedFor given r.paymaster) hpooled (hgone hash' heq)
    simp only [hcount, hold', Bool.false_eq_true, if_false] at hle
    omega
  · exact total_le hkept _

theorem checkFrame_ok {r : FramePaymasterReservation}
    (h : (s.checkFrame (txOf hash).sender (txOf hash).nonce hash (some r)).1 = .ok ())
    (hkept : Kept txOf given s s') (hfree : SlotFree txOf s' (txOf hash).sender (txOf hash).nonce) :
    (∀ hash', (s'.transactionPool.lookup hash').isSome → (txOf hash').isFrame →
      (txOf hash').sender ≠ (txOf hash).sender) ∧
    total (reservedFor given r.paymaster) s'.transactionPool + r.reservedCost.val < 2 ^ 256 ∧
    (r.isCanonical = false → total (countedFor given r.paymaster) s'.transactionPool + 1 ≤
      frameTxMaxPendingNoncanonicalPaymaster) := by
  rw [checkFrame] at h
  cases hpending : s.checkFrameTxSenderPending (txOf hash).sender (txOf hash).nonce hash with
  | error e => simp [hpending] at h
  | ok existing =>
    obtain ⟨hslot, hexisting⟩ := checkFrameTxSenderPending_ok hs hpending
    simp only [hpending] at h
    have hgone : ∀ hash', existing = some hash' → s'.transactionPool.lookup hash' = none := by
      intro hash' heq
      obtain ⟨hsender, hnonce⟩ := hexisting hash' heq
      by_contra hstays
      exact hfree hash' (Option.isSome_iff_ne_none.2 hstays) hsender hnonce
    have hcost := reservedAfter_ge hs hkept hgone r
    have hcount := pendingAfter_ge hs hkept hgone r
    have hbound := hs.bounded r.paymaster
    have hsmaller := total_le hkept (reservedFor given r.paymaster)
    simp only [checkPaymaster] at h
    split at h
    · cases h
    rename_i hlimit
    split at h
    · cases h
    rename_i havailable
    have hbalance := r.paymasterBalance.isLt
    refine ⟨?_, by omega, ?_⟩
    · intro hash' hpooled hframe hsender
      exact hfree hash' hpooled hsender (hslot hash' (hkept.isSome hpooled) hframe hsender)
    intro hcanonical
    rw [not_and, ge_iff_le, not_le] at hlimit
    have hroom := hlimit hcanonical
    omega

end FrameGates

end Ethrex.Mempool
