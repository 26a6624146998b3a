import Ethrex.Mempool.Pruning

/-!
# Bundles and blob transactions

The bundle pool is matched when its keys are the pooled blob transactions and those whose admission
stands between its bundle and its end, and the regular ones are within their cap. `matched_step_iff`
says which steps keep the match. Two peers that deliver the same blob transaction break it.
-/

namespace Ethrex.Mempool

open Tally MempoolInner List

/-- An admission in flight has its bundle in the pool under this hash. -/
def Awaits (inFlight : Map Nat (BlobAdmission × Phase)) (hash : H256) : Prop :=
  ∃ id a phase, inFlight.lookup id = some (a, phase) ∧ phase ≠ .checked ∧ hash = a.hash

section Awaiting

variable {inFlight : Map Nat (BlobAdmission × Phase)} {id : Nat} {a : BlobAdmission} {phase : Phase}

theorem awaits_of_lookup (h : inFlight.lookup id = some (a, phase)) (hash : H256) :
    Awaits inFlight hash ↔ (phase ≠ .checked ∧ hash = a.hash) ∨ Awaits (inFlight.erase id) hash := by
  constructor
  · rintro ⟨id', a', phase', hlookup, hphase, rfl⟩
    by_cases hid : id' = id
    · subst hid
      rw [h] at hlookup
      obtain ⟨rfl, rfl⟩ := Prod.mk.inj (Option.some.inj hlookup)
      exact .inl ⟨hphase, rfl⟩
    · exact .inr ⟨id', a', phase', lookup_erase_eq_some.2 ⟨hid, hlookup⟩, hphase, rfl⟩
  · rintro (⟨hphase, rfl⟩ | ⟨id', a', phase', hlookup, hphase, rfl⟩)
    · exact ⟨id, a, phase, h, hphase, rfl⟩
    · exact ⟨id', a', phase', (lookup_erase_eq_some.1 hlookup).2, hphase, rfl⟩

theorem awaits_insert (hash : H256) :
    Awaits (inFlight.insert id (a, phase)) hash ↔
      (phase ≠ .checked ∧ hash = a.hash) ∨ Awaits (inFlight.erase id) hash := by
  have hlookup : (inFlight.insert id (a, phase)).lookup id = some (a, phase) := by
    rw [lookup_insert_eq, if_pos rfl]
  rw [awaits_of_lookup hlookup]
  have hsame : ∀ id', ((inFlight.insert id (a, phase)).erase id).lookup id' =
      (inFlight.erase id).lookup id' := by
    intro id'
    simp only [lookup_erase_eq, lookup_insert_eq]
    split
    · rfl
    · rfl
  simp only [Awaits, hsame]

end Awaiting

variable (txOf : H256 → MempoolTransaction) (versionedHash : Commitment → H256)
  (iteration : IterationOrder)

/-- What holds of every state: the pool is tidy, and the admissions are of blob transactions. -/
structure PoolState.Sound (s : PoolState) : Prop where
  tidy : Tidy txOf versionedHash s.inner
  blobs : ∀ id a phase, s.inFlight.lookup id = some (a, phase) → (txOf a.hash).isBlob

/-- The bundles are those of pooled blob transactions and admissions in flight, and the regular
transactions are within their cap. -/
structure PoolState.Matched (s : PoolState) : Prop where
  keys : ∀ hash, (s.inner.blobsBundlePool.lookup hash).isSome ↔
    ((s.inner.transactionPool.lookup hash).isSome ∧ (txOf hash).isBlob) ∨ Awaits s.inFlight hash
  capped : regulars s.inner ≤ s.inner.maxMempoolSize

def Retains (s : PoolState) (m : MempoolInner) : Prop :=
  ∀ hash, (s.inner.transactionPool.lookup hash).isSome → m.transactionPool.lookup hash = none →
    ¬ Awaits s.inFlight hash

/-- None of the pooled transactions that are removed has its admission in flight. -/
def Spares (s : PoolState) (gone : List H256) : Prop :=
  ∀ hash ∈ gone, (s.inner.transactionPool.lookup hash).isSome → ¬ Awaits s.inFlight hash

/-- A regular transaction is pooled already, or it finds room: the cap is above zero and, with the
nonce slot cleared, not reached or no bundle waits. -/
def HasRoom (s : MempoolInner) (hash : H256) (tx : MempoolTransaction)
    (admission : Option SenderAdmission) : Prop :=
  ((s.roomMade versionedHash iteration hash tx.sender tx admission).transactionPool.lookup
      hash).isSome ∨
    0 < s.maxMempoolSize ∧
      (regulars (s.slotCleared versionedHash tx.sender tx admission) < s.maxMempoolSize ∨
        waiting (s.slotCleared versionedHash tx.sender tx admission) = 0)

def PoolState.StepOk (s : PoolState) : PoolEvent → Prop
  | .addTransaction id => ∀ e ∈ s.inFlight.lookup id, e.2 = .bundled →
      s.inner.passesGates e.1.hash (txOf e.1.hash).sender (txOf e.1.hash) none e.1.admission →
      Spares s (s.inner.displaced versionedHash iteration (txOf e.1.hash) e.1.admission)
  | .rollBack id => ∀ e ∈ s.inFlight.lookup id, e.2 = .refused →
      s.inner.transactionPool.lookup e.1.hash = none ∧ ¬ Awaits (s.inFlight.erase id) e.1.hash
  | .addRegular hash reservation admission _ =>
      s.inner.passesGates hash (txOf hash).sender (txOf hash) reservation admission →
      Spares s (s.inner.displaced versionedHash iteration (txOf hash) admission) ∧
      HasRoom versionedHash iteration s.inner hash (txOf hash) admission
  | .remove hash => Spares s [hash]
  | _ => True

instance (inFlight : Map Nat (BlobAdmission × Phase)) (hash : H256) :
    Decidable (Awaits inFlight hash) :=
  decidable_of_iff (∃ e ∈ inFlight.entries, e.2.2 ≠ .checked ∧ hash = e.2.1.hash) <| by
    simp only [Awaits, ← Option.mem_def, AList.mem_lookup_iff, Sigma.exists, Prod.exists]

instance (s : PoolState) (gone : List H256) : Decidable (Spares s gone) :=
  inferInstanceAs (Decidable (∀ hash ∈ gone, _ → _))

instance (s : MempoolInner) (hash : H256) (tx : MempoolTransaction)
    (admission : Option SenderAdmission) :
    Decidable (HasRoom versionedHash iteration s hash tx admission) :=
  inferInstanceAs (Decidable (_ ∨ _))

instance (s : PoolState) : DecidablePred (s.StepOk txOf versionedHash iteration)
  | .addTransaction id =>
    inferInstanceAs (Decidable (∀ e ∈ s.inFlight.lookup id, e.2 = .bundled → _ → _))
  | .rollBack id =>
    inferInstanceAs (Decidable (∀ e ∈ s.inFlight.lookup id, e.2 = .refused → _ ∧ _))
  | .addRegular .. => inferInstanceAs (Decidable (_ → _ ∧ _))
  | .remove hash => inferInstanceAs (Decidable (Spares s [hash]))
  | .check .. | .abandon _ | .addBundle _ => inferInstanceAs (Decidable True)

variable {txOf versionedHash iteration} {s : PoolState}

/-! ### Facts that every step keeps -/

variable {hash : H256} {m : MempoolInner} {admission : Option SenderAdmission}

theorem PoolState.Sound.blob_of_awaits (hs : s.Sound txOf versionedHash)
    (h : Awaits s.inFlight hash) : (txOf hash).isBlob := by
  obtain ⟨id, a, phase, hlookup, -, rfl⟩ := h
  exact hs.blobs id a phase hlookup

theorem Tidy.logged {s : MempoolInner} (hs : Tidy txOf versionedHash s) (made : List Subtraction) :
    Tidy txOf versionedHash (s.logged made) :=
  ⟨hs.pooled, hs.regular, hs.complete, hs.covers⟩

theorem Tidy.inserted {s : MempoolInner} (hs : Tidy txOf versionedHash s)
    (hm : Inserted (s.roomMade versionedHash iteration hash (txOf hash).sender (txOf hash) admission)
      hash (txOf hash) m) : Tidy txOf versionedHash m := by
  obtain ⟨room, hpruned, hroom⟩ := roomMade_eq versionedHash iteration s hash (txOf hash).sender
    (txOf hash) admission
  have htidy := hs.pruned hpruned
  have hpool : m.transactionPool = room.transactionPool.insert hash (txOf hash) := by
    rw [hm.pool, hroom]
  have horder : m.txsOrder = room.txsOrder ++ if (txOf hash).isBlob then [] else [hash] := by
    rw [hm.order, hroom]
  refine ⟨fun hash' tx hlookup => ?_, fun hash' hmem => ?_, fun hash' hpooled hregular => ?_,
    fun hash' bundle hlookup commitment hmem => ?_⟩
  · rw [hpool, lookup_insert_eq] at hlookup
    split at hlookup
    · rename_i heq
      rw [heq]
      exact (Option.some.inj hlookup).symm
    · exact htidy.pooled hash' tx hlookup
  · rw [horder, mem_append] at hmem
    rcases hmem with hmem | hmem
    · exact htidy.regular hash' hmem
    split at hmem
    · cases hmem
    · rename_i hblob
      rw [mem_singleton.1 hmem]
      simpa using hblob
  · rw [horder, mem_append]
    by_cases heq : hash' = hash
    · right
      subst heq
      simp [hregular]
    · left
      rw [hpool, lookup_insert_eq, if_neg heq] at hpooled
      exact htidy.complete hash' hpooled hregular
  · rw [hm.versioned, hroom]
    rw [hm.bundles, hroom] at hlookup
    exact htidy.covers hash' bundle hlookup commitment hmem

theorem Tidy.addTransactionInner {s : MempoolInner} (hs : Tidy txOf versionedHash s) (hash : H256)
    (reservation : Option FramePaymasterReservation) (admission : Option SenderAdmission)
    (broadcast : Bool) :
    Tidy txOf versionedHash (s.addTransactionInner versionedHash iteration hash (txOf hash).sender
      (txOf hash) reservation admission broadcast).2 := by
  cases hgates : s.passesGates hash (txOf hash).sender (txOf hash) reservation admission with
  | false =>
    obtain ⟨_, made, heq⟩ := addTransactionInner_of_refused versionedHash iteration broadcast hgates
    rw [heq]
    exact hs.logged made
  | true => exact hs.inserted (inserted_of_passes versionedHash iteration broadcast hgates).1

theorem PoolState.Sound.step (hs : s.Sound txOf versionedHash) {event : PoolEvent}
    (hevent : event.WellTyped txOf) :
    (s.step txOf versionedHash iteration event).Sound txOf versionedHash := by
  -- an admission that stays in flight under its own hash
  have hinsert : ∀ (id : Nat) (a : BlobAdmission) (phase : Phase), (txOf a.hash).isBlob →
      ∀ id' a' phase',
      (s.inFlight.insert id (a, phase)).lookup id' = some (a', phase') → (txOf a'.hash).isBlob := by
    intro id a phase hblob id' a' phase' hlookup
    rcases lookup_insert_eq_some.1 hlookup with ⟨-, ⟨⟩⟩ | ⟨-, hlookup⟩
    · exact hblob
    · exact hs.blobs id' a' phase' hlookup
  have herase : ∀ (id id' : Nat) a' phase', (s.inFlight.erase id).lookup id' = some (a', phase') →
      (txOf a'.hash).isBlob := fun id id' a' phase' hlookup =>
    hs.blobs id' a' phase' (lookup_erase_eq_some.1 hlookup).2
  cases event with
  | check id admission =>
    rw [PoolState.step]
    split
    · exact hs
    · exact ⟨hs.tidy, hinsert id admission .checked hevent⟩
  | abandon id =>
    rw [PoolState.step]
    split
    · exact ⟨hs.tidy, herase id⟩
    · exact hs
  | addBundle id =>
    rw [PoolState.step]
    split
    · rename_i a hlookup
      exact ⟨⟨hs.tidy.pooled, hs.tidy.regular, hs.tidy.complete,
        hs.tidy.covers.addBlobsBundle versionedHash a.hash a.bundle⟩,
        hinsert id a .bundled (hs.blobs id a _ hlookup)⟩
    · exact hs
  | addTransaction id =>
    rw [PoolState.step]
    split
    · rename_i a hlookup
      refine ⟨hs.tidy.addTransactionInner a.hash none a.admission a.broadcast, ?_⟩
      dsimp only
      split
      · exact herase id
      · exact hinsert id a .refused (hs.blobs id a _ hlookup)
    · exact hs
  | rollBack id =>
    rw [PoolState.step]
    split
    · rename_i a _
      refine ⟨⟨?_, ?_, ?_, hs.tidy.covers.removeBlobBundle versionedHash a.hash⟩, herase id⟩
      · rw [removeBlobBundle_eq]
        exact hs.tidy.pooled
      · rw [removeBlobBundle_eq]
        exact hs.tidy.regular
      · rw [removeBlobBundle_eq]
        exact hs.tidy.complete
    · exact hs
  | addRegular hash reservation admission broadcast =>
    exact ⟨hs.tidy.addTransactionInner hash reservation admission broadcast, hs.blobs⟩
  | remove hash => exact ⟨hs.tidy.pruned (pruned_remove versionedHash s.inner hash), hs.blobs⟩

/-! ### What a step does to the match -/

section Steps

variable (hs : s.Sound txOf versionedHash) (hmatched : s.Matched txOf)

include hs hmatched

theorem PoolState.Matched.tied : Tied s.inner := by
  intro hash tx hlookup
  have hkeys := hmatched.keys hash
  have hblob : tx.isBlob ↔ (txOf hash).isBlob := by rw [hs.tidy.pooled hash tx hlookup]
  rw [hkeys, hblob]
  constructor
  · rintro (⟨-, h⟩ | h)
    · exact h
    · exact hs.blob_of_awaits h
  · exact fun h => .inl ⟨by simp [hlookup], h⟩

omit hmatched in
theorem retains_roomMade_iff {hash : H256} {admission : Option SenderAdmission} :
    Retains s (s.inner.roomMade versionedHash iteration hash (txOf hash).sender (txOf hash)
      admission) ↔ Spares s (s.inner.displaced versionedHash iteration (txOf hash) admission) := by
  have hlookup : ∀ hash', Awaits s.inFlight hash' →
      (s.inner.roomMade versionedHash iteration hash (txOf hash).sender (txOf hash)
        admission).transactionPool.lookup hash' =
      if hash' ∈ s.inner.displaced versionedHash iteration (txOf hash) admission then none
      else s.inner.transactionPool.lookup hash' := fun hash' hawaits =>
    hs.tidy.lookup_roomMade iteration (hs.blob_of_awaits hawaits)
  constructor
  · intro h hash' hgone hpooled hawaits
    exact h hash' hpooled (by rw [hlookup hash' hawaits, if_pos hgone]) hawaits
  · intro h hash' hpooled hnone hawaits
    refine h hash' ?_ hpooled hawaits
    by_contra hstays
    rw [hlookup hash' hawaits, if_neg hstays] at hnone
    simp [hnone] at hpooled

variable {m : MempoolInner}

/-- After removals the bundles are those of the blob transactions left and the awaited ones, exactly
when the removals spare the latter. -/
theorem keys_of_pruned_iff (hm : Pruned versionedHash s.inner m) :
    (∀ hash, (m.blobsBundlePool.lookup hash).isSome ↔
      ((m.transactionPool.lookup hash).isSome ∧ (txOf hash).isBlob) ∨ Awaits s.inFlight hash) ↔
    Retains s m := by
  have hblob : ∀ hash, (s.inner.transactionPool.lookup hash).isSome →
      (txOf hash).isBlob → (s.inner.transactionPool.lookup hash).any MempoolTransaction.isBlob := by
    intro hash hpooled hblob
    obtain ⟨tx, htx⟩ := Option.isSome_iff_exists.1 hpooled
    rw [htx, Option.any_some, hs.tidy.pooled hash tx htx, hblob]
  constructor
  · intro hkeys hash hpooled hgone hawaits
    have hremoved := hm.bundles hash
    rw [if_pos ⟨hblob hash hpooled (hs.blob_of_awaits hawaits), hgone⟩] at hremoved
    have := (hkeys hash).2 (.inr hawaits)
    simp [hremoved] at this
  · intro hspares hash
    rw [hm.bundles]
    by_cases hremoved : (s.inner.transactionPool.lookup hash).any MempoolTransaction.isBlob ∧
        m.transactionPool.lookup hash = none
    · rw [if_pos hremoved]
      have hpooled : (s.inner.transactionPool.lookup hash).isSome := by
        cases hlookup : s.inner.transactionPool.lookup hash with
        | none => simp [hlookup] at hremoved
        | some tx => rfl
      simp [hremoved.2, hspares hash hpooled hremoved.2]
    · rw [if_neg hremoved, hmatched.keys hash]
      apply or_congr_left
      apply and_congr_left
      intro hisBlob
      constructor
      · intro hpooled
        by_contra hgone
        exact hremoved ⟨hblob hash hpooled hisBlob, by simpa using hgone⟩
      · exact hm.isSome

/-- Removals and an insertion: the bundles are matched exactly when the removals spare the awaited
transactions. -/
theorem keys_of_inserted_iff {hash : H256} {tx : MempoolTransaction}
    {admission : Option SenderAdmission} {inFlight : Map Nat (BlobAdmission × Phase)}
    (hm : Inserted (s.inner.roomMade versionedHash iteration hash (txOf hash).sender (txOf hash)
      admission) hash tx m)
    (hawaits : ∀ hash', Awaits s.inFlight hash' ↔
      ((txOf hash).isBlob ∧ hash' = hash) ∨ Awaits inFlight hash') :
    (∀ hash', (m.blobsBundlePool.lookup hash').isSome ↔
      ((m.transactionPool.lookup hash').isSome ∧ (txOf hash').isBlob) ∨ Awaits inFlight hash') ↔
    Spares s (s.inner.displaced versionedHash iteration (txOf hash) admission) := by
  obtain ⟨room, hpruned, hroom⟩ := roomMade_eq versionedHash iteration s.inner hash
    (txOf hash).sender (txOf hash) admission
  have hkeys := keys_of_pruned_iff hs hmatched hpruned
  rw [← retains_roomMade_iff hs, Retains, hroom]
  refine Iff.trans ?_ hkeys
  apply forall_congr'
  intro hash'
  rw [hm.bundles, hm.pool, hroom, lookup_insert_eq, hawaits hash']
  apply iff_congr Iff.rfl
  by_cases hhash : hash' = hash
  · subst hhash
    by_cases hblob : (txOf hash').isBlob
    · simp [hblob]
    · simp [hblob]
  · simp [hhash]

end Steps

theorem regulars_inserted {room : MempoolInner}
    (hpooled : ∀ tx, room.transactionPool.lookup hash = some tx → tx = txOf hash)
    (hm : Inserted room hash (txOf hash) m) :
    regulars m = regulars room +
      if (txOf hash).isBlob ∨ (room.transactionPool.lookup hash).isSome then 0 else 1 := by
  rw [regulars, hm.pool]
  cases hlookup : room.transactionPool.lookup hash with
  | none =>
    rw [total_insert hlookup, regulars]
    by_cases hblob : (txOf hash).isBlob
    · simp [hblob]
    · simp [hblob, Nat.add_comm]
  | some tx =>
    have htx := hpooled tx hlookup
    have hsame : ∀ hash' tx', (room.transactionPool.insert hash (txOf hash)).lookup hash' = some tx' ↔
        room.transactionPool.lookup hash' = some tx' := by
      intro hash' tx'
      rw [lookup_insert_eq]
      split
      · rename_i heq
        subst heq
        rw [hlookup, htx]
      · rfl
    have hle := total_le_of_lookup (fun _ tx => if tx.isBlob then 0 else 1)
      fun hash' tx' => (hsame hash' tx').1
    have hge := total_le_of_lookup (fun _ tx => if tx.isBlob then 0 else 1)
      fun hash' tx' => (hsame hash' tx').2
    simp only [Option.isSome_some, or_true, if_true, regulars]
    omega

theorem regulars_le_iff {s : MempoolInner} (hs : Tidy txOf versionedHash s) (htied : Tied s)
    (hcapped : regulars s ≤ s.maxMempoolSize) (hregular : (txOf hash).isBlob = false)
    (hm : Inserted (s.roomMade versionedHash iteration hash (txOf hash).sender (txOf hash) admission)
      hash (txOf hash) m) :
    regulars m ≤ m.maxMempoolSize ↔
      HasRoom versionedHash iteration s hash (txOf hash) admission := by
  have hslot := pruned_slotCleared versionedHash s (txOf hash).sender (txOf hash) admission
  have hprune := pruned_pruneOrder versionedHash
    (s.slotCleared versionedHash (txOf hash).sender (txOf hash) admission)
  have hcleared := hslot.trans hprune
  have hevicted := hcleared.trans (pruned_oldestEvicted versionedHash _)
  have hroom : s.roomMade versionedHash iteration hash (txOf hash).sender (txOf hash) admission =
      { oldestEvicted versionedHash
          (s.slotCleared versionedHash (txOf hash).sender (txOf hash) admission).pruneOrder with
        txsOrder := (oldestEvicted versionedHash (s.slotCleared versionedHash (txOf hash).sender
          (txOf hash) admission).pruneOrder).txsOrder ++ [hash] } := by
    rw [roomMade, makeRoom, hregular]
    rfl
  -- pruning the order queue touches no count
  have hqueue : ∀ c : MempoolInner, regulars c.pruneOrder = regulars c ∧
      waiting c.pruneOrder = waiting c := by
    intro c
    rw [pruneOrder]
    split
    · exact ⟨rfl, rfl⟩
    · exact ⟨rfl, rfl⟩
  have hleft := regulars_oldestEvicted (hs.pruned hcleared) (htied.pruned hcleared)
  rw [hcleared.max, (hqueue _).1, (hqueue _).2] at hleft
  have hle := regulars_le_of_pruned hevicted
  have hmax : m.maxMempoolSize = s.maxMempoolSize := by
    rw [hm.max, hroom]
    exact hevicted.max
  have hcount := regulars_inserted
    (fun tx h => (hs.pruned hevicted).pooled hash tx (by rwa [hroom] at h)) hm
  have hsame : regulars (s.roomMade versionedHash iteration hash (txOf hash).sender (txOf hash)
      admission) = regulars (oldestEvicted versionedHash
        (s.slotCleared versionedHash (txOf hash).sender (txOf hash) admission).pruneOrder) := by
    rw [hroom]
    rfl
  rw [HasRoom, hcount, hsame, hmax]
  by_cases hpooled : ((s.roomMade versionedHash iteration hash (txOf hash).sender (txOf hash)
      admission).transactionPool.lookup hash).isSome
  · simp only [hpooled, or_true, if_true, true_or, iff_true]
    omega
  simp only [hpooled, hregular, Bool.false_eq_true, or_self, if_false, false_or, hleft]
  split
  · omega
  · omega

theorem PoolState.Matched.congr {s' : PoolState} (h : s.Matched txOf)
    (hpool : s'.inner.transactionPool = s.inner.transactionPool)
    (hbundles : s'.inner.blobsBundlePool = s.inner.blobsBundlePool)
    (hmax : s'.inner.maxMempoolSize = s.inner.maxMempoolSize)
    (hawaits : ∀ hash, Awaits s'.inFlight hash ↔ Awaits s.inFlight hash) : s'.Matched txOf := by
  refine ⟨fun hash => ?_, ?_⟩
  · rw [hpool, hbundles, hawaits]
    exact h.keys hash
  · rw [regulars, hpool, hmax]
    exact h.capped

section Events

variable (hs : s.Sound txOf versionedHash) (hmatched : s.Matched txOf)

include hmatched

variable (id : Nat)

theorem matched_check (admission : BlobAdmission) :
    (s.step txOf versionedHash iteration (.check id admission)).Matched txOf := by
  rw [PoolState.step]
  split
  · exact hmatched
  rename_i hfresh
  have hnone : s.inFlight.lookup id = none := by
    rw [not_or, Option.not_isSome_iff_eq_none] at hfresh
    exact hfresh.1
  refine hmatched.congr rfl rfl rfl fun hash => ?_
  show Awaits (s.inFlight.insert id (admission, .checked)) hash ↔ _
  rw [awaits_insert, erase_of_lookup_eq_none hnone]
  simp

theorem matched_abandon : (s.step txOf versionedHash iteration (.abandon id)).Matched txOf := by
  rw [PoolState.step]
  split
  · rename_i a hlookup
    refine hmatched.congr rfl rfl rfl fun hash => ?_
    rw [awaits_of_lookup hlookup]
    simp
  · exact hmatched

theorem matched_addBundle : (s.step txOf versionedHash iteration (.addBundle id)).Matched txOf := by
  rw [PoolState.step]
  split
  · rename_i a hlookup
    refine ⟨fun hash => ?_, hmatched.capped⟩
    have hkeys := hmatched.keys hash
    rw [awaits_of_lookup hlookup] at hkeys
    show ((s.inner.blobsBundlePool.insert a.hash a.bundle).lookup hash).isSome ↔
      ((s.inner.transactionPool.lookup hash).isSome ∧ (txOf hash).isBlob) ∨
        Awaits (s.inFlight.insert id (a, .bundled)) hash
    rw [lookup_insert_eq, awaits_insert]
    by_cases hhash : hash = a.hash
    · simp [hhash]
    · simpa [hhash] using hkeys
  · exact hmatched

include hs

theorem matched_addTransaction_iff :
    (s.step txOf versionedHash iteration (.addTransaction id)).Matched txOf ↔
      s.StepOk txOf versionedHash iteration (.addTransaction id) := by
  rw [PoolState.step, PoolState.StepOk]
  rcases hlookup : s.inFlight.lookup id with _ | ⟨a, _ | _ | _⟩
  · exact iff_of_true hmatched fun e he => by cases he
  · exact iff_of_true hmatched fun e he hphase => by cases he; cases hphase
  · simp only [Option.mem_some_iff, forall_eq', true_imp_iff]
    have hblob := hs.blobs id a _ hlookup
    have hframe : (txOf a.hash).isFrame = false := by
      simp only [MempoolTransaction.isBlob, decide_eq_true_eq] at hblob
      simp [MempoolTransaction.isFrame, hblob]
    have hawaits : ∀ hash, Awaits s.inFlight hash ↔
        ((txOf a.hash).isBlob ∧ hash = a.hash) ∨ Awaits (s.inFlight.erase id) hash := by
      intro hash
      rw [awaits_of_lookup hlookup]
      simp [hblob]
    cases hgates : s.inner.passesGates a.hash (txOf a.hash).sender (txOf a.hash) none
        a.admission with
    | false =>
      obtain ⟨e, made, heq⟩ :=
        addTransactionInner_of_refused versionedHash iteration a.broadcast hgates
      simp only [heq, Bool.false_eq_true, false_implies, iff_true]
      refine hmatched.congr rfl rfl rfl fun hash => ?_
      rw [awaits_of_lookup hlookup]
      simp [Except.isOk, Except.toBool, awaits_insert]
    | true =>
      obtain ⟨hinserted, hok⟩ := inserted_of_passes versionedHash iteration a.broadcast hgates
      obtain ⟨room, hpruned, hroom⟩ := roomMade_eq versionedHash iteration s.inner a.hash
        (txOf a.hash).sender (txOf a.hash) a.admission
      replace hroom := hroom.trans (by rw [if_pos hblob, append_nil] : _ = room)
      rw [← keys_of_inserted_iff hs hmatched hinserted hawaits]
      simp only [hok hframe, forall_const]
      refine ⟨fun h => h.keys, fun h => ⟨h, ?_⟩⟩
      -- a blob transaction is not counted among the regular ones
      have hcount := regulars_inserted
        (fun tx h => (hs.tidy.pruned hpruned).pooled a.hash tx (hroom ▸ h)) hinserted
      rw [if_pos (.inl hblob), hroom] at hcount
      have hle := regulars_le_of_pruned hpruned
      have hcapped := hmatched.capped
      have hmax := hinserted.max
      rw [hroom, hpruned.max] at hmax
      dsimp only
      omega
  · exact iff_of_true hmatched fun e he hphase => by cases he; cases hphase

theorem matched_rollBack_iff :
    (s.step txOf versionedHash iteration (.rollBack id)).Matched txOf ↔
      s.StepOk txOf versionedHash iteration (.rollBack id) := by
  rw [PoolState.step, PoolState.StepOk]
  rcases hlookup : s.inFlight.lookup id with _ | ⟨a, _ | _ | _⟩
  · exact iff_of_true hmatched fun e he => by cases he
  · exact iff_of_true hmatched fun e he hphase => by cases he; cases hphase
  · exact iff_of_true hmatched fun e he hphase => by cases he; cases hphase
  · simp only [Option.mem_some_iff, forall_eq', true_imp_iff]
    have hblob := hs.blobs id a _ hlookup
    constructor
    · intro h
      have hkeys := h.keys a.hash
      rw [removeBlobBundle_eq] at hkeys
      simpa [hblob] using hkeys
    · rintro ⟨hnone, hnot⟩
      refine ⟨fun hash => ?_, ?_⟩
      · have hkeys := hmatched.keys hash
        rw [awaits_of_lookup hlookup] at hkeys
        rw [removeBlobBundle_eq]
        show ((s.inner.blobsBundlePool.erase a.hash).lookup hash).isSome ↔
          ((s.inner.transactionPool.lookup hash).isSome ∧ (txOf hash).isBlob) ∨
            Awaits (s.inFlight.erase id) hash
        rw [lookup_erase_eq]
        by_cases hhash : hash = a.hash
        · subst hhash
          simp [hnone, hnot]
        · simpa [hhash] using hkeys
      · rw [removeBlobBundle_eq]
        exact hmatched.capped

theorem matched_addRegular_iff {hash : H256} (hregular : (txOf hash).isBlob = false)
    (reservation : Option FramePaymasterReservation) (admission : Option SenderAdmission)
    (broadcast : Bool) :
    (s.step txOf versionedHash iteration (.addRegular hash reservation admission broadcast)).Matched
        txOf ↔
      s.StepOk txOf versionedHash iteration (.addRegular hash reservation admission broadcast) := by
  rw [PoolState.step, PoolState.StepOk]
  cases hgates : s.inner.passesGates hash (txOf hash).sender (txOf hash) reservation admission with
  | false =>
    obtain ⟨e, made, heq⟩ := addTransactionInner_of_refused versionedHash iteration broadcast hgates
    simp only [heq, Bool.false_eq_true, false_implies, iff_true]
    exact hmatched.congr rfl rfl rfl fun _ => Iff.rfl
  | true =>
    have hinserted := (inserted_of_passes versionedHash iteration broadcast hgates).1
    have hawaits : ∀ hash', Awaits s.inFlight hash' ↔
        ((txOf hash).isBlob ∧ hash' = hash) ∨ Awaits s.inFlight hash' := by
      simp [hregular]
    rw [← keys_of_inserted_iff hs hmatched hinserted hawaits,
      ← regulars_le_iff hs.tidy (hmatched.tied hs) hmatched.capped hregular hinserted]
    simp only [forall_const]
    exact ⟨fun h => ⟨h.keys, h.capped⟩, fun h => ⟨h.1, h.2⟩⟩

theorem matched_remove_iff (hash : H256) :
    (s.step txOf versionedHash iteration (.remove hash)).Matched txOf ↔
      s.StepOk txOf versionedHash iteration (.remove hash) := by
  rw [PoolState.step, PoolState.StepOk]
  have hpruned := pruned_remove versionedHash s.inner hash
  have hspares : Retains s (s.inner.removeTransactionWithLock versionedHash hash) ↔
      Spares s [hash] := by
    rw [Retains, Spares, forall_mem_singleton,
      (removeTransactionWithLock_eq versionedHash s.inner hash).1]
    constructor
    · intro h hpooled
      exact h hash hpooled (by rw [lookup_erase_eq, if_pos rfl])
    intro h hash' hpooled hgone
    rw [lookup_erase_eq] at hgone
    split at hgone
    · rename_i heq
      subst heq
      exact h hpooled
    · simp [hgone] at hpooled
  rw [← hspares, ← keys_of_pruned_iff hs hmatched hpruned]
  refine ⟨fun h => h.keys, fun h => ⟨h, ?_⟩⟩
  have hle := regulars_le_of_pruned hpruned
  rw [hpruned.max]
  exact hle.trans hmatched.capped

theorem matched_step_iff {event : PoolEvent} (hevent : event.WellTyped txOf) :
    (s.step txOf versionedHash iteration event).Matched txOf ↔
      s.StepOk txOf versionedHash iteration event := by
  cases event with
  | check id admission => exact iff_of_true (matched_check hmatched id admission) trivial
  | abandon id => exact iff_of_true (matched_abandon hmatched id) trivial
  | addBundle id => exact iff_of_true (matched_addBundle hmatched id) trivial
  | addTransaction id => exact matched_addTransaction_iff hs hmatched id
  | rollBack id => exact matched_rollBack_iff hs hmatched id
  | addRegular hash reservation admission broadcast =>
    exact matched_addRegular_iff hs hmatched hevent reservation admission broadcast
  | remove hash => exact matched_remove_iff hs hmatched hash

end Events

/-- The pooled blob transactions are the keys of the bundle pool, every versioned hash of a bundle
is indexed to it, and the regular transactions are within their cap. -/
structure PoolState.SidecarsCoherent (versionedHash : Commitment → H256) (s : PoolState) : Prop where
  keys : ∀ hash, (s.inner.blobsBundlePool.lookup hash).isSome ↔
    (s.inner.transactionPool.lookup hash).any MempoolTransaction.isBlob
  covers : Covers versionedHash s.inner
  capped : regulars s.inner ≤ s.inner.maxMempoolSize

theorem PoolState.Matched.coherent (hs : s.Sound txOf versionedHash) (hmatched : s.Matched txOf)
    (hidle : s.inFlight = ∅) : s.SidecarsCoherent versionedHash := by
  refine ⟨fun hash => ?_, hs.tidy.covers, hmatched.capped⟩
  have hnone : ¬ Awaits s.inFlight hash := by
    rintro ⟨id, a, phase, hlookup, -⟩
    rw [hidle, AList.lookup_empty] at hlookup
    cases hlookup
  rw [hmatched.keys hash]
  cases hlookup : s.inner.transactionPool.lookup hash with
  | none => simp [hnone]
  | some tx => simp [hnone, hs.tidy.pooled hash tx hlookup]

theorem PoolState.run_append (s : PoolState) (past : List PoolEvent) (event : PoolEvent) :
    s.run txOf versionedHash iteration (past ++ [event]) =
      (s.run txOf versionedHash iteration past).step txOf versionedHash iteration event := by
  rw [PoolState.run, foldl_append]
  rfl

theorem PoolState.sound_new (maxMempoolSize maxBlobMempoolSize : Nat) :
    (PoolState.new maxMempoolSize maxBlobMempoolSize).Sound txOf versionedHash := by
  refine ⟨⟨fun hash tx h => ?_, fun hash h => ?_, fun hash h => ?_, fun hash bundle h => ?_⟩,
    fun id a phase h => ?_⟩
  all_goals simp [PoolState.new, MempoolInner.new] at h

theorem PoolState.matched_new (maxMempoolSize maxBlobMempoolSize : Nat) :
    (PoolState.new maxMempoolSize maxBlobMempoolSize).Matched txOf := by
  refine ⟨fun hash => ?_, Nat.zero_le _⟩
  simp [PoolState.new, MempoolInner.new, Awaits]

theorem PoolState.Sound.run (hs : s.Sound txOf versionedHash) (events : List PoolEvent)
    (hevents : ∀ event ∈ events, event.WellTyped txOf) :
    (s.run txOf versionedHash iteration events).Sound txOf versionedHash := by
  induction events generalizing s with
  | nil => exact hs
  | cons event events ih =>
    refine ih (hs.step (hevents event (by simp))) fun event' hmem => ?_
    exact hevents event' (mem_cons_of_mem _ hmem)

variable (txOf versionedHash iteration) in
/-- From the empty pool the bundles stay matched exactly when every step respects the admissions in
flight; then the sidecars are coherent whenever none is in flight. -/
theorem sidecars_matched_iff (maxMempoolSize maxBlobMempoolSize : Nat) (events : List PoolEvent)
    (hevents : ∀ event ∈ events, event.WellTyped txOf) :
    let state := (PoolState.new maxMempoolSize maxBlobMempoolSize).run txOf versionedHash iteration
    ((∀ past, past <+: events → (state past).Matched txOf) ↔
      ∀ past event, past ++ [event] <+: events →
        (state past).StepOk txOf versionedHash iteration event) ∧
    ((∀ past event, past ++ [event] <+: events →
        (state past).StepOk txOf versionedHash iteration event) →
      ∀ past, past <+: events → (state past).inFlight = ∅ →
        (state past).SidecarsCoherent versionedHash) := by
  intro state
  have hsound : ∀ past, past <+: events → (state past).Sound txOf versionedHash := by
    intro past hpast
    exact (PoolState.sound_new _ _).run past fun event hmem => hevents event (hpast.mem hmem)
  have hstep : ∀ past event, past ++ [event] <+: events → (state past).Matched txOf →
      ((state (past ++ [event])).Matched txOf ↔
        (state past).StepOk txOf versionedHash iteration event) := by
    intro past event hpast hmatched
    have hshort : past <+: events := (prefix_append past [event]).trans hpast
    rw [show state (past ++ [event]) = _ from PoolState.run_append _ past event]
    exact matched_step_iff (hsound past hshort) hmatched (hevents event (hpast.mem (by simp)))
  -- the steps of a prefix are steps of the run: by induction on its length from the end
  have hmatched : (∀ past event, past ++ [event] <+: events →
      (state past).StepOk txOf versionedHash iteration event) →
      ∀ past, past <+: events → (state past).Matched txOf := by
    intro hok past
    induction past using List.reverseRecOn with
    | nil => exact fun _ => PoolState.matched_new _ _
    | append_singleton past event ih =>
      intro hpast
      have hshort : past <+: events := (prefix_append past [event]).trans hpast
      exact (hstep past event hpast (ih hshort)).2 (hok past event hpast)
  refine ⟨⟨fun h past event hpast => ?_, hmatched⟩, fun hok past hpast hidle => ?_⟩
  · have hshort : past <+: events := (prefix_append past [event]).trans hpast
    exact (hstep past event hpast (h past hshort)).1 (h _ hpast)
  · exact (hmatched hok past hpast).coherent (hsound past hpast) hidle

/-! ### Interleaved admissions -/

def gossipedTx (_ : H256) : MempoolTransaction where
  txType := .eip4844
  sender := 1
  nonce := 0
  costWithoutBaseFee := some 100
  maxFeePerBlobGas := some 5

def gossipedAdmission : BlobAdmission where
  hash := .ofNat 9
  bundle := ⟨[⟨List.replicate 48 3, length_replicate⟩]⟩
  admission := some ⟨0, 64, 100, some ⟨100, 1000⟩⟩
  broadcast := true

/-- The transaction at 7 is a regular one, and the others are blob transactions of two senders. -/
def interleavedTx (hash : H256) : MempoolTransaction :=
  if hash = .ofNat 7 then
    { gossipedTx hash with txType := .eip1559, sender := 3, maxFeePerBlobGas := none }
  else { gossipedTx hash with sender := if hash = .ofNat 9 then 1 else 2 }

/-- A regular transaction enters while a bundle waits. -/
def interleaved : List PoolEvent :=
  [.check 0 gossipedAdmission, .check 1 { gossipedAdmission with hash := .ofNat 8 }, .addBundle 0,
    .addBundle 1, .addTransaction 1, .addRegular (.ofNat 7) none none true, .addTransaction 0,
    .remove (.ofNat 8)]

theorem sidecars_coherent_interleaved :
    let state := (PoolState.new 10 10).run interleavedTx (fun _ => .ofNat 0) .asListed
    (∀ past event, past ++ [event] <+: interleaved →
        (state past).StepOk interleavedTx (fun _ => .ofNat 0) .asListed event) ∧
      (state interleaved).inner.transactionPool.keys = [.ofNat 9, .ofNat 7] ∧
      (state interleaved).SidecarsCoherent fun _ => .ofNat 0 := by
  intro state
  have hevents : ∀ event ∈ interleaved, event.WellTyped interleavedTx := by
    decide +kernel
  have hsteps : ∀ past event, past ++ [event] <+: interleaved →
      (state past).StepOk interleavedTx (fun _ => .ofNat 0) .asListed event :=
    forall_step (by decide +kernel)
  exact ⟨hsteps, by decide +kernel, (sidecars_matched_iff interleavedTx _ _ 10 10 interleaved
    hevents).2 hsteps _ prefix_rfl (AList.ext rfl)⟩

/-- Two peers deliver one transaction. -/
def gossipedTwice : List PoolEvent :=
  [.check 0 gossipedAdmission, .check 1 gossipedAdmission, .addBundle 0, .addTransaction 0,
    .addBundle 1, .addTransaction 1]

/-- The second admission finds its own hash in the nonce slot: the transaction goes with its bundle,
and only the transaction comes back. -/
theorem gossipedTwice_loses_bundle :
    (∀ event ∈ gossipedTwice, event.WellTyped gossipedTx) ∧
      let s := (PoolState.new 10 10).run gossipedTx (fun _ => .ofNat 0) .asListed gossipedTwice
      s.inFlight = ∅ ∧ (s.inner.transactionPool.lookup (.ofNat 9)).isSome ∧
        ¬ s.SidecarsCoherent fun _ => .ofNat 0 := by
  refine ⟨?_, AList.ext ?_, ?_, fun h => ?_⟩
  · decide +kernel
  · rfl
  · decide +kernel
  · have hkeys := h.keys (.ofNat 9)
    revert hkeys
    decide +kernel

end Ethrex.Mempool
