import Ethrex.Mempool.Admission

/-!
# Removals from the pool

The paths that make room come to removals. Regular transactions are counted as pooled transactions
minus bundles: while bundles wait the eviction stops that much too early
(`regulars_removeOldestFrom`).
-/

namespace Ethrex.Mempool

open Tally MempoolInner List

/-! ### The index by versioned hash -/

def indexAt (index : Map H256 (Map H256 Nat)) (versioned hash : H256) : Option Nat :=
  (index.lookup versioned).bind fun txnToBundle => txnToBundle.lookup hash

variable {hash' : H256}

theorem indexAt_unindex {index : Map H256 (Map H256 Nat)} {hash : H256} (h : hash' ≠ hash)
    (versioned versioned' : H256) :
    indexAt (unindex index hash versioned) versioned' hash' = indexAt index versioned' hash' := by
  rw [unindex]
  cases hlookup : index.lookup versioned with
  | none => rfl
  | some txnToBundle =>
    have herase : (txnToBundle.erase hash).lookup hash' = txnToBundle.lookup hash' := by
      rw [lookup_erase_eq, if_neg h]
    by_cases hv : versioned' = versioned
    · subst hv
      by_cases hempty : (txnToBundle.erase hash).entries = []
      · have hnone : (txnToBundle.erase hash).lookup hash' = none := by
          rw [AList.lookup, hempty]
          rfl
        simp [hempty, indexAt, hlookup, ← herase, hnone]
      · simp [hempty, indexAt, hlookup, herase]
    · by_cases hempty : (txnToBundle.erase hash).entries = []
      · simp [hempty, indexAt, hv]
      · simp [hempty, indexAt, hv]

variable (versionedHash : Commitment → H256)

def Covers (s : MempoolInner) : Prop :=
  ∀ hash bundle, s.blobsBundlePool.lookup hash = some bundle → ∀ commitment ∈ bundle.commitments,
    (indexAt s.blobsBundleByVersionedHash (versionedHash commitment) hash).isSome

theorem indexAt_foldl_unindex {hash : H256} (h : hash' ≠ hash) (versioned : H256)
    (commitments : List Commitment) : ∀ index : Map H256 (Map H256 Nat),
    indexAt (commitments.foldl
        (fun index commitment => unindex index hash (versionedHash commitment)) index)
      versioned hash' = indexAt index versioned hash' := by
  induction commitments with
  | nil => exact fun _ => rfl
  | cons commitment commitments ih =>
    intro index
    rw [foldl_cons, ih]
    exact indexAt_unindex h _ _

theorem indexAt_removeBlobBundle (s : MempoolInner) {hash : H256} (h : hash' ≠ hash)
    (versioned : H256) :
    indexAt (s.removeBlobBundle versionedHash hash).blobsBundleByVersionedHash versioned hash' =
      indexAt s.blobsBundleByVersionedHash versioned hash' := by
  rw [removeBlobBundle]
  split
  · rfl
  · exact indexAt_foldl_unindex versionedHash h versioned _ _

theorem Covers.removeBlobBundle {s : MempoolInner} (hs : Covers versionedHash s) (hash : H256) :
    Covers versionedHash (s.removeBlobBundle versionedHash hash) := by
  intro hash' bundle hlookup commitment hmem
  rw [removeBlobBundle_eq, lookup_erase_eq] at hlookup
  split at hlookup
  · cases hlookup
  · rename_i hne
    rw [indexAt_removeBlobBundle _ _ hne]
    exact hs hash' bundle hlookup commitment hmem

theorem indexAt_addBlobsBundle (txHash : H256) (entries : List (Commitment × Nat)) :
    ∀ (index : Map H256 (Map H256 Nat)) (versioned hash : H256),
      (∃ e ∈ entries, hash = txHash ∧ versioned = versionedHash e.1) ∨
        (indexAt index versioned hash).isSome →
      (indexAt (entries.foldl
        (fun index entry =>
          index.insert (versionedHash entry.1)
            (((index.lookup (versionedHash entry.1)).getD ∅).insert txHash entry.2))
        index) versioned hash).isSome := by
  induction entries with
  | nil =>
    intro index versioned hash h
    simpa using h
  | cons entry entries ih =>
    intro index versioned hash h
    rw [foldl_cons]
    apply ih
    by_cases hlater : ∃ e ∈ entries, hash = txHash ∧ versioned = versionedHash e.1
    · exact .inl hlater
    right
    rw [indexAt, lookup_insert_eq]
    by_cases hv : versioned = versionedHash entry.1
    · rw [if_pos hv, Option.bind_some, lookup_insert_eq]
      split
      · simp
      rename_i hne
      have hbefore : (indexAt index versioned hash).isSome := by
        rcases h with ⟨e, hmem, rfl, hversioned⟩ | hindexed
        · exact absurd rfl hne
        · exact hindexed
      rw [indexAt, hv] at hbefore
      cases hinner : index.lookup (versionedHash entry.1) with
      | none => simp [hinner] at hbefore
      | some txnToBundle => simpa [hinner] using hbefore
    · rw [if_neg hv]
      rcases h with ⟨e, hmem, hhash, hversioned⟩ | hindexed
      · rcases mem_cons.1 hmem with rfl | hmem
        · exact absurd hversioned hv
        · exact absurd ⟨e, hmem, hhash, hversioned⟩ hlater
      · exact hindexed

theorem Covers.addBlobsBundle {s : MempoolInner} (hs : Covers versionedHash s) (txHash : H256)
    (bundle : BlobsBundle) : Covers versionedHash (s.addBlobsBundle versionedHash txHash bundle) := by
  intro hash stored hlookup commitment hmem
  apply indexAt_addBlobsBundle
  rw [MempoolInner.addBlobsBundle, lookup_insert_eq] at hlookup
  split at hlookup
  · rename_i heq
    obtain rfl := Option.some.inj hlookup
    left
    obtain ⟨i, hi, hget⟩ := getElem_of_mem hmem
    exact ⟨(commitment, i), by rw [mk_mem_zipIdx_iff_getElem?]; simp [hget, hi], heq, rfl⟩
  · exact .inr (hs hash stored hlookup commitment hmem)

theorem Covers.removeTransactionWithLock {s : MempoolInner} (hs : Covers versionedHash s)
    (hash : H256) : Covers versionedHash (s.removeTransactionWithLock versionedHash hash) := by
  have hbundle := hs.removeBlobBundle versionedHash hash
  rw [MempoolInner.removeTransactionWithLock]
  split
  · exact hs
  rename_i tx _
  have hrest : ∀ removed : MempoolInner, Covers versionedHash removed →
      Covers versionedHash (if tx.isFrame then removed.releaseFrame hash tx.sender else removed) := by
    intro removed hremoved
    split
    · obtain ⟨_, _, _, _, _, heq⟩ := releaseFrame_eq removed hash tx.sender
      rw [heq]
      exact hremoved
    · exact hremoved
  apply hrest
  by_cases hblob : tx.isBlob
  · intro hash' bundle hlookup commitment hmem
    simp only [hblob, if_true] at hlookup ⊢
    rw [removeBlobBundle_eq, lookup_erase_eq] at hlookup
    split at hlookup
    · cases hlookup
    · rename_i hne
      rw [indexAt_removeBlobBundle versionedHash _ hne]
      exact hs hash' bundle hlookup commitment hmem
  · intro hash' bundle hlookup commitment hmem
    simp only [hblob] at hlookup ⊢
    exact hs hash' bundle hlookup commitment hmem

/-- A pool that another one becomes by removals. -/
structure Pruned (s m : MempoolInner) : Prop where
  pool : ∀ hash tx, m.transactionPool.lookup hash = some tx →
    s.transactionPool.lookup hash = some tx
  bundles : ∀ hash, m.blobsBundlePool.lookup hash =
    if (s.transactionPool.lookup hash).any MempoolTransaction.isBlob ∧
      m.transactionPool.lookup hash = none then none
    else s.blobsBundlePool.lookup hash
  covers : Covers versionedHash s → Covers versionedHash m
  queued : ∀ hash ∈ m.txsOrder, hash ∈ s.txsOrder
  stays : ∀ hash ∈ s.txsOrder, (m.transactionPool.lookup hash).isSome → hash ∈ m.txsOrder
  max : m.maxMempoolSize = s.maxMempoolSize

namespace Pruned

variable {versionedHash} {s m m' : MempoolInner}

theorem refl (s : MempoolInner) : Pruned versionedHash s s := by
  refine ⟨fun _ _ h => h, fun hash => ?_, id, fun _ h => h, fun _ h _ => h, rfl⟩
  rw [if_neg]
  rintro ⟨hblob, hnone⟩
  simp [hnone] at hblob

variable {hash : H256}

theorem isSome (h : Pruned versionedHash s m) (hpooled : (m.transactionPool.lookup hash).isSome) :
    (s.transactionPool.lookup hash).isSome := by
  obtain ⟨tx, htx⟩ := Option.isSome_iff_exists.1 hpooled
  simp [h.pool hash tx htx]

theorem trans (h : Pruned versionedHash s m) (h' : Pruned versionedHash m m') :
    Pruned versionedHash s m' := by
  refine ⟨fun hash tx hlookup => h.pool hash tx (h'.pool hash tx hlookup), fun hash => ?_,
    fun hcovers => h'.covers (h.covers hcovers), fun hash hmem => h.queued hash (h'.queued hash hmem),
    fun hash hmem hpooled => h'.stays hash (h.stays hash hmem (h'.isSome hpooled)) hpooled,
    h'.max.trans h.max⟩
  rw [h'.bundles, h.bundles]
  cases hm : m.transactionPool.lookup hash with
  | none =>
    have hm' : m'.transactionPool.lookup hash = none := by
      by_contra hsome
      obtain ⟨tx, htx⟩ := Option.ne_none_iff_exists'.1 hsome
      rw [h'.pool hash tx htx] at hm
      cases hm
    simp [hm']
  | some tx => simp [h.pool hash tx hm]

theorem bundle_of_pooled (h : Pruned versionedHash s m)
    (hpooled : (m.transactionPool.lookup hash).isSome) :
    m.blobsBundlePool.lookup hash = s.blobsBundlePool.lookup hash := by
  rw [h.bundles, if_neg]
  rintro ⟨-, hnone⟩
  simp [hnone] at hpooled

end Pruned

theorem pruned_remove (s : MempoolInner) (hash : H256) :
    Pruned versionedHash s (s.removeTransactionWithLock versionedHash hash) := by
  obtain ⟨hpool, horder, hmax, -, hbundles⟩ := removeTransactionWithLock_eq versionedHash s hash
  refine ⟨fun hash' tx hlookup => ?_, fun hash' => ?_,
    fun hcovers => hcovers.removeTransactionWithLock versionedHash hash, ?_, ?_, hmax⟩
  · rw [hpool, lookup_erase_eq] at hlookup
    split at hlookup
    · cases hlookup
    · exact hlookup
  · rw [hbundles, hpool, lookup_erase_eq]
    by_cases hhash : hash' = hash
    · subst hhash
      cases hblob : (s.transactionPool.lookup hash').any MempoolTransaction.isBlob <;> simp
    rw [if_neg hhash]
    have hlookup : (if (s.transactionPool.lookup hash).any MempoolTransaction.isBlob then
        s.blobsBundlePool.erase hash else s.blobsBundlePool).lookup hash' =
        s.blobsBundlePool.lookup hash' := by
      split
      · rw [lookup_erase_eq, if_neg hhash]
      · rfl
    rw [hlookup, if_neg]
    rintro ⟨hblob, hnone⟩
    simp [hnone] at hblob
  · rw [horder]
    exact fun _ h => h
  · rw [horder]
    exact fun _ h _ => h

variable (iteration : IterationOrder) {oldestHash : H256}

theorem pruned_pop {s : MempoolInner} {queue : List H256}
    (hqueue : s.txsOrder = oldestHash :: queue) :
    Pruned versionedHash s
      (({ s with txsOrder := queue }).removeTransactionWithLock versionedHash oldestHash) := by
  have hremove := pruned_remove versionedHash { s with txsOrder := queue } oldestHash
  obtain ⟨hpool, horder, -⟩ :=
    removeTransactionWithLock_eq versionedHash { s with txsOrder := queue } oldestHash
  refine ⟨hremove.pool, hremove.bundles, hremove.covers, ?_, ?_, hremove.max⟩
  · intro hash hmem
    rw [hqueue]
    exact mem_cons_of_mem _ (hremove.queued hash hmem)
  intro hash hmem hpooled
  rw [horder]
  rw [hqueue] at hmem
  rcases mem_cons.1 hmem with rfl | hmem
  · simp [hpool] at hpooled
  · exact hmem

theorem pruned_clearSlot (s : MempoolInner) (sender : Address) (nonce : U64) :
    Pruned versionedHash s (s.clearSlot versionedHash sender nonce) := by
  rw [clearSlot]
  split
  · exact .refl s
  · exact pruned_remove versionedHash s _

theorem pruned_slotCleared (s : MempoolInner) (sender : Address) (tx : MempoolTransaction)
    (admission : Option SenderAdmission) :
    Pruned versionedHash s (s.slotCleared versionedHash sender tx admission) := by
  rw [slotCleared]
  split
  · exact pruned_clearSlot versionedHash s _ _
  · exact .refl s

theorem pruned_pruneOrder (s : MempoolInner) : Pruned versionedHash s s.pruneOrder := by
  have hrefl : Pruned versionedHash s s := .refl s
  rw [pruneOrder]
  split
  · refine ⟨hrefl.pool, hrefl.bundles, hrefl.covers, ?_, ?_, rfl⟩
    · intro hash hmem
      exact (mem_filter.1 hmem).1
    · intro hash hmem hpooled
      exact mem_filter.2 ⟨hmem, hpooled⟩
  · exact hrefl

theorem pruned_removeOldestFrom (queue : List H256) : ∀ s : MempoolInner, s.txsOrder = queue →
    Pruned versionedHash s (removeOldestFrom versionedHash queue s) := by
  induction queue with
  | nil => exact fun s _ => .refl s
  | cons oldestHash queue ih =>
    intro s hqueue
    rw [removeOldestFrom]
    split
    · refine (pruned_pop versionedHash hqueue).trans (ih _ ?_)
      exact (removeTransactionWithLock_eq versionedHash { s with txsOrder := queue } oldestHash).2.1
    · exact .refl s

theorem pruned_removeWorstFrom (fuel : Nat) :
    ∀ s : MempoolInner, Pruned versionedHash s (removeWorstFrom versionedHash iteration fuel s) := by
  induction fuel with
  | zero => exact .refl
  | succ fuel ih =>
    intro s
    rw [removeWorstFrom]
    split
    · split
      · exact .refl s
      · exact (pruned_remove versionedHash s _).trans (ih _)
    · exact .refl s

def oldestEvicted (s : MempoolInner) : MempoolInner :=
  if s.regularTxCount ≥ s.maxMempoolSize then s.removeOldestRegularTransaction versionedHash else s

theorem pruned_oldestEvicted (s : MempoolInner) :
    Pruned versionedHash s (oldestEvicted versionedHash s) := by
  rw [oldestEvicted]
  split
  · exact pruned_removeOldestFrom versionedHash _ s rfl
  · exact .refl s

theorem pruned_makeRoom_blob (s : MempoolInner) (hash : H256) :
    Pruned versionedHash s (s.makeRoom versionedHash iteration true hash) := by
  rw [makeRoom, if_pos rfl]
  split
  · exact pruned_removeWorstFrom versionedHash iteration _ s
  · exact .refl s

theorem roomMade_eq (s : MempoolInner) (hash : H256) (sender : Address) (tx : MempoolTransaction)
    (admission : Option SenderAdmission) :
    ∃ m, Pruned versionedHash s m ∧
      s.roomMade versionedHash iteration hash sender tx admission =
        { m with txsOrder := m.txsOrder ++ if tx.isBlob then [] else [hash] } := by
  have hslot := (pruned_slotCleared versionedHash s sender tx admission).trans
    (pruned_pruneOrder versionedHash _)
  rw [roomMade]
  cases tx.isBlob with
  | true =>
    refine ⟨_, hslot.trans (pruned_makeRoom_blob versionedHash iteration _ hash), ?_⟩
    rw [if_pos rfl, append_nil]
  | false => exact ⟨_, hslot.trans (pruned_oldestEvicted versionedHash _), rfl⟩

/-! ### The transactions that make room -/

/-- The blob transactions that the loop of `remove_worst_blob_transaction` drops. -/
def evicted (iteration : IterationOrder) : Nat → MempoolInner → List H256
  | 0, _ => []
  | fuel + 1, s =>
    if s.blobTxCount > s.maxBlobMempoolSize then
      match s.worstBlob iteration with
      | none => []
      | some hash => hash :: evicted iteration fuel (s.removeTransactionWithLock versionedHash hash)
    else []

/-- The transaction in the nonce slot, and the blob transactions that a blob transaction evicts. -/
def MempoolInner.displaced (s : MempoolInner) (tx : MempoolTransaction)
    (admission : Option SenderAdmission) : List H256 :=
  let cleared := (s.slotCleared versionedHash tx.sender tx admission).pruneOrder
  (if admission.isSome || tx.isFrame then (s.txsBySenderNonce.lookup (tx.sender, tx.nonce)).toList
    else []) ++
  if tx.isBlob then evicted versionedHash iteration cleared.transactionPool.entries.length cleared
  else []

variable {hash : H256}

theorem lookup_removeWorstFrom (fuel : Nat) : ∀ s : MempoolInner,
    (removeWorstFrom versionedHash iteration fuel s).transactionPool.lookup hash =
      if hash ∈ evicted versionedHash iteration fuel s then none
      else s.transactionPool.lookup hash := by
  induction fuel with
  | zero => exact fun s => rfl
  | succ fuel ih =>
    intro s
    rw [removeWorstFrom, evicted]
    split
    · cases s.worstBlob iteration with
      | none => rfl
      | some worst =>
        simp only [ih, (removeTransactionWithLock_eq versionedHash s worst).1, lookup_erase_eq,
          mem_cons]
        by_cases hhash : hash = worst
        · simp [hhash]
        · simp [hhash]
    · rfl

theorem lookup_makeRoom_blob (s : MempoolInner) (entering : H256) :
    (s.makeRoom versionedHash iteration true entering).transactionPool.lookup hash =
      if hash ∈ evicted versionedHash iteration s.transactionPool.entries.length s then none
      else s.transactionPool.lookup hash := by
  rw [makeRoom, if_pos rfl]
  split
  · exact lookup_removeWorstFrom versionedHash iteration _ s
  · rename_i hfits
    cases s.transactionPool.entries.length with
    | zero => rfl
    | succ fuel =>
      rw [evicted, if_neg hfits]
      rfl

theorem lookup_removeOldestFrom (queue : List H256) (hhash : hash ∉ queue) : ∀ s : MempoolInner,
    (removeOldestFrom versionedHash queue s).transactionPool.lookup hash =
      s.transactionPool.lookup hash := by
  induction queue with
  | nil => exact fun s => rfl
  | cons oldestHash queue ih =>
    intro s
    rw [mem_cons, not_or] at hhash
    rw [removeOldestFrom]
    split
    · rw [ih hhash.2,
        (removeTransactionWithLock_eq versionedHash { s with txsOrder := queue } oldestHash).1,
        lookup_erase_eq, if_neg hhash.1]
    · rfl

theorem lookup_slotCleared (s : MempoolInner) (tx : MempoolTransaction)
    (admission : Option SenderAdmission) :
    (s.slotCleared versionedHash tx.sender tx admission).pruneOrder.transactionPool.lookup hash =
      if hash ∈ (if admission.isSome || tx.isFrame then
        (s.txsBySenderNonce.lookup (tx.sender, tx.nonce)).toList else []) then none
      else s.transactionPool.lookup hash := by
  have hprune : ∀ c : MempoolInner, c.pruneOrder.transactionPool = c.transactionPool := by
    intro c
    rw [pruneOrder]
    split
    · rfl
    · rfl
  rw [hprune, slotCleared]
  split
  · rw [clearSlot]
    cases s.txsBySenderNonce.lookup (tx.sender, tx.nonce) with
    | none => rfl
    | some oldHash =>
      simp only [(removeTransactionWithLock_eq versionedHash s oldHash).1, lookup_erase_eq,
        Option.toList_some, mem_singleton]
  · rfl

/-! ### Counting the regular transactions -/

def regulars (s : MempoolInner) : Nat :=
  total (fun _ tx => if tx.isBlob then 0 else 1) s.transactionPool

def waiting (s : MempoolInner) : Nat :=
  total (fun hash _ => if (s.transactionPool.lookup hash).isSome then 0 else 1) s.blobsBundlePool

def Tied (s : MempoolInner) : Prop :=
  ∀ hash tx, s.transactionPool.lookup hash = some tx →
    ((s.blobsBundlePool.lookup hash).isSome ↔ tx.isBlob)

variable {versionedHash} {s m : MempoolInner}

theorem Tied.pruned (h : Tied s) (hm : Pruned versionedHash s m) : Tied m := by
  intro hash tx hlookup
  rw [hm.bundle_of_pooled (by simp [hlookup])]
  exact h hash tx (hm.pool hash tx hlookup)

theorem regulars_le_of_pruned (hm : Pruned versionedHash s m) : regulars m ≤ regulars s :=
  total_le_of_lookup _ hm.pool

theorem regularTxCount_eq (h : Tied s) : s.regularTxCount = regulars s - waiting s := by
  have hpool : s.transactionPool.entries.length = regulars s +
      total (fun hash _ => if (s.blobsBundlePool.lookup hash).isSome then 1 else 0)
        s.transactionPool := by
    rw [← total_one, regulars, ← total_add]
    apply total_congr
    intro hash tx hlookup
    have htied := h hash tx hlookup
    by_cases hblob : tx.isBlob
    · simp [hblob, htied]
    · simp [hblob, htied]
  have hbundles : s.blobsBundlePool.entries.length = waiting s +
      total (fun hash _ => if (s.transactionPool.lookup hash).isSome then 1 else 0)
        s.blobsBundlePool := by
    rw [← total_one, waiting, ← total_add]
    apply total_congr
    intro hash _ _
    by_cases hpooled : (s.transactionPool.lookup hash).isSome
    · simp [hpooled]
    · simp [hpooled]
  rw [regularTxCount, blobTxCount, hpool, hbundles, total_shared]
  omega

variable (txOf : H256 → MempoolTransaction)

/-- What no interleaving breaks: a hash has its transaction, the order queue has the regular ones
only, and the bundles are indexed. -/
structure Tidy (versionedHash : Commitment → H256) (s : MempoolInner) : Prop where
  pooled : ∀ hash tx, s.transactionPool.lookup hash = some tx → tx = txOf hash
  regular : ∀ hash ∈ s.txsOrder, (txOf hash).isBlob = false
  complete : ∀ hash, (s.transactionPool.lookup hash).isSome → (txOf hash).isBlob = false →
    hash ∈ s.txsOrder
  covers : Covers versionedHash s

variable {txOf}

theorem Tidy.pruned (hs : Tidy txOf versionedHash s) (hm : Pruned versionedHash s m) :
    Tidy txOf versionedHash m :=
  ⟨fun hash tx hlookup => hs.pooled hash tx (hm.pool hash tx hlookup),
    fun hash hmem => hs.regular hash (hm.queued hash hmem),
    fun hash hpooled hregular =>
      hm.stays hash (hs.complete hash (hm.isSome hpooled) hregular) hpooled,
    hm.covers hs.covers⟩

/-- Of the blob transactions only the displaced ones leave the pool. -/
theorem Tidy.lookup_roomMade (hs : Tidy txOf versionedHash s) {hash entering : H256}
    (hblob : (txOf hash).isBlob) {tx : MempoolTransaction} {admission : Option SenderAdmission} :
    (s.roomMade versionedHash iteration entering tx.sender tx admission).transactionPool.lookup hash =
      if hash ∈ s.displaced versionedHash iteration tx admission then none
      else s.transactionPool.lookup hash := by
  have hslot := @lookup_slotCleared versionedHash hash s tx admission
  rw [roomMade, displaced]
  cases tx.isBlob with
  | true =>
    rw [lookup_makeRoom_blob, hslot]
    simp only [if_true, mem_append]
    split_ifs <;> tauto
  | false =>
    rw [if_neg Bool.false_ne_true, append_nil, ← hslot]
    have hqueue : hash ∉ (s.slotCleared versionedHash tx.sender tx admission).pruneOrder.txsOrder := by
      intro hmem
      have hpruned := (pruned_slotCleared versionedHash s tx.sender tx admission).trans
        (pruned_pruneOrder versionedHash _)
      simp [(hs.pruned hpruned).regular hash hmem] at hblob
    show (oldestEvicted versionedHash _).transactionPool.lookup hash = _
    rw [oldestEvicted]
    split
    · exact lookup_removeOldestFrom versionedHash _ hqueue _
    · rfl

theorem regulars_pop (hs : Tidy txOf versionedHash s) (htied : Tied s) {queue : List H256}
    (hqueue : s.txsOrder = oldestHash :: queue) :
    let popped := ({ s with txsOrder := queue }).removeTransactionWithLock versionedHash oldestHash
    regulars s ≤ regulars popped + 1 ∧ waiting popped = waiting s := by
  obtain ⟨hpool, -, -, -, hbundles⟩ :=
    removeTransactionWithLock_eq versionedHash { s with txsOrder := queue } oldestHash
  have hregular := hs.regular oldestHash (by simp [hqueue])
  cases hlookup : s.transactionPool.lookup oldestHash with
  | none =>
    simp only [removeTransactionWithLock_of_none versionedHash { s with txsOrder := queue } oldestHash
      hlookup]
    exact ⟨Nat.le_succ _, rfl⟩
  | some tx =>
    have hblob : tx.isBlob = false := by rw [hs.pooled oldestHash tx hlookup, hregular]
    simp only [hlookup, Option.any_some, hblob, Bool.false_eq_true, if_false] at hbundles
    refine ⟨?_, ?_⟩
    · have htotal := total_erase (f := fun _ tx => if tx.isBlob then 0 else 1) hlookup
      simp only [hblob, Bool.false_eq_true, if_false] at htotal
      rw [regulars, regulars, hpool, htotal]
      exact (Nat.add_comm _ _).le
    · rw [waiting, waiting, hbundles]
      apply total_congr
      intro hash bundle hbundle
      rw [hpool, lookup_erase_eq]
      by_cases hhash : hash = oldestHash
      · subst hhash
        have hnone := (htied hash tx hlookup).not.2 (by simp [hblob])
        simp [hbundle] at hnone
      · rw [if_neg hhash]

theorem regulars_removeOldestFrom (queue : List H256) : ∀ s : MempoolInner,
    s.txsOrder = queue → Tidy txOf versionedHash s → Tied s →
    regulars (removeOldestFrom versionedHash queue s) =
      if s.maxMempoolSize = 0 then 0 else min (regulars s) (s.maxMempoolSize - 1 + waiting s) := by
  induction queue with
  | nil =>
    intro s hqueue hs _
    have hzero : regulars s = 0 := by
      have hcongr : regulars s = total (fun _ _ => 0) s.transactionPool := by
        apply total_congr
        intro hash tx hlookup
        by_cases hblob : tx.isBlob
        · simp [hblob]
        have hregular : (txOf hash).isBlob = false := by
          rw [← hs.pooled hash tx hlookup]
          simpa using hblob
        have hmem := hs.complete hash (by simp [hlookup]) hregular
        simp [hqueue] at hmem
      rw [hcongr, total]
      simp
    rw [removeOldestFrom, hzero]
    simp
  | cons oldestHash queue ih =>
    intro s hqueue hs htied
    have hcount := regularTxCount_eq htied
    rw [removeOldestFrom]
    split
    · rename_i hfull
      have hpruned := pruned_pop versionedHash hqueue
      obtain ⟨hregulars, hwaiting⟩ := regulars_pop hs htied hqueue
      have hle := regulars_le_of_pruned hpruned
      rw [ih _ (removeTransactionWithLock_eq versionedHash _ oldestHash).2.1 (hs.pruned hpruned)
        (htied.pruned hpruned), hpruned.max, hwaiting]
      split
      · rfl
      · omega
    · rename_i hroom
      rw [if_neg (by omega)]
      omega

theorem regulars_oldestEvicted (hs : Tidy txOf versionedHash s) (htied : Tied s) :
    regulars (oldestEvicted versionedHash s) =
      if s.maxMempoolSize = 0 then 0 else min (regulars s) (s.maxMempoolSize - 1 + waiting s) := by
  have hcount := regularTxCount_eq htied
  rw [oldestEvicted]
  split
  · exact regulars_removeOldestFrom s.txsOrder s rfl hs htied
  · rw [if_neg (by omega)]
    omega

end Ethrex.Mempool
