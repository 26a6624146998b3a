import Ethrex.Mempool.Pool

/-!
# The books of the pool

What the index by sender and nonce and the books of reservations say about the pooled transactions.
`txOf` gives the transaction of a hash and `given` the reservation it was last admitted with.
-/

namespace Ethrex.Mempool

open Tally

namespace MempoolInner

/-! ### What a removal changes -/

section Removal

variable (versionedHash : Commitment → H256) (s : MempoolInner) (hash : H256)

theorem removeBlobBundle_eq :
    s.removeBlobBundle versionedHash hash =
      { s with
        blobsBundlePool := s.blobsBundlePool.erase hash
        blobsBundleByVersionedHash :=
          (s.removeBlobBundle versionedHash hash).blobsBundleByVersionedHash } := by
  rw [removeBlobBundle]
  cases h : s.blobsBundlePool.lookup hash with
  | none => rw [erase_of_lookup_eq_none h]
  | some bundle => rfl

/-- The pool without a transaction, with what is left of the bundles. -/
abbrev without (s : MempoolInner) (hash : H256) (tx : MempoolTransaction)
    (bundles : Map H256 BlobsBundle) (index : Map H256 (Map H256 Nat)) : MempoolInner :=
  { s with
    transactionPool := s.transactionPool.erase hash
    blobsBundlePool := bundles
    blobsBundleByVersionedHash := index
    txsBySenderNonce := s.txsBySenderNonce.erase (tx.sender, tx.nonce)
    broadcastPool := s.broadcastPool.erase hash
    privatePool := s.privatePool.erase hash }

theorem removeTransactionWithLock_of_none (h : s.transactionPool.lookup hash = none) :
    s.removeTransactionWithLock versionedHash hash = s := by
  rw [removeTransactionWithLock, h]

variable {s hash} {tx : MempoolTransaction} (h : s.transactionPool.lookup hash = some tx)

include h

theorem removeTransactionWithLock_of_some :
    ∃ bundles index,
      (if tx.isBlob then bundles = s.blobsBundlePool.erase hash else bundles = s.blobsBundlePool) ∧
      s.removeTransactionWithLock versionedHash hash =
        let removed := s.without hash tx bundles index
        if tx.isFrame then removed.releaseFrame hash tx.sender else removed := by
  rw [removeTransactionWithLock, h]
  by_cases hblob : tx.isBlob
  · simp only [hblob, if_true]
    rw [removeBlobBundle_eq]
    exact ⟨_, _, rfl, rfl⟩
  · simp only [hblob]
    exact ⟨_, _, rfl, rfl⟩

end Removal

theorem releaseReservation_eq (s : MempoolInner) (hash : H256) :
    ∃ made, s.releaseReservation hash =
      { s with
        frameTxPaymaster := s.frameTxPaymaster.erase hash
        reservedPendingCost := (s.frameTxPaymaster.lookup hash).elim s.reservedPendingCost fun r =>
          decrement s.reservedPendingCost r.paymaster r.reservedCost.val
        noncanonicalPaymasterPending :=
          (s.frameTxPaymaster.lookup hash).elim s.noncanonicalPaymasterPending fun r =>
            if r.isCanonical then s.noncanonicalPaymasterPending
            else decrement s.noncanonicalPaymasterPending r.paymaster 1
        subtractions := made ++ s.subtractions } ∧
      ∀ sub ∈ made, ∃ r, s.frameTxPaymaster.lookup hash = some r ∧
        ((∃ reserved, s.reservedPendingCost.lookup r.paymaster = some reserved ∧
            sub = ⟨.reservedCost, reserved, r.reservedCost.val⟩) ∨
          (r.isCanonical = false ∧ ∃ count,
            s.noncanonicalPaymasterPending.lookup r.paymaster = some count ∧
            sub = ⟨.pendingCount, count, 1⟩)) := by
  rw [releaseReservation]
  cases h : s.frameTxPaymaster.lookup hash with
  | none =>
    refine ⟨[], ?_, by simp⟩
    simp [erase_of_lookup_eq_none h]
  | some r =>
    cases hcanonical : r.isCanonical with
    | true =>
      refine ⟨((s.reservedPendingCost.lookup r.paymaster).map fun reserved =>
        ⟨.reservedCost, reserved, r.reservedCost.val⟩).toList, ?_, ?_⟩
      · simp [releaseCost, hcanonical]
      intro sub hsub
      simp only [Option.mem_toList, Option.map_eq_some_iff] at hsub
      obtain ⟨reserved, hreserved, rfl⟩ := hsub
      exact ⟨r, rfl, .inl ⟨reserved, hreserved, rfl⟩⟩
    | false =>
      refine ⟨((s.noncanonicalPaymasterPending.lookup r.paymaster).map fun count =>
        ⟨.pendingCount, count, 1⟩).toList ++
        ((s.reservedPendingCost.lookup r.paymaster).map fun reserved =>
          ⟨.reservedCost, reserved, r.reservedCost.val⟩).toList, ?_, ?_⟩
      · simp [releaseCost, releaseCount, hcanonical]
      intro sub hsub
      simp only [List.mem_append, Option.mem_toList, Option.map_eq_some_iff] at hsub
      rcases hsub with ⟨count, hcount, rfl⟩ | ⟨reserved, hreserved, rfl⟩
      · exact ⟨r, rfl, .inr ⟨hcanonical, count, hcount, rfl⟩⟩
      · exact ⟨r, rfl, .inl ⟨reserved, hreserved, rfl⟩⟩

theorem releaseFrame_eq (s : MempoolInner) (hash : H256) (sender : Address) :
    ∃ pending paymasters reserved counted made, s.releaseFrame hash sender =
      { s with
        pendingFrameTxBySender := pending
        frameTxPaymaster := paymasters
        reservedPendingCost := reserved
        noncanonicalPaymasterPending := counted
        subtractions := made } := by
  rw [releaseFrame]
  split
  · obtain ⟨made, heq, -⟩ := releaseReservation_eq
      { s with pendingFrameTxBySender := s.pendingFrameTxBySender.erase sender } hash
    exact ⟨_, _, _, _, _, heq⟩
  · obtain ⟨made, heq, -⟩ := releaseReservation_eq s hash
    exact ⟨_, _, _, _, _, heq⟩

theorem removeTransactionWithLock_eq (versionedHash : Commitment → H256) (s : MempoolInner)
    (hash : H256) :
    (s.removeTransactionWithLock versionedHash hash).transactionPool =
        s.transactionPool.erase hash ∧
      (s.removeTransactionWithLock versionedHash hash).txsOrder = s.txsOrder ∧
      (s.removeTransactionWithLock versionedHash hash).maxMempoolSize = s.maxMempoolSize ∧
      (s.removeTransactionWithLock versionedHash hash).maxBlobMempoolSize = s.maxBlobMempoolSize ∧
      (s.removeTransactionWithLock versionedHash hash).blobsBundlePool =
        if (s.transactionPool.lookup hash).any MempoolTransaction.isBlob then
          s.blobsBundlePool.erase hash
        else s.blobsBundlePool := by
  cases hlookup : s.transactionPool.lookup hash with
  | none =>
    rw [removeTransactionWithLock_of_none _ _ _ hlookup, erase_of_lookup_eq_none hlookup]
    simp
  | some tx =>
    obtain ⟨bundles, index, hbundles, heq⟩ :=
      removeTransactionWithLock_of_some versionedHash hlookup
    have hpool : bundles = if tx.isBlob then s.blobsBundlePool.erase hash else s.blobsBundlePool := by
      cases hblob : tx.isBlob <;> simpa [hblob] using hbundles
    rw [heq, Option.any_some, ← hpool]
    by_cases hframe : tx.isFrame
    · simp only [hframe, if_true]
      obtain ⟨_, _, _, _, _, hrelease⟩ := releaseFrame_eq (s.without hash tx bundles index) hash tx.sender
      rw [hrelease]
      exact ⟨rfl, rfl, rfl, rfl, rfl⟩
    · simp only [hframe]
      exact ⟨rfl, rfl, rfl, rfl, rfl⟩

end MempoolInner

def reservedFor (given : H256 → Option FramePaymasterReservation) (paymaster : Address)
    (hash : H256) (tx : MempoolTransaction) : Nat :=
  if tx.isFrame then
    (given hash).elim 0 fun r => if r.paymaster = paymaster then r.reservedCost.val else 0
  else 0

/-- Whether a pooled transaction counts against a paymaster that is not canonical. -/
def countedFor (given : H256 → Option FramePaymasterReservation) (paymaster : Address)
    (hash : H256) (tx : MempoolTransaction) : Nat :=
  if tx.isFrame && (given hash).any fun r => r.paymaster = paymaster && !r.isCanonical then 1 else 0

/-- The index and the books agree with the pooled transactions. -/
structure Coherent (txOf : H256 → MempoolTransaction)
    (given : H256 → Option FramePaymasterReservation) (s : MempoolInner) : Prop where
  pooled : ∀ hash tx, s.transactionPool.lookup hash = some tx → tx = txOf hash
  indexed : ∀ sender nonce hash, s.txsBySenderNonce.lookup (sender, nonce) = some hash ↔
    (s.transactionPool.lookup hash).isSome ∧ (txOf hash).sender = sender ∧ (txOf hash).nonce = nonce
  pendingFrame : ∀ sender hash nonce,
    s.pendingFrameTxBySender.lookup sender = some (hash, nonce) ↔
      (s.transactionPool.lookup hash).isSome ∧ (txOf hash).isFrame ∧
        (txOf hash).sender = sender ∧ (txOf hash).nonce = nonce
  recorded : ∀ hash, s.frameTxPaymaster.lookup hash =
    if (s.transactionPool.lookup hash).isSome ∧ (txOf hash).isFrame then given hash else none
  reserved : ∀ paymaster, (s.reservedPendingCost.lookup paymaster).getD 0 =
    total (reservedFor given paymaster) s.transactionPool
  counted : ∀ paymaster, (s.noncanonicalPaymasterPending.lookup paymaster).getD 0 =
    total (countedFor given paymaster) s.transactionPool
  limited : ∀ paymaster, total (countedFor given paymaster) s.transactionPool ≤
    frameTxMaxPendingNoncanonicalPaymaster
  bounded : ∀ paymaster, total (reservedFor given paymaster) s.transactionPool < 2 ^ 256
  exact : ∀ sub ∈ s.subtractions, sub.book ≠ .available → sub.Exact

section Coherence

variable {txOf : H256 → MempoolTransaction} {given : H256 → Option FramePaymasterReservation}
  {s : MempoolInner}

theorem coherent_new (maxMempoolSize maxBlobMempoolSize : Nat) :
    Coherent txOf given (.new maxMempoolSize maxBlobMempoolSize) := by
  constructor <;> simp [MempoolInner.new]

namespace Coherent

variable (hs : Coherent txOf given s)

include hs

variable {hash hash' : H256}

theorem lookup_eq (h : (s.transactionPool.lookup hash).isSome) :
    s.transactionPool.lookup hash = some (txOf hash) := by
  obtain ⟨tx, htx⟩ := Option.isSome_iff_exists.1 h
  rw [htx, hs.pooled hash tx htx]

theorem reserved_split {r : FramePaymasterReservation}
    (hrecord : s.frameTxPaymaster.lookup hash = some r) :
    (s.transactionPool.lookup hash = some (txOf hash) ∧ (txOf hash).isFrame ∧ given hash = some r) ∧
      reservedFor given r.paymaster hash (txOf hash) = r.reservedCost.val ∧
      countedFor given r.paymaster hash (txOf hash) = if r.isCanonical then 0 else 1 := by
  rw [hs.recorded] at hrecord
  split at hrecord
  · rename_i hpooled
    refine ⟨⟨hs.lookup_eq hpooled.1, hpooled.2, hrecord⟩, ?_, ?_⟩
    · simp [reservedFor, hpooled.2, hrecord]
    · cases hcanonical : r.isCanonical <;> simp [countedFor, hpooled.2, hrecord, hcanonical]
  · cases hrecord

variable (h : (s.transactionPool.lookup hash).isSome) (h' : (s.transactionPool.lookup hash').isSome)

include h h'

theorem eq_of_slot (hsender : (txOf hash).sender = (txOf hash').sender)
    (hnonce : (txOf hash).nonce = (txOf hash').nonce) : hash = hash' := by
  have hslot := (hs.indexed (txOf hash).sender (txOf hash).nonce hash).2 ⟨h, rfl, rfl⟩
  have hslot' := (hs.indexed (txOf hash').sender (txOf hash').nonce hash').2 ⟨h', rfl, rfl⟩
  rw [hsender, hnonce, hslot'] at hslot
  exact (Option.some.inj hslot).symm

theorem eq_of_frame (hframe : (txOf hash).isFrame) (hframe' : (txOf hash').isFrame)
    (hsender : (txOf hash).sender = (txOf hash').sender) :
    hash = hash' := by
  have hpending := (hs.pendingFrame _ hash _).2 ⟨h, hframe, rfl, rfl⟩
  have hpending' := (hs.pendingFrame _ hash' _).2 ⟨h', hframe', rfl, rfl⟩
  rw [hsender, hpending'] at hpending
  exact ((Prod.mk.inj (Option.some.inj hpending)).1).symm

omit h h'

theorem pooled_erase (hash : H256) :
    ∀ hash' tx, (s.transactionPool.erase hash).lookup hash' = some tx → tx = txOf hash' := by
  intro hash' tx h
  exact hs.pooled hash' tx (lookup_erase_eq_some.1 h).2

theorem indexed_erase (h : (s.transactionPool.lookup hash).isSome) :
    ∀ sender nonce hash',
      (s.txsBySenderNonce.erase ((txOf hash).sender, (txOf hash).nonce)).lookup (sender, nonce) =
          some hash' ↔
        ((s.transactionPool.erase hash).lookup hash').isSome ∧
          (txOf hash').sender = sender ∧ (txOf hash').nonce = nonce := by
  intro sender nonce hash'
  rw [lookup_erase_eq_some, isSome_erase, hs.indexed]
  constructor
  · rintro ⟨hslot, hpooled, rfl, rfl⟩
    exact ⟨⟨fun heq => hslot (by rw [heq]), hpooled⟩, rfl, rfl⟩
  · rintro ⟨⟨hne, hpooled⟩, rfl, rfl⟩
    refine ⟨fun hslot => hne ?_, hpooled, rfl, rfl⟩
    exact hs.eq_of_slot hpooled h (Prod.mk.inj hslot).1 (Prod.mk.inj hslot).2

theorem remove_regular (h : (s.transactionPool.lookup hash).isSome)
    (hframe : (txOf hash).isFrame = false) (bundles : Map H256 BlobsBundle)
    (index : Map H256 (Map H256 Nat)) :
    Coherent txOf given (s.without hash (txOf hash) bundles index) where
  pooled := hs.pooled_erase hash
  indexed := hs.indexed_erase h
  pendingFrame := by
    intro sender hash' nonce
    rw [hs.pendingFrame, isSome_erase]
    by_cases hhash : hash' = hash <;> simp [hhash, hframe]
  recorded := by
    intro hash'
    rw [hs.recorded]
    simp only [isSome_erase]
    by_cases hhash : hash' = hash <;> simp [hhash, hframe]
  reserved := getD_eq_total_erase hs.reserved (hs.lookup_eq h) (by simp [reservedFor, hframe])
  counted := getD_eq_total_erase hs.counted (hs.lookup_eq h) (by simp [countedFor, hframe])
  limited := fun paymaster => (total_erase_le _ _ _).trans (hs.limited paymaster)
  bounded := fun paymaster => (total_erase_le _ _ _).trans_lt (hs.bounded paymaster)
  exact := hs.exact

theorem exact_release {made : List Subtraction}
    (hmade : ∀ sub ∈ made, ∃ r, s.frameTxPaymaster.lookup hash = some r ∧
      ((∃ reserved, s.reservedPendingCost.lookup r.paymaster = some reserved ∧
          sub = ⟨.reservedCost, reserved, r.reservedCost.val⟩) ∨
        (r.isCanonical = false ∧ ∃ count,
          s.noncanonicalPaymasterPending.lookup r.paymaster = some count ∧
          sub = ⟨.pendingCount, count, 1⟩))) :
    ∀ sub ∈ made ++ s.subtractions, sub.book ≠ .available → sub.Exact := by
  intro sub hsub hbook
  rcases List.mem_append.1 hsub with hmem | hmem
  · obtain ⟨r, hrecord, hcase⟩ := hmade sub hmem
    obtain ⟨⟨hpooled, -, -⟩, hcost, hcount⟩ := hs.reserved_split hrecord
    rcases hcase with ⟨reserved, hreserved, rfl⟩ | ⟨hcanonical, count, hlookup, rfl⟩
    · have hle := le_total (f := reservedFor given r.paymaster) hpooled
      rw [← hs.reserved, hreserved, hcost] at hle
      exact hle
    · have hle := le_total (f := countedFor given r.paymaster) hpooled
      rw [← hs.counted, hlookup, hcount, hcanonical] at hle
      exact hle
  · exact hs.exact sub hmem hbook

theorem remove_frame (h : (s.transactionPool.lookup hash).isSome) (hframe : (txOf hash).isFrame)
    (bundles : Map H256 BlobsBundle) (index : Map H256 (Map H256 Nat)) :
    Coherent txOf given
      ((s.without hash (txOf hash) bundles index).releaseFrame hash (txOf hash).sender) := by
  have hpending : s.pendingFrameTxBySender.lookup (txOf hash).sender =
      some (hash, (txOf hash).nonce) := (hs.pendingFrame _ _ _).2 ⟨h, hframe, rfl, rfl⟩
  have hrecord : s.frameTxPaymaster.lookup hash = given hash := by
    rw [hs.recorded, if_pos ⟨h, hframe⟩]
  simp only [MempoolInner.releaseFrame, hpending, Option.any_some, decide_true, if_true]
  obtain ⟨made, heq, hmade⟩ := MempoolInner.releaseReservation_eq
    { s.without hash (txOf hash) bundles index with
      pendingFrameTxBySender := s.pendingFrameTxBySender.erase (txOf hash).sender } hash
  rw [heq]
  exact {
    pooled := hs.pooled_erase hash
    indexed := hs.indexed_erase h
    pendingFrame := by
      intro sender hash' nonce
      simp only [lookup_erase_eq_some, isSome_erase, hs.pendingFrame]
      constructor
      · rintro ⟨hne, hpooled, hframe', rfl, rfl⟩
        exact ⟨⟨fun heq => hne (by rw [heq]), hpooled⟩, hframe', rfl, rfl⟩
      · rintro ⟨⟨hne, hpooled⟩, hframe', rfl, rfl⟩
        exact ⟨fun hsender => hne (hs.eq_of_frame hpooled h hframe' hframe hsender), hpooled, hframe',
          rfl, rfl⟩
    recorded := by
      intro hash'
      simp only [lookup_erase_eq, hs.recorded]
      by_cases hhash : hash' = hash <;> simp [hhash]
    reserved := by
      cases hgiven : given hash with
      | none =>
        simp only [hrecord, hgiven, Option.elim_none]
        exact getD_eq_total_erase hs.reserved (hs.lookup_eq h) (by simp [reservedFor, hgiven])
      | some r =>
        simp only [hrecord, hgiven, Option.elim_some]
        exact getD_decrement_eq_total_erase hs.reserved (hs.lookup_eq h)
          (by simp [reservedFor, hframe, hgiven, eq_comm])
    counted := by
      cases hgiven : given hash with
      | none =>
        simp only [hrecord, hgiven, Option.elim_none]
        exact getD_eq_total_erase hs.counted (hs.lookup_eq h) (by simp [countedFor, hgiven])
      | some r =>
        simp only [hrecord, hgiven, Option.elim_some]
        cases hcanonical : r.isCanonical with
        | true =>
          exact getD_eq_total_erase hs.counted (hs.lookup_eq h)
            (by simp [countedFor, hgiven, hcanonical])
        | false =>
          exact getD_decrement_eq_total_erase hs.counted (hs.lookup_eq h)
            (by simp [countedFor, hframe, hgiven, hcanonical, eq_comm])
    limited := fun paymaster => (total_erase_le _ _ _).trans (hs.limited paymaster)
    bounded := fun paymaster => (total_erase_le _ _ _).trans_lt (hs.bounded paymaster)
    exact := hs.exact_release hmade }

theorem remove (versionedHash : Commitment → H256) (hash : H256) :
    Coherent txOf given (s.removeTransactionWithLock versionedHash hash) := by
  cases hlookup : s.transactionPool.lookup hash with
  | none =>
    rw [MempoolInner.removeTransactionWithLock_of_none _ _ _ hlookup]
    exact hs
  | some tx =>
    have h : (s.transactionPool.lookup hash).isSome := by simp [hlookup]
    obtain rfl := hs.pooled hash tx hlookup
    obtain ⟨bundles, index, -, heq⟩ :=
      MempoolInner.removeTransactionWithLock_of_some versionedHash hlookup
    rw [heq]
    cases hframe : (txOf hash).isFrame with
    | false => exact hs.remove_regular h hframe bundles index
    | true => exact hs.remove_frame h hframe bundles index

end Coherent

end Coherence

end Ethrex.Mempool
