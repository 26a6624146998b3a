import Ethrex.Mempool.Books

/-!
# Concurrent admissions

A blob transaction enters the pool in steps, each under a lock of its own
(`add_blob_transaction_to_pool_inner`). Any number of admissions are in flight at once, among
regular admissions and removals.
-/

namespace Ethrex.Mempool

open Tally

/-- A blob transaction on its way into the pool, with what its validation returned. -/
structure BlobAdmission where
  hash : H256
  bundle : BlobsBundle
  admission : Option SenderAdmission
  broadcast : Bool

inductive Phase where
  /-- The membership check is done. -/
  | checked
  /-- The bundle is in the pool. -/
  | bundled
  /-- The transaction was refused; the bundle is to be removed. -/
  | refused
  deriving DecidableEq, Repr

/-- The pool and the admissions in flight, by number. -/
structure PoolState where
  inner : MempoolInner
  inFlight : Map Nat (BlobAdmission × Phase)

/-- A step of some admission, or a removal. -/
inductive PoolEvent where
  | check (id : Nat) (admission : BlobAdmission)
  /-- The size cap, the bundle or the transaction does not pass validation. -/
  | abandon (id : Nat)
  | addBundle (id : Nat)
  | addTransaction (id : Nat)
  | rollBack (id : Nat)
  | addRegular (hash : H256) (reservation : Option FramePaymasterReservation)
    (admission : Option SenderAdmission) (broadcast : Bool)
  | remove (hash : H256)

variable (txOf : H256 → MempoolTransaction) (versionedHash : Commitment → H256)
  (iteration : IterationOrder)

/-- One event.  An event of an admission that does not stand where it should has no effect. -/
def PoolState.step (s : PoolState) : PoolEvent → PoolState
  | .check id admission =>
    if (s.inFlight.lookup id).isSome ∨ (s.inner.transactionPool.lookup admission.hash).isSome then s
    else { s with inFlight := s.inFlight.insert id (admission, .checked) }
  | .abandon id =>
    match s.inFlight.lookup id with
    | some (_, .checked) => { s with inFlight := s.inFlight.erase id }
    | _ => s
  | .addBundle id =>
    match s.inFlight.lookup id with
    | some (a, .checked) =>
      { inner := s.inner.addBlobsBundle versionedHash a.hash a.bundle
        inFlight := s.inFlight.insert id (a, .bundled) }
    | _ => s
  | .addTransaction id =>
    match s.inFlight.lookup id with
    | some (a, .bundled) =>
      let (result, inner) := s.inner.addTransactionInner versionedHash iteration a.hash
        (txOf a.hash).sender (txOf a.hash) none a.admission a.broadcast
      { inner
        inFlight :=
          if result.isOk then s.inFlight.erase id else s.inFlight.insert id (a, .refused) }
    | _ => s
  | .rollBack id =>
    match s.inFlight.lookup id with
    | some (a, .refused) =>
      { inner := s.inner.removeBlobBundle versionedHash a.hash
        inFlight := s.inFlight.erase id }
    | _ => s
  | .addRegular hash reservation admission broadcast =>
    { s with inner := (s.inner.addTransactionInner versionedHash iteration hash (txOf hash).sender
        (txOf hash) reservation admission broadcast).2 }
  | .remove hash => { s with inner := s.inner.removeTransactionWithLock versionedHash hash }

def PoolState.run (s : PoolState) (events : List PoolEvent) : PoolState :=
  events.foldl (fun s event => s.step txOf versionedHash iteration event) s

/-- A blob admission is of a blob transaction, and a regular one is of another. -/
def PoolEvent.WellTyped : PoolEvent → Prop
  | .check _ admission => (txOf admission.hash).isBlob
  | .addRegular hash _ _ _ => (txOf hash).isBlob = false
  | _ => True

instance : DecidablePred (PoolEvent.WellTyped txOf) := fun event => by
  unfold PoolEvent.WellTyped
  split <;> infer_instance

def PoolState.new (maxMempoolSize maxBlobMempoolSize : Nat) : PoolState :=
  ⟨.new maxMempoolSize maxBlobMempoolSize, ∅⟩

/-! ### What an insertion comes to -/

namespace MempoolInner

def passesGates (s : MempoolInner) (hash : H256) (sender : Address) (tx : MempoolTransaction)
    (reservation : Option FramePaymasterReservation) (admission : Option SenderAdmission) : Bool :=
  (admission.elim (.ok ()) fun a => s.checkAdmission sender tx.nonce a).isOk &&
    (!tx.isFrame || (s.checkFrame sender tx.nonce hash reservation).1.isOk)

def slotCleared (s : MempoolInner) (sender : Address) (tx : MempoolTransaction)
    (admission : Option SenderAdmission) : MempoolInner :=
  if admission.isSome || tx.isFrame then s.clearSlot versionedHash sender tx.nonce else s

def roomMade (s : MempoolInner) (hash : H256) (sender : Address) (tx : MempoolTransaction)
    (admission : Option SenderAdmission) : MempoolInner :=
  (s.slotCleared versionedHash sender tx admission).pruneOrder.makeRoom versionedHash iteration
    tx.isBlob hash

variable {s : MempoolInner} {hash : H256} {sender : Address} {tx : MempoolTransaction}
  {reservation : Option FramePaymasterReservation} {admission : Option SenderAdmission}
  {broadcast : Bool}
variable (broadcast) in
theorem addTransactionInner_of_refused
    (h : s.passesGates hash sender tx reservation admission = false) :
    ∃ e made, s.addTransactionInner versionedHash iteration hash sender tx reservation admission
      broadcast = (.error e, s.logged made) := by
  rw [addTransactionInner]
  cases hadmission : admission.elim (.ok ()) fun a => s.checkAdmission sender tx.nonce a with
  | error e => exact ⟨e, [], rfl⟩
  | ok _ =>
    cases hframe : tx.isFrame with
    | false => simp [passesGates, hadmission, hframe, Except.isOk, Except.toBool] at h
    | true =>
      cases hcheck : (s.checkFrame sender tx.nonce hash reservation).1 with
      | error e =>
        refine ⟨e, (s.checkFrame sender tx.nonce hash reservation).2, ?_⟩
        simp [hcheck]
      | ok _ => simp [passesGates, hadmission, hcheck, Except.isOk, Except.toBool] at h

theorem enterFrame_eq (s : MempoolInner) (hash : H256) (sender : Address) (nonce : U64)
    (reservation : Option FramePaymasterReservation) :
    ∃ pending paymasters reserved counted,
      (s.enterFrame hash sender nonce reservation).2 =
        { s with
          pendingFrameTxBySender := pending
          frameTxPaymaster := paymasters
          reservedPendingCost := reserved
          noncanonicalPaymasterPending := counted } := by
  cases reservation with
  | none => exact ⟨_, _, _, _, rfl⟩
  | some r =>
    simp only [enterFrame, reserve]
    split
    · exact ⟨_, _, _, _, rfl⟩
    · exact ⟨_, _, _, _, rfl⟩

/-- What an accepted transaction changes, outside the books of frames and the index by nonce. -/
structure Inserted (m : MempoolInner) (hash : H256) (tx : MempoolTransaction) (s : MempoolInner) :
    Prop where
  pool : s.transactionPool = m.transactionPool.insert hash tx
  bundles : s.blobsBundlePool = m.blobsBundlePool
  versioned : s.blobsBundleByVersionedHash = m.blobsBundleByVersionedHash
  order : s.txsOrder = m.txsOrder
  max : s.maxMempoolSize = m.maxMempoolSize

variable (hash sender tx reservation broadcast) in
theorem inserted_insertTransaction (s : MempoolInner) :
    Inserted (s.pruneOrder.makeRoom versionedHash iteration tx.isBlob hash) hash tx
        (s.insertTransaction versionedHash iteration hash sender tx reservation broadcast).2 ∧
      (tx.isFrame = false →
        (s.insertTransaction versionedHash iteration hash sender tx reservation broadcast).1 =
          .ok ()) := by
  rw [insertTransaction]
  cases hframe : tx.isFrame with
  | false => exact ⟨⟨rfl, rfl, rfl, rfl, rfl⟩, fun _ => rfl⟩
  | true =>
    refine ⟨?_, fun h => by cases h⟩
    simp only [if_true]
    obtain ⟨_, _, _, _, heq⟩ := enterFrame_eq
      ((s.pruneOrder.makeRoom versionedHash iteration tx.isBlob hash).enter hash sender tx broadcast)
      hash sender tx.nonce reservation
    rw [heq]
    exact ⟨rfl, rfl, rfl, rfl, rfl⟩

variable (broadcast) in
theorem inserted_of_passes (h : s.passesGates hash sender tx reservation admission) :
    Inserted (s.roomMade versionedHash iteration hash sender tx admission) hash tx
        (s.addTransactionInner versionedHash iteration hash sender tx reservation admission
          broadcast).2 ∧
      (tx.isFrame = false →
        (s.addTransactionInner versionedHash iteration hash sender tx reservation admission
          broadcast).1 = .ok ()) := by
  rw [addTransactionInner, roomMade, slotCleared]
  cases hadmission : admission.elim (.ok ()) fun a => s.checkAdmission sender tx.nonce a with
  | error e => simp [passesGates, hadmission, Except.isOk, Except.toBool] at h
  | ok _ =>
    cases hframe : tx.isFrame with
    | false =>
      simp only [Bool.not_false, Bool.and_true, Bool.or_false, Bool.false_eq_true, if_false]
      have hinsert := inserted_insertTransaction versionedHash iteration hash sender tx reservation
        broadcast (if admission.isSome then s.clearSlot versionedHash sender tx.nonce else s)
      exact ⟨hinsert.1, fun _ => hinsert.2 hframe⟩
    | true =>
      cases hcheck : (s.checkFrame sender tx.nonce hash reservation).1 with
      | error e =>
        simp [passesGates, hadmission, hframe, hcheck, Except.isOk, Except.toBool] at h
      | ok _ =>
        refine ⟨?_, fun h => by cases h⟩
        simp only [Bool.not_true, Bool.and_false, Bool.false_eq_true, if_false, if_true, hcheck,
          Bool.or_true]
        have hinsert := (inserted_insertTransaction versionedHash iteration hash sender tx reservation
          broadcast (s.clearSlot versionedHash sender tx.nonce)).1
        exact ⟨hinsert.pool, hinsert.bundles, hinsert.versioned, hinsert.order, hinsert.max⟩

end MempoolInner

end Ethrex.Mempool
