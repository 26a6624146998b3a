import Ethrex.Types
import Ethrex.Tally.Total

/-!
# The transaction pool

`MempoolInner` and the operations under its lock. Hash maps are association lists, and the order in
which one is iterated is a parameter. Sums of costs are naturals. The sets that only steer gossip
and sampling are left out. A ghost field logs the saturating subtractions of the reservation books.
-/

namespace Ethrex.Mempool

open Tally

inductive TxType where
  | legacy
  | eip2930
  | eip1559
  | eip4844
  | eip7702
  | frame
  | feeToken
  | privileged
  deriving DecidableEq, Repr

/-- `MempoolTransaction`: what the pool reads of it. -/
structure MempoolTransaction where
  txType : TxType
  sender : Address
  nonce : U64
  costWithoutBaseFee : Option U256
  maxFeePerBlobGas : Option U256
  deriving DecidableEq, Repr

def MempoolTransaction.isBlob (tx : MempoolTransaction) : Bool := tx.txType = .eip4844

def MempoolTransaction.isFrame (tx : MempoolTransaction) : Bool := tx.txType = .frame

structure FramePaymasterReservation where
  paymaster : Address
  reservedCost : U256
  isCanonical : Bool
  paymasterBalance : U256
  deriving DecidableEq, Repr

structure BalanceCheck where
  txCost : U256
  senderBalance : U256
  deriving DecidableEq, Repr

structure SenderAdmission where
  accountNonce : U64
  queuedMax : Nat
  gapThreshold : Nat
  balanceCheck : Option BalanceCheck
  deriving DecidableEq, Repr

abbrev Commitment := FixedBytes 48

structure BlobsBundle where
  commitments : List Commitment
  deriving DecidableEq

/-- `MempoolError`, as far as the pool itself returns it. -/
inductive MempoolError where
  | maxQueuedTxsPerAccountExceeded (sender : Address) (count limit : Nat)
  | gapAdmissionDeniedUnderPressure (occupancyPct nonceGap : Nat)
  | insufficientCumulativeBalance (required available : Nat)
  | invalidTxGasvalues
  /-- The index names a hash that the pool does not hold. -/
  | indexInconsistency (hash : H256)
  | frameTxSenderAlreadyPending
  | frameTxNonCanonicalPaymasterLimit
  | frameTxPaymasterUnderfunded
  /-- An addition of 256-bit numbers overflows. -/
  | panic
  deriving DecidableEq

/-- The books that a subtraction belongs to. -/
inductive Book where
  | reservedCost
  | pendingCount
  /-- The difference of a paymaster's balance and what is reserved on it. -/
  | available
  deriving DecidableEq, Repr

/-- The operands of a saturating subtraction. -/
structure Subtraction where
  book : Book
  minuend : Nat
  subtrahend : Nat
  deriving DecidableEq, Repr

def Subtraction.Exact (subtraction : Subtraction) : Prop :=
  subtraction.subtrahend ≤ subtraction.minuend

instance (subtraction : Subtraction) : Decidable subtraction.Exact :=
  inferInstanceAs (Decidable (_ ≤ _))

structure MempoolInner where
  broadcastPool : Finset H256
  privatePool : Finset H256
  transactionPool : Map H256 MempoolTransaction
  blobsBundlePool : Map H256 BlobsBundle
  blobsBundleByVersionedHash : Map H256 (Map H256 Nat)
  txsBySenderNonce : Map (Address × U64) H256
  txsOrder : List H256
  maxMempoolSize : Nat
  maxBlobMempoolSize : Nat
  mempoolPruneThreshold : Nat
  pendingFrameTxBySender : Map Address (H256 × U64)
  reservedPendingCost : Map Address Nat
  noncanonicalPaymasterPending : Map Address Nat
  frameTxPaymaster : Map H256 FramePaymasterReservation
  /-- The saturating subtractions of the books so far. -/
  subtractions : List Subtraction

def frameTxMaxPendingNoncanonicalPaymaster : Nat := 1

/-- The order in which a hash map is iterated: any order of its keys. -/
structure IterationOrder where
  order : List H256 → List H256
  perm : ∀ keys, (order keys).Perm keys

def IterationOrder.asListed : IterationOrder := ⟨id, fun _ => .refl _⟩

namespace MempoolInner

/-- `MempoolInner::new`, with the blob cap that `with_max_blob_mempool_size` sets. -/
def new (maxMempoolSize maxBlobMempoolSize : Nat) : MempoolInner where
  broadcastPool := ∅
  privatePool := ∅
  transactionPool := ∅
  blobsBundlePool := ∅
  blobsBundleByVersionedHash := ∅
  txsBySenderNonce := ∅
  txsOrder := []
  maxMempoolSize := maxMempoolSize
  maxBlobMempoolSize := maxBlobMempoolSize
  mempoolPruneThreshold := maxMempoolSize + maxMempoolSize / 2
  pendingFrameTxBySender := ∅
  reservedPendingCost := ∅
  noncanonicalPaymasterPending := ∅
  frameTxPaymaster := ∅
  subtractions := []

variable (s : MempoolInner)

def logged (made : List Subtraction) : MempoolInner :=
  { s with subtractions := made ++ s.subtractions }

section Bundles

variable (versionedHash : Commitment → H256)

/-- An entry of the index by versioned hash goes, and the inner map with its last entry. -/
def unindex (index : Map H256 (Map H256 Nat)) (hash versioned : H256) : Map H256 (Map H256 Nat) :=
  match index.lookup versioned with
  | none => index
  | some txnToBundle =>
    if (txnToBundle.erase hash).entries = [] then index.erase versioned
    else index.insert versioned (txnToBundle.erase hash)

def removeBlobBundle (s : MempoolInner) (hash : H256) : MempoolInner :=
  match s.blobsBundlePool.lookup hash with
  | none => s
  | some bundle =>
    { s with
      blobsBundlePool := s.blobsBundlePool.erase hash
      blobsBundleByVersionedHash := bundle.commitments.foldl
        (fun index commitment => unindex index hash (versionedHash commitment))
        s.blobsBundleByVersionedHash }

def addBlobsBundle (s : MempoolInner) (txHash : H256) (blobsBundle : BlobsBundle) : MempoolInner :=
  { s with
    blobsBundleByVersionedHash := blobsBundle.commitments.zipIdx.foldl
      (fun index entry =>
        let versioned := versionedHash entry.1
        index.insert versioned (((index.lookup versioned).getD ∅).insert txHash entry.2))
      s.blobsBundleByVersionedHash
    blobsBundlePool := s.blobsBundlePool.insert txHash blobsBundle }

end Bundles

/-- The reserved cost of a transaction is given back; a paymaster without reservation is dropped. -/
def releaseCost (reservation : FramePaymasterReservation) : MempoolInner :=
  { s with
    reservedPendingCost :=
      decrement s.reservedPendingCost reservation.paymaster reservation.reservedCost.val
    subtractions :=
      ((s.reservedPendingCost.lookup reservation.paymaster).map fun reserved =>
        ⟨.reservedCost, reserved, reservation.reservedCost.val⟩).toList ++ s.subtractions }

/-- One pending transaction less for a paymaster that is not canonical. -/
def releaseCount (paymaster : Address) : MempoolInner :=
  { s with
    noncanonicalPaymasterPending := decrement s.noncanonicalPaymasterPending paymaster 1
    subtractions :=
      ((s.noncanonicalPaymasterPending.lookup paymaster).map fun count =>
        ⟨.pendingCount, count, 1⟩).toList ++ s.subtractions }

variable (hash : H256)

/-- The reservation of a frame transaction leaves the books. -/
def releaseReservation : MempoolInner :=
  match s.frameTxPaymaster.lookup hash with
  | none => s
  | some reservation =>
    let s := { s with frameTxPaymaster := s.frameTxPaymaster.erase hash }
    let s := s.releaseCost reservation
    if reservation.isCanonical then s else s.releaseCount reservation.paymaster

def releaseFrame (sender : Address) : MempoolInner :=
  let isPending := (s.pendingFrameTxBySender.lookup sender).any fun pending => pending.1 = hash
  let s :=
    if isPending then { s with pendingFrameTxBySender := s.pendingFrameTxBySender.erase sender }
    else s
  s.releaseReservation hash

variable (versionedHash : Commitment → H256)

def removeTransactionWithLock (s : MempoolInner) (hash : H256) : MempoolInner :=
  match s.transactionPool.lookup hash with
  | none => s
  | some tx =>
    let s := { s with transactionPool := s.transactionPool.erase hash }
    let s := if tx.isBlob then s.removeBlobBundle versionedHash hash else s
    let s := { s with
      txsBySenderNonce := s.txsBySenderNonce.erase (tx.sender, tx.nonce)
      broadcastPool := s.broadcastPool.erase hash
      privatePool := s.privatePool.erase hash }
    if tx.isFrame then s.releaseFrame hash tx.sender else s

def blobTxCount : Nat := s.blobsBundlePool.entries.length

variable (sender : Address)

/-- `txs_by_sender_nonce.range((sender, nonce)..=(sender, u64::MAX))`, in ascending order. -/
def senderRange (nonce : U64) : List (U64 × H256) :=
  ((s.txsBySenderNonce.entries.filter fun e => e.1.1 = sender ∧ nonce ≤ e.1.2).map fun e =>
    (e.1.2, e.2)).insertionSort fun a b => a.1 ≤ b.1

def nextExecutableFrom (expected : U64) : List (U64 × H256) → U64
  | [] => expected
  | (nonce, _) :: range =>
    if nonce ≠ expected then expected else nextExecutableFrom (expected + 1) range

variable (accountNonce : U64)

def nextExecutableNonce : U64 :=
  nextExecutableFrom accountNonce (s.senderRange sender accountNonce)

def isFuture (accountNonce txNonce : U64) : Bool :=
  txNonce > s.nextExecutableNonce sender accountNonce

def queuedCountForSender : Nat :=
  (s.senderRange sender (s.nextExecutableNonce sender accountNonce)).length

def occupancyPctInner : Nat :=
  if s.maxMempoolSize = 0 then 0
  else min (s.transactionPool.entries.length * 100 / s.maxMempoolSize) 100

/-- The loop of `sum_cost_for_sender_inner`. -/
def sumCostFrom (s : MempoolInner) (exclude : Option H256) :
    Nat → List (U64 × H256) → Except MempoolError Nat
  | total, [] => .ok total
  | total, (_, hash) :: range =>
    if some hash = exclude then s.sumCostFrom exclude total range
    else
      match s.transactionPool.lookup hash with
      | none => .error (.indexInconsistency hash)
      | some tx =>
        match tx.costWithoutBaseFee with
        | none => .error .invalidTxGasvalues
        | some cost =>
          if total + cost.val < 2 ^ 256 then s.sumCostFrom exclude (total + cost.val) range
          else .error .invalidTxGasvalues

def sumCostForSenderInner
    (exclude : Option H256) : Except MempoolError Nat :=
  s.sumCostFrom exclude 0 (s.senderRange sender accountNonce)

/-- The gates of a transaction that replaces none: the queue cap, and gaps under pressure. -/
def checkFresh (txNonce : U64)
    (admission : SenderAdmission) : Except MempoolError Unit :=
  let queued := s.queuedCountForSender sender admission.accountNonce
  if s.isFuture sender admission.accountNonce txNonce ∧ queued ≥ admission.queuedMax then
    .error (.maxQueuedTxsPerAccountExceeded sender queued admission.queuedMax)
  else if txNonce > admission.accountNonce ∧ admission.gapThreshold < 100 ∧
      s.occupancyPctInner ≥ admission.gapThreshold then
    .error (.gapAdmissionDeniedUnderPressure s.occupancyPctInner
      (txNonce.val - admission.accountNonce.val))
  else .ok ()

/-- The gate on the balance: the transactions of the sender must be covered together. -/
def checkBalance
    (replaced : Option H256) (check : BalanceCheck) : Except MempoolError Unit :=
  match s.sumCostForSenderInner sender accountNonce replaced with
  | .error e => .error e
  | .ok existing =>
    let total := existing + check.txCost.val
    if 2 ^ 256 ≤ total then .error .invalidTxGasvalues
    else if total > check.senderBalance.val then
      .error (.insufficientCumulativeBalance total check.senderBalance.val)
    else .ok ()

def checkAdmission (txNonce : U64)
    (admission : SenderAdmission) : Except MempoolError Unit :=
  let replaced := s.txsBySenderNonce.lookup (sender, txNonce)
  match if replaced = none then s.checkFresh sender txNonce admission else .ok () with
  | .error e => .error e
  | .ok () =>
    match admission.balanceCheck with
    | none => .ok ()
    | some check => s.checkBalance sender admission.accountNonce replaced check

/-! ### The gates of frame transactions -/

def checkFrameTxSenderPending (nonce : U64)
    (incomingHash : H256) : Except MempoolError (Option H256) :=
  match s.pendingFrameTxBySender.lookup sender with
  | none => .ok none
  | some (existingHash, existingNonce) =>
    if existingHash = incomingHash then .ok none
    else if existingNonce = nonce then .ok (some existingHash)
    else .error .frameTxSenderAlreadyPending

variable (existingFrameHash : Option H256)

/-- The reservation that a replacement gives back to the same paymaster. -/
def oldReservation
    (reservation : FramePaymasterReservation) : Option FramePaymasterReservation :=
  (existingFrameHash.bind fun oldHash => s.frameTxPaymaster.lookup oldHash).filter fun old =>
    old.paymaster = reservation.paymaster

/-- A replacement gives back a pending slot of a paymaster that is not canonical. -/
def givesBack
    (reservation : FramePaymasterReservation) : Bool :=
  !reservation.isCanonical &&
    (s.oldReservation existingFrameHash reservation).any fun old => !old.isCanonical

/-- The pending transactions of the paymaster, without the one that is replaced. -/
def pendingAfter
    (reservation : FramePaymasterReservation) : Nat :=
  let pending := (s.noncanonicalPaymasterPending.lookup reservation.paymaster).getD 0
  if s.givesBack existingFrameHash reservation then pending - 1 else pending

/-- What is reserved on the paymaster, without the transaction that is replaced. -/
def reservedAfter
    (reservation : FramePaymasterReservation) : Nat :=
  (s.reservedPendingCost.lookup reservation.paymaster).getD 0 -
    ((s.oldReservation existingFrameHash reservation).map fun old => old.reservedCost.val).getD 0

/-- The subtraction behind `pendingAfter`. -/
def countSubtraction
    (reservation : FramePaymasterReservation) : List Subtraction :=
  if s.givesBack existingFrameHash reservation then
    [⟨.pendingCount, (s.noncanonicalPaymasterPending.lookup reservation.paymaster).getD 0, 1⟩]
  else []

/-- The subtraction behind `reservedAfter`. -/
def costSubtraction
    (reservation : FramePaymasterReservation) : List Subtraction :=
  ((s.oldReservation existingFrameHash reservation).map fun old =>
    ⟨.reservedCost, (s.reservedPendingCost.lookup reservation.paymaster).getD 0,
      old.reservedCost.val⟩).toList

/-- The re-check of the paymaster under the lock, with the subtractions that it makes. -/
def checkPaymaster
    (reservation : FramePaymasterReservation) : Except MempoolError Unit × List Subtraction :=
  let counted := s.countSubtraction existingFrameHash reservation
  if reservation.isCanonical = false ∧ s.pendingAfter existingFrameHash reservation ≥
      frameTxMaxPendingNoncanonicalPaymaster then
    (.error .frameTxNonCanonicalPaymasterLimit, counted)
  else
    let reserved := s.reservedAfter existingFrameHash reservation
    let made := ⟨.available, reservation.paymasterBalance.val, reserved⟩ ::
      s.costSubtraction existingFrameHash reservation ++ counted
    if reservation.paymasterBalance.val - reserved < reservation.reservedCost.val then
      (.error .frameTxPaymasterUnderfunded, made)
    else (.ok (), made)

def checkFrame (nonce : U64) (hash : H256)
    (frameReservation : Option FramePaymasterReservation) :
    Except MempoolError Unit × List Subtraction :=
  match s.checkFrameTxSenderPending sender nonce hash with
  | .error e => (.error e, [])
  | .ok existingFrameHash =>
    match frameReservation with
    | none => (.ok (), [])
    | some reservation => s.checkPaymaster existingFrameHash reservation

def regularTxCount : Nat := s.transactionPool.entries.length - s.blobTxCount

/-- The loop of `remove_oldest_regular_transaction`, over the queue. -/
def removeOldestFrom : List H256 → MempoolInner → MempoolInner
  | [], s => s
  | oldestHash :: queue, s =>
    if s.regularTxCount ≥ s.maxMempoolSize then
      removeOldestFrom queue
        (({ s with txsOrder := queue }).removeTransactionWithLock versionedHash oldestHash)
    else s

def removeOldestRegularTransaction (s : MempoolInner) : MempoolInner :=
  removeOldestFrom versionedHash s.txsOrder s

variable (iteration : IterationOrder)

/-- The pooled transactions behind the keys of the bundle pool, in iteration order. -/
def blobCandidates (s : MempoolInner) :
    List (H256 × MempoolTransaction) :=
  (iteration.order s.blobsBundlePool.keys).filterMap fun hash =>
    (s.transactionPool.lookup hash).map fun tx => (hash, tx)

/-- `min_nonce_by_sender`, built over the candidates. -/
def minNonceBySender (candidates : List (H256 × MempoolTransaction)) : Map Address U64 :=
  candidates.foldl
    (fun lowest e => lowest.insert e.2.sender
      (((lowest.lookup e.2.sender).map fun n => min n e.2.nonce).getD e.2.nonce))
    ∅

/-- The rank of a blob fee: no fee is below every fee. -/
def feeRank : Option U256 → Nat
  | none => 0
  | some fee => fee.val + 1

/-- `max_by_key` with the key `(offset, Reverse(fee))`: the last of the greatest. -/
def worstOf (key : H256 × MempoolTransaction → Nat × Nat) :
    List (H256 × MempoolTransaction) → Option (H256 × MempoolTransaction)
  | [] => none
  | first :: rest => some (rest.foldl
      (fun best e =>
        if (key best).1 < (key e).1 ∨ (key best).1 = (key e).1 ∧ (key e).2 ≤ (key best).2 then e
        else best)
      first)

def worstBlob (s : MempoolInner) : Option H256 :=
  let candidates := s.blobCandidates iteration
  let lowest := minNonceBySender candidates
  (worstOf (fun e =>
    (e.2.nonce.val - ((lowest.lookup e.2.sender).getD 0).val, feeRank e.2.maxFeePerBlobGas))
    candidates).map Prod.fst

/-- The loop of `remove_worst_blob_transaction`. Every turn drops a pooled transaction, so their
number bounds the turns. -/
def removeWorstFrom (iteration : IterationOrder) : Nat → MempoolInner → MempoolInner
  | 0, s => s
  | fuel + 1, s =>
    if s.blobTxCount > s.maxBlobMempoolSize then
      match s.worstBlob iteration with
      | none => s
      | some hash => removeWorstFrom iteration fuel (s.removeTransactionWithLock versionedHash hash)
    else s

def removeWorstBlobTransaction (s : MempoolInner) : MempoolInner :=
  removeWorstFrom versionedHash iteration s.transactionPool.entries.length s

def clearSlot (s : MempoolInner) (sender : Address) (nonce : U64) : MempoolInner :=
  match s.txsBySenderNonce.lookup (sender, nonce) with
  | none => s
  | some oldHash => s.removeTransactionWithLock versionedHash oldHash

def pruneOrder : MempoolInner :=
  if s.txsOrder.length > s.mempoolPruneThreshold then
    { s with txsOrder := s.txsOrder.filter fun hash => (s.transactionPool.lookup hash).isSome }
  else s

def makeRoom (s : MempoolInner) (isBlob : Bool) (hash : H256) :
    MempoolInner :=
  if isBlob then
    if s.blobTxCount > s.maxBlobMempoolSize then s.removeWorstBlobTransaction versionedHash iteration
    else s
  else
    let s :=
      if s.regularTxCount ≥ s.maxMempoolSize then s.removeOldestRegularTransaction versionedHash
      else s
    { s with txsOrder := s.txsOrder ++ [hash] }

def enter (sender : Address) (tx : MempoolTransaction)
    (broadcast : Bool) : MempoolInner :=
  { s with
    txsBySenderNonce := s.txsBySenderNonce.insert (sender, tx.nonce) hash
    transactionPool := s.transactionPool.insert hash tx
    broadcastPool := if broadcast then insert hash s.broadcastPool else s.broadcastPool
    privatePool := if broadcast then s.privatePool else insert hash s.privatePool }

def reserve (reservation : FramePaymasterReservation) :
    Except MempoolError Unit × MempoolInner :=
  let paymaster := reservation.paymaster
  let reserved := (s.reservedPendingCost.lookup paymaster).getD 0 + reservation.reservedCost.val
  if 2 ^ 256 ≤ reserved then (.error .panic, s)
  else
    let pending := (s.noncanonicalPaymasterPending.lookup paymaster).getD 0
    (.ok (), { s with
      reservedPendingCost := s.reservedPendingCost.insert paymaster reserved
      noncanonicalPaymasterPending :=
        if reservation.isCanonical then s.noncanonicalPaymasterPending
        else s.noncanonicalPaymasterPending.insert paymaster (min (pending + 1) 255)
      frameTxPaymaster := s.frameTxPaymaster.insert hash reservation })

def enterFrame (sender : Address) (nonce : U64)
    (frameReservation : Option FramePaymasterReservation) : Except MempoolError Unit × MempoolInner :=
  let s := { s with
    pendingFrameTxBySender := s.pendingFrameTxBySender.insert sender (hash, nonce) }
  match frameReservation with
  | none => (.ok (), s)
  | some reservation => s.reserve hash reservation

/-- The end of `add_transaction_inner`, from the pruning on: nothing is refused any more. -/
def insertTransaction (s : MempoolInner) (hash : H256)
    (sender : Address) (tx : MempoolTransaction)
    (frameReservation : Option FramePaymasterReservation) (broadcast : Bool) :
    Except MempoolError Unit × MempoolInner :=
  let s := s.pruneOrder
  let s := s.makeRoom versionedHash iteration tx.isBlob hash
  let s := s.enter hash sender tx broadcast
  if tx.isFrame then s.enterFrame hash sender tx.nonce frameReservation else (.ok (), s)

/-- `Mempool::add_transaction_inner`, with the pool as it is when the call returns. -/
def addTransactionInner (s : MempoolInner) (hash : H256)
    (sender : Address) (tx : MempoolTransaction)
    (frameReservation : Option FramePaymasterReservation)
    (senderAdmission : Option SenderAdmission) (broadcast : Bool) :
    Except MempoolError Unit × MempoolInner :=
  match senderAdmission.elim (.ok ()) fun admission => s.checkAdmission sender tx.nonce admission with
  | .error e => (.error e, s)
  | .ok () =>
    let s :=
      if senderAdmission.isSome && !tx.isFrame then s.clearSlot versionedHash sender tx.nonce else s
    if tx.isFrame then
      let (checked, made) := s.checkFrame sender tx.nonce hash frameReservation
      match checked with
      | .error e => (.error e, s.logged made)
      | .ok () =>
        let (result, s) := (s.clearSlot versionedHash sender tx.nonce).insertTransaction
          versionedHash iteration hash sender tx frameReservation broadcast
        (result, s.logged made)
    else s.insertTransaction versionedHash iteration hash sender tx frameReservation broadcast

end MempoolInner

end Ethrex.Mempool
