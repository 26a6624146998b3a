import Ethrex.Block.Body
import Ethrex.Tally.Total

/-!
# Queues of transactions

The next transaction of each sender, the best tip first, and behind it the sender's others in order
of their nonces.
-/

namespace Ethrex.Payload

open Tally List

/-- `MempoolTransaction`: a transaction with its sender and the time it came in. -/
structure MempoolTransaction where
  timestamp : Nat
  sender : Address
  inner : Transaction

structure HeadTransaction where
  tx : MempoolTransaction
  tip : U256

inductive ChainError where
  /-- `InvalidTransaction`: a queued transaction cannot pay the base fee. -/
  | filterFailed
  /-- The source takes the first transaction of an empty list. -/
  | panic
  /-- An error of the machine. -/
  | evm (message : String)
  | gasAllowanceExceeded
  | blockGasLimitExceeded (newRegular newState gasLimit : U64)
  | noBlobsBundle (txHash : H256)
  | insufficientCells (txHash : H256)
  | staleSidecar (txHash : H256)
  | exceededMaxBlobGasPerBlock
  deriving DecidableEq, Repr

/-- `Ord for HeadTransaction`: privileged transactions first, in order of their nonces, then the best
tip, then the earliest. -/
def HeadTransaction.cmp (a b : HeadTransaction) : Ordering :=
  match a.tx.inner.txType, b.tx.inner.txType with
  | .privileged, .privileged => compare a.tx.inner.nonce b.tx.inner.nonce
  | .privileged, _ => .lt
  | _, .privileged => .gt
  | _, _ => (compare b.tip a.tip).then (compare a.tx.timestamp b.tx.timestamp)

structure TransactionQueue where
  heads : List HeadTransaction
  txs : Map Address (List MempoolTransaction)
  baseFee : Option U64

namespace TransactionQueue

def headOf (baseFee : Option U64) (tx : MempoolTransaction) : Except ChainError HeadTransaction :=
  match tx.inner.effectiveGasTip baseFee with
  | some tip => .ok ⟨tx, tip⟩
  | none => .error .filterFailed

def firstHeads (baseFee : Option U64) :
    List (List MempoolTransaction) → Except ChainError (List HeadTransaction)
  | [] => .ok []
  | [] :: _ => .error .panic
  | (tx :: _) :: senders => do
    let head ← headOf baseFee tx
    let heads ← firstHeads baseFee senders
    .ok (head :: heads)

def new (txs : Map Address (List MempoolTransaction)) (baseFee : Option U64) :
    Except ChainError TransactionQueue := do
  let heads ← firstHeads baseFee (txs.entries.map Sigma.snd)
  .ok {
    heads := heads.insertionSort fun a b => a.cmp b ≠ .gt
    txs := txs.keys.foldl (fun rest sender =>
      rest.insert sender (((txs.lookup sender).getD []).tail)) ∅
    baseFee }

variable (q : TransactionQueue)

def clear : TransactionQueue := { q with heads := [], txs := ∅ }

def isEmpty (q : TransactionQueue) : Bool := q.heads.isEmpty

def peek : Option HeadTransaction := q.heads.head?

def pop : TransactionQueue :=
  match q.heads with
  | [] => q
  | head :: heads => { q with heads, txs := q.txs.erase head.tx.sender }

/-- A head takes its place. `binary_search` leaves open where it goes among equal heads; it goes
before them here. -/
def insertHead (heads : List HeadTransaction) (head : HeadTransaction) : List HeadTransaction :=
  heads.takeWhile (fun h => h.cmp head = .lt) ++ head :: heads.dropWhile (fun h => h.cmp head = .lt)

def shift : Except ChainError TransactionQueue :=
  match q.heads with
  | [] => .error .panic
  | top :: heads =>
    match q.txs.lookup top.tx.sender with
    | none | some [] => .ok { q with heads }
    | some (next :: rest) => do
      let head ← headOf q.baseFee next
      .ok { q with heads := insertHead heads head, txs := q.txs.insert top.tx.sender rest }

/-! ### The number of transactions left -/

def size : Nat := q.heads.length + total (fun _ txs => txs.length) q.txs

def transactions : Multiset Transaction :=
  q.heads.map (fun head => head.tx.inner) +
    (q.txs.entries.flatMap fun e => e.2.map MempoolTransaction.inner : List Transaction)

theorem transactions_pop_le : q.pop.transactions ≤ q.transactions := by
  rw [pop]
  split
  · exact le_rfl
  · rename_i head heads hheads
    rw [transactions, transactions, hheads]
    exact add_le_add (Multiset.coe_le.2 (sublist_cons_self _ _).subperm)
      (Multiset.coe_le.2 ((kerase_sublist _ _).flatMap _).subperm)

variable {q}

/-- The first transaction leaves the queue, and the next one of its sender takes its place among the
heads. -/
theorem transactions_shift {q' : TransactionQueue} {head : HeadTransaction}
    (hpeek : q.peek = some head) (h : q.shift = .ok q') :
    q.transactions = head.tx.inner ::ₘ q'.transactions := by
  obtain ⟨heads, hheads⟩ := head?_eq_some_iff.1 hpeek
  rw [shift, hheads] at h
  dsimp only at h
  split at h
  · cases h
    rw [transactions, hheads]
    rfl
  · cases h
    rw [transactions, hheads]
    rfl
  · rename_i next rest hlookup
    obtain ⟨placed, hplaced, h⟩ := bind_eq_ok.1 h
    cases h
    have hinner : placed.tx = next := by
      rw [headOf] at hplaced
      split at hplaced
      · cases hplaced
        rfl
      · cases hplaced
    have hinsert : (insertHead heads placed).Perm (placed :: heads) := by
      rw [insertHead]
      exact perm_middle.trans (by rw [takeWhile_append_dropWhile])
    have hentries := (entries_perm hlookup).flatMap_right fun e =>
      e.2.map MempoolTransaction.inner
    rw [transactions, transactions, hheads, Multiset.coe_eq_coe.2 hentries,
      Multiset.coe_eq_coe.2 (hinsert.map _), AList.entries_insert]
    simp only [map_cons, flatMap_cons, hinner, entries_erase, ← Multiset.cons_coe,
      ← Multiset.coe_add, Multiset.cons_add, Multiset.add_cons]
    exact Multiset.cons_swap _ _ _

end TransactionQueue

end Ethrex.Payload
