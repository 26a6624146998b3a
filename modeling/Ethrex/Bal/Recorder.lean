import Ethrex.Bal.AccessList
import Ethrex.Journal.ListMap
import Ethrex.Journal.Timeline

/-!
# The recorder of block access lists

A map and its journal are one field. Nested maps from addresses to slots are maps from pairs, as the
source removes an address without slots. Maps and sets whose insertion order only matters to
`tx_checkpoint` are ordered by key.
-/

namespace Ethrex.Bal

open Journal

abbrev SlotKey := Address × U256

instance : Ord SlotKey := lexOrd

instance : Std.TransOrd SlotKey :=
  inferInstanceAs (Std.TransCmp (compareLex (compareOn Prod.fst) (compareOn Prod.snd)))

theorem compare_slotKey (a b : SlotKey) :
    compare a b = (compare a.1 b.1).then (compare a.2 b.2) := rfl

instance : Std.LawfulEqOrd SlotKey where
  eq_of_compare {a b} h := by
    rw [compare_slotKey, Ordering.then_eq_eq] at h
    exact Prod.ext (Std.LawfulEqOrd.eq_of_compare h.1) (Std.LawfulEqOrd.eq_of_compare h.2)

def systemAddress : Address := 0xfffffffffffffffffffffffffffffffffffffffe

/-- The fields of the recorder with a journal, which `restore` takes back. -/
structure Changes where
  storageWrites : Journaled SlotKey (Change U256) := .empty
  balanceChanges : Journaled Address (Change U256) := .empty
  nonceChanges : Journaled Address (Change Nat) := .empty
  codeChanges : Journaled Address (Change Bytes) := .empty
  readsPromotedToWrites : Journaled Address U256 := .empty

structure Recorder extends Changes where
  currentIndex : Nat := 0
  touchedAddresses : Std.ExtTreeSet Address := ∅
  storageReads : Std.ExtTreeSet SlotKey := ∅
  initialBalances : Std.ExtTreeMap Address U256 := ∅
  txInitialStorage : Std.ExtTreeMap SlotKey U256 := ∅
  txInitialCode : Std.ExtTreeMap Address Bytes := ∅
  addressesWithInitialCode : Std.ExtTreeSet Address := ∅
  inSystemCall : Bool := false

structure Checkpoint where
  balanceChangesJournalLen : Nat
  nonceChangesJournalLen : Nat
  codeChangesJournalLen : Nat
  storageWritesJournalLen : Nat
  readsPromotedJournalLen : Nat
  deriving DecidableEq, Repr

namespace Changes

def checkpoint (c : Changes) : Checkpoint where
  balanceChangesJournalLen := c.balanceChanges.journal.length
  nonceChangesJournalLen := c.nonceChanges.journal.length
  codeChangesJournalLen := c.codeChanges.journal.length
  storageWritesJournalLen := c.storageWrites.journal.length
  readsPromotedJournalLen := c.readsPromotedToWrites.journal.length

def restore (c : Changes) (checkpoint : Checkpoint) : Changes where
  readsPromotedToWrites := (c.readsPromotedToWrites.walk checkpoint.readsPromotedJournalLen).1
  storageWrites := (c.storageWrites.walk checkpoint.storageWritesJournalLen).1
  balanceChanges := (c.balanceChanges.walk checkpoint.balanceChangesJournalLen).1
  nonceChanges := (c.nonceChanges.walk checkpoint.nonceChangesJournalLen).1
  codeChanges := (c.codeChanges.walk checkpoint.codeChangesJournalLen).1

end Changes

namespace Recorder

variable (r : Recorder)

/-- One turn of the second loop of `filter_net_zero_storage`: the slot's writes at the index become
a read. -/
def convertToRead (key : SlotKey) : Recorder :=
  { r with
    storageWrites := r.storageWrites.modify key (dropAt r.currentIndex)
    readsPromotedToWrites :=
      r.readsPromotedToWrites.modify key.1 fun slots => slots.filter fun slot => slot ≠ key.2
    storageReads := r.storageReads.insert key }

def filterNetZeroStorage : Recorder :=
  let slotsToConvert := (r.txInitialStorage.toList.filter fun e =>
    lastAt (r.storageWrites.get e.1) r.currentIndex = some e.2).map Prod.fst
  slotsToConvert.foldl convertToRead r

variable (address : Address)

/-- One turn of the second loop of `filter_net_zero_code`. -/
def dropCodeChanges : Recorder :=
  { r with codeChanges := r.codeChanges.modify address (dropAt r.currentIndex) }

def filterNetZeroCode : Recorder :=
  let addrsToRemove := (r.txInitialCode.toList.filter fun e =>
    lastAt (r.codeChanges.get e.1) r.currentIndex = some e.2).map Prod.fst
  addrsToRemove.foldl dropCodeChanges r

/-- What `set_block_access_index` clears after the filters. -/
def clearTransaction : Recorder :=
  { r with
    txInitialStorage := ∅
    txInitialCode := ∅
    balanceChanges := r.balanceChanges.clearJournal
    nonceChanges := r.nonceChanges.clearJournal
    codeChanges := r.codeChanges.clearJournal
    storageWrites := r.storageWrites.clearJournal
    readsPromotedToWrites := r.readsPromotedToWrites.clearJournal }

def setBlockAccessIndex (index : Nat) : Recorder :=
  let r := if r.currentIndex ≠ index then
      r.filterNetZeroStorage.filterNetZeroCode.clearTransaction
    else r
  { r with currentIndex := index }

def enterSystemCall : Recorder := { r with inSystemCall := true }

def exitSystemCall : Recorder := { r with inSystemCall := false }

/-- An address is put into `touched_addresses`. -/
def touch : Recorder :=
  { r with touchedAddresses := r.touchedAddresses.insert address }

def isSystem : Bool :=
  address = systemAddress && r.inSystemCall

def recordTouchedAddress : Recorder :=
  if r.isSystem address then r else r.touch address

def recordStorageRead (slot : U256) : Recorder :=
  if !(r.storageWrites.get (address, slot)).isEmpty then r
  else { r with storageReads := r.storageReads.insert (address, slot) }.touch address

/-- A read that becomes a write is put into `reads_promoted_to_writes`, once. -/
def promoteRead (slot : U256) : Recorder :=
  if (address, slot) ∈ r.storageReads ∧ slot ∉ r.readsPromotedToWrites.get address then
    { r with readsPromotedToWrites := r.readsPromotedToWrites.push address slot }
  else r

def recordStorageWrite (slot postValue : U256) : Recorder :=
  let r := r.promoteRead address slot
  { r with
    storageWrites := r.storageWrites.push (address, slot) (r.currentIndex, postValue) }.touch address

/-- `capture_pre_storage`: the first value of a transaction stays. -/
def capturePreStorage (slot value : U256) : Recorder :=
  { r with txInitialStorage := r.txInitialStorage.insertIfNew (address, slot) value }

def recordBalanceChange (postBalance : U256) : Recorder :=
  if r.isSystem address then r
  else { r with
    balanceChanges := r.balanceChanges.push address (r.currentIndex, postBalance) }.touch address

def setInitialBalance (balance : U256) : Recorder :=
  { r with initialBalances := r.initialBalances.insertIfNew address balance }

def recordNonceChange (postNonce : Nat) : Recorder :=
  if r.isSystem address then r
  else { r with
    nonceChanges := r.nonceChanges.push address (r.currentIndex, postNonce) }.touch address

def captureInitialCodePresence (hasCode : Bool) : Recorder :=
  if hasCode then { r with addressesWithInitialCode := r.addressesWithInitialCode.insert address }
  else r

def setInitialCode (code : Bytes) : Recorder :=
  { r with txInitialCode := r.txInitialCode.insertIfNew address code }

def recordCodeChange (newCode : Bytes) : Recorder :=
  if newCode.isEmpty ∧ address ∉ r.addressesWithInitialCode then r.touch address
  else { r with
    codeChanges := r.codeChanges.push address (r.currentIndex, newCode) }.touch address

def checkpoint (r : Recorder) : Checkpoint := r.toChanges.checkpoint

/-- `restore`: a slot that loses its last write becomes a read. -/
def restore (r : Recorder) (checkpoint : Checkpoint) : Recorder :=
  let emptied := (r.storageWrites.walk checkpoint.storageWritesJournalLen).2
  { r with
    toChanges := r.toChanges.restore checkpoint
    storageReads := emptied.foldl (fun reads key => reads.insert key) r.storageReads }

/-- The balance changes without those that leave the balance as it was before their index. -/
def withoutRoundTrips : Option U256 → List (Change U256) → List (Change U256)
  | _, [] => []
  | prevBalance, (index, balance) :: rest =>
    if prevBalance = some balance then withoutRoundTrips (some balance) rest
    else (index, balance) :: withoutRoundTrips (some balance) rest

def writtenSlots : List U256 :=
  (r.storageWrites.lists.keys.filter fun key => key.1 = address).map Prod.snd

/-- The slots of an address that were read and neither promoted nor written. -/
def readSlots : List U256 :=
  ((r.storageReads.toList.filter fun key => key.1 = address).map Prod.snd).filter fun slot =>
    slot ∉ r.readsPromotedToWrites.get address ∧ (r.storageWrites.get (address, slot)).isEmpty

def accountChanges : AccountChanges where
  address := address
  storageChanges := (r.writtenSlots address).map fun slot =>
    ⟨slot, (byPeriod (r.storageWrites.get (address, slot))).toList⟩
  storageReads := r.readSlots address
  balanceChanges := withoutRoundTrips r.initialBalances[address]?
    (byPeriod (r.balanceChanges.get address)).toList
  nonceChanges := (byPeriod (r.nonceChanges.get address)).toList
  codeChanges := (byPeriod (r.codeChanges.get address)).toList

def build : BlockAccessList :=
  let r := r.filterNetZeroStorage.filterNetZeroCode
  r.touchedAddresses.toList.map r.accountChanges

end Recorder

end Ethrex.Bal
