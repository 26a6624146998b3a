import Ethrex.Bal.Recorder

/-!
# What the list of a block should be

A block as calls on the recorder, with the changes that survive its reverts. The list of EIP-7928 is
stated from these changes alone.
-/

namespace Ethrex.Bal

open Journal

/-- A call on the recorder: what the machine does, at which index, and in which frame. -/
inductive Event where
  | touch (address : Address)
  | read (address : Address) (slot : U256)
  | write (address : Address) (slot value : U256)
  | balance (address : Address) (value : U256)
  | nonce (address : Address) (value : Nat)
  | code (address : Address) (value : Bytes)
  | setIndex (index : Nat)
  | enterSystemCall
  | exitSystemCall
  | checkpoint
  | commit
  | restore

inductive StateChange where
  | storage (key : SlotKey) (value : U256)
  | balance (address : Address) (value : U256)
  | nonce (address : Address) (value : Nat)
  | code (address : Address) (value : Bytes)

structure World where
  storage : SlotKey → U256
  balance : Address → U256
  nonce : Address → Nat
  code : Address → Bytes

/-- An open frame: the number of surviving changes and the index at its checkpoint. -/
structure OpenFrame where
  survivors : Nat
  index : Nat

structure History where
  index : Nat := 0
  survivors : List (Nat × StateChange) := []
  touched : List Address := []
  accessed : List SlotKey := []
  inSystemCall : Bool := false
  opened : List OpenFrame := []

namespace StateChange

def storageAt (key : SlotKey) : StateChange → Option U256
  | .storage key' value => if key' = key then some value else none
  | _ => none

def balanceAt (address : Address) : StateChange → Option U256
  | .balance address' value => if address' = address then some value else none
  | _ => none

def nonceAt (address : Address) : StateChange → Option Nat
  | .nonce address' value => if address' = address then some value else none
  | _ => none

def codeAt (address : Address) : StateChange → Option Bytes
  | .code address' value => if address' = address then some value else none
  | _ => none

end StateChange

/-- The surviving changes of one value, picked out by `select`. -/
def changesOf {V : Type} (select : StateChange → Option V) (survivors : List (Nat × StateChange)) :
    List (Change V) :=
  survivors.filterMap fun e => (select e.2).map fun v => (e.1, v)

namespace History

variable (h : History) (init : World)

def storage (key : SlotKey) : U256 :=
  valueUpto (init.storage key) (changesOf (StateChange.storageAt key) h.survivors) h.index

def balance (address : Address) : U256 :=
  valueUpto (init.balance address) (changesOf (StateChange.balanceAt address) h.survivors) h.index

def code (address : Address) : Bytes :=
  valueUpto (init.code address) (changesOf (StateChange.codeAt address) h.survivors) h.index

def isSystem (address : Address) : Bool := address = systemAddress && h.inSystemCall

def change (address : Address) (c : StateChange) : History :=
  { h with survivors := h.survivors ++ [(h.index, c)], touched := address :: h.touched }

def step : Event → History
  | .touch address =>
    if h.isSystem address then h else { h with touched := address :: h.touched }
  | .read address slot =>
    { h with touched := address :: h.touched, accessed := (address, slot) :: h.accessed }
  | .write address slot value =>
    { h.change address (.storage (address, slot) value) with
      accessed := (address, slot) :: h.accessed }
  | .balance address value =>
    if h.isSystem address then h else h.change address (.balance address value)
  | .nonce address value =>
    if h.isSystem address then h else h.change address (.nonce address value)
  | .code address value => h.change address (.code address value)
  | .setIndex index => { h with index }
  | .enterSystemCall => { h with inSystemCall := true }
  | .exitSystemCall => { h with inSystemCall := false }
  | .checkpoint => { h with opened := ⟨h.survivors.length, h.index⟩ :: h.opened }
  | .commit => { h with opened := h.opened.tail }
  | .restore =>
    match h.opened with
    | [] => h
    | frame :: rest => { h with survivors := h.survivors.take frame.survivors, opened := rest }

def run (events : List Event) : History := events.foldl History.step {}

end History

/-! ### The list of EIP-7928 -/

def ascending {α : Type} [Ord α] [Std.TransOrd α] (xs : List α) : List α :=
  (Std.ExtTreeSet.ofList xs).toList

namespace History

variable (h : History) (init : World)

def slotChanges (key : SlotKey) : List (Change U256) :=
  diffs (init.storage key) (changesOf (StateChange.storageAt key) h.survivors) h.index

def slots (address : Address) : List U256 :=
  ascending ((h.accessed.filter fun key => key.1 = address).map Prod.snd)

def accountChanges (address : Address) : AccountChanges where
  address := address
  storageChanges := ((h.slots address).filter fun slot =>
    h.slotChanges init (address, slot) ≠ []).map fun slot =>
      ⟨slot, h.slotChanges init (address, slot)⟩
  storageReads := (h.slots address).filter fun slot => h.slotChanges init (address, slot) = []
  balanceChanges :=
    diffs (init.balance address) (changesOf (StateChange.balanceAt address) h.survivors) h.index
  nonceChanges :=
    diffs (init.nonce address) (changesOf (StateChange.nonceAt address) h.survivors) h.index
  codeChanges :=
    diffs (init.code address) (changesOf (StateChange.codeAt address) h.survivors) h.index

/-- No index with a surviving change of a nonce ends at the nonce that it started with. -/
def noncesMove : Bool :=
  h.survivors.all fun e =>
    match e.2 with
    | .nonce address _ =>
      let changes := changesOf (StateChange.nonceAt address) h.survivors
      valueUpto (init.nonce address) changes e.1 ≠ valueBefore (init.nonce address) changes e.1
    | _ => true

def accessList : BlockAccessList := (ascending h.touched).map (h.accountChanges init)

end History

/-! ### The recorder in a block -/

/-- The recorder, the block so far and the checkpoints of the open frames. -/
structure Session where
  recorder : Recorder := {}
  history : History := {}
  checkpoints : List Checkpoint := []

namespace Session

variable (init : World) (s : Session)

/-- What the machine calls on the recorder: a change comes with the value before it. -/
def record : Event → Recorder
  | .touch address => s.recorder.recordTouchedAddress address
  | .read address slot => s.recorder.recordStorageRead address slot
  | .write address slot value =>
    (s.recorder.capturePreStorage address slot
      (s.history.storage init (address, slot))).recordStorageWrite address slot value
  | .balance address value =>
    (s.recorder.setInitialBalance address (s.history.balance init address)).recordBalanceChange
      address value
  | .nonce address value => s.recorder.recordNonceChange address value
  | .code address value =>
    ((s.recorder.captureInitialCodePresence address
        (!(s.history.code init address).isEmpty)).setInitialCode address
      (s.history.code init address)).recordCodeChange address value
  | .setIndex index => s.recorder.setBlockAccessIndex index
  | .enterSystemCall => s.recorder.enterSystemCall
  | .exitSystemCall => s.recorder.exitSystemCall
  | .restore =>
    match s.checkpoints with
    | [] => s.recorder
    | checkpoint :: _ => s.recorder.restore checkpoint
  | .checkpoint | .commit => s.recorder

def step (event : Event) : Session where
  recorder := s.record init event
  history := s.history.step event
  checkpoints := match event with
    | .checkpoint => s.recorder.checkpoint :: s.checkpoints
    | .commit | .restore => s.checkpoints.tail
    | _ => s.checkpoints

def run (events : List Event) : Session := events.foldl (Session.step init) {}

end Session

end Ethrex.Bal
