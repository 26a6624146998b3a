import Ethrex.Arena.Layout
import Ethrex.Levm.Checked
import Ethrex.Rlp.Codec

/-!
# Memory of the call frames

All call frames keep their memory in one vector, each from the length it had when the frame was
created. Most ranges are used without a bounds check; the model reports `undefined` when one is not
inside the vector. Unchecked additions wrap around.
-/

namespace Ethrex.Levm

open Arena (read write grow)

inductive MemoryError where
  | outOfBounds
  | overflow
  /-- `Vec::resize` panics when the vector would exceed `isize::MAX` bytes. -/
  | capacityOverflow
  /-- A checked slice access panics. -/
  | sliceIndex
  /-- An unchecked access outside of the vector. -/
  | undefined
  deriving DecidableEq, Repr

def isizeMax : Nat := 2 ^ 63 - 1

/-- `usize::wrapping_add`, and `+` in a release build. -/
def wrappingAdd (a b : Nat) : Nat := (a + b) % 2 ^ 64

def checkedNextMultipleOf (n multiple : Nat) : Option Nat :=
  if n % multiple = 0 then some n else checkedAddU64 n (multiple - n % multiple)

/-- `usize::next_multiple_of` in a release build. -/
def nextMultipleOf (n multiple : Nat) : Nat :=
  if n % multiple = 0 then n else wrappingAdd n (multiple - n % multiple)

def vecResize (buffer : Bytes) (size : Nat) : Except MemoryError Bytes :=
  if size ≤ isizeMax then .ok (grow 0 (buffer.take size) size) else .error .capacityOverflow

def getUnchecked (buffer : Bytes) (start stop : Nat) : Except MemoryError Bytes :=
  if start ≤ stop ∧ stop ≤ buffer.length then .ok (read buffer start (stop - start))
  else .error .undefined

/-- `get_unchecked_mut` on a range, and the bytes written there. -/
def setUnchecked (buffer : Bytes) (start stop : Nat) (data : Bytes) : Except MemoryError Bytes :=
  if start ≤ stop ∧ stop ≤ buffer.length then .ok (write buffer start data)
  else .error .undefined

def sliceCopyWithin (buffer : Bytes) (start stop dest : Nat) : Except MemoryError Bytes :=
  if start ≤ stop ∧ stop ≤ buffer.length ∧ dest ≤ buffer.length - (stop - start) then
    .ok (write buffer dest (read buffer start (stop - start)))
  else .error .sliceIndex

/-- `Memory`, with the shared vector as the value it has now. -/
structure Memory where
  buffer : Bytes
  len : Nat
  currentBase : Nat
  deriving DecidableEq, Repr

namespace Memory

def new : Memory := { buffer := [], len := 0, currentBase := 0 }

def resetForReuse (_ : Memory) : Memory := { buffer := [], len := 0, currentBase := 0 }

variable (memory : Memory)

def nextMemory : Memory :=
  { memory with currentBase := memory.buffer.length, len := 0 }

def cleanFromBase : Except MemoryError Bytes :=
  setUnchecked memory.buffer memory.currentBase (wrappingAdd memory.currentBase memory.len)
    (List.replicate memory.len 0)

def truncateToBase : Bytes :=
  memory.buffer.take memory.currentBase

def liveBytes : Bytes :=
  if memory.len = 0 then []
  else if memory.currentBase + memory.len ≤ memory.buffer.length then
    read memory.buffer memory.currentBase memory.len
  else []

def resizePrerounded (newMemorySize : Nat) : Except MemoryError Memory :=
  if newMemorySize = 0 then .ok memory
  else if newMemorySize ≤ memory.len then .ok memory
  else
    let realNewMemorySize := wrappingAdd newMemorySize memory.currentBase
    if realNewMemorySize > memory.buffer.length then do
      -- Small resizes are avoided.
      let buffer ← vecResize memory.buffer (nextMultipleOf realNewMemorySize 64)
      .ok { memory with buffer, len := newMemorySize }
    else .ok { memory with len := newMemorySize }

def resize (newMemorySize : Nat) : Except MemoryError Memory :=
  if newMemorySize = 0 then .ok memory
  else do
    let newMemorySize ← okOr .outOfBounds (checkedNextMultipleOf newMemorySize 32)
    memory.resizePrerounded newMemorySize

def loadRange (offset size : Nat) : Except MemoryError (Bytes × Memory) :=
  if size = 0 then .ok ([], memory)
  else do
    let newSize ← okOr .outOfBounds (checkedAddU64 offset size)
    let memory ← memory.resize newSize
    let trueOffset := wrappingAdd offset memory.currentBase
    let bytes ← getUnchecked memory.buffer trueOffset (wrappingAdd trueOffset size)
    .ok (bytes, memory)

/-- `with_range`, the range passed to `f` in place of a copy of it. -/
def withRange {ρ : Type} (memory : Memory) (offset size : Nat) (f : Bytes → ρ) :
    Except MemoryError (ρ × Memory) :=
  if size = 0 then .ok (f [], memory)
  else do
    let newSize ← okOr .outOfBounds (checkedAddU64 offset size)
    let memory ← memory.resize newSize
    let trueOffset := wrappingAdd offset memory.currentBase
    let range ← getUnchecked memory.buffer trueOffset (wrappingAdd trueOffset size)
    .ok (f range, memory)

def loadRangeConst (n offset : Nat) : Except MemoryError (Bytes × Memory) := do
  let newSize ← okOr .outOfBounds (checkedAddU64 offset n)
  let memory ← memory.resize newSize
  let trueOffset ← okOr .outOfBounds (checkedAddU64 offset memory.currentBase)
  let bytes ← getUnchecked memory.buffer trueOffset (wrappingAdd trueOffset n)
  .ok (bytes, memory)

variable (offset : Nat)

def loadWord : Except MemoryError (Nat × Memory) := do
  let (value, memory) ← memory.loadRangeConst 32 offset
  .ok (Rlp.fromBeBytes value, memory)

def store (data : Bytes) (atOffset dataSize : Nat) : Except MemoryError Memory :=
  if dataSize = 0 then .ok memory
  else do
    let realOffset := wrappingAdd memory.currentBase atOffset
    let realDataSize := min dataSize data.length
    let buffer ← setUnchecked memory.buffer realOffset (wrappingAdd realOffset realDataSize)
      (data.take realDataSize)
    .ok { memory with buffer }

def storeData (data : Bytes) : Except MemoryError Memory :=
  if data.isEmpty then .ok memory
  else do
    let newSize ← okOr .outOfBounds (checkedAddU64 offset data.length)
    let memory ← memory.resize newSize
    memory.store data offset data.length

/-- The zeros that `store_data_zero_padded` and `store_zeros` write. -/
def fillZeros (offset size : Nat) : Except MemoryError Memory := do
  let realOffset := wrappingAdd memory.currentBase offset
  let buffer ← setUnchecked memory.buffer realOffset (wrappingAdd realOffset size)
    (List.replicate size 0)
  .ok { memory with buffer }

def storeDataZeroPadded (data : Bytes) (totalSize : Nat) :
    Except MemoryError Memory :=
  if totalSize = 0 then .ok memory
  else do
    let newSize ← okOr .outOfBounds (checkedAddU64 offset totalSize)
    let memory ← memory.resize newSize
    let copySize := min data.length totalSize
    let memory ← (if copySize > 0 then memory.store data offset copySize else .ok memory)
    if copySize < totalSize then
      memory.fillZeros (wrappingAdd offset copySize) (totalSize - copySize)
    else .ok memory

def storeWord (word : U256) : Except MemoryError Memory := do
  let newSize ← okOr .outOfBounds (checkedAddU64 offset 32)
  let memory ← memory.resize newSize
  memory.store (fixedBeBytes 32 word) offset 32

def storeWordPrerounded (word : U256) (newMemorySize : Nat) :
    Except MemoryError Memory := do
  let memory ← memory.resizePrerounded newMemorySize
  memory.store (fixedBeBytes 32 word) offset 32

def loadWordPrerounded (offset newMemorySize : Nat) :
    Except MemoryError (Nat × Memory) := do
  let memory ← memory.resizePrerounded newMemorySize
  let trueOffset ← okOr .outOfBounds (checkedAddU64 offset memory.currentBase)
  let value ← getUnchecked memory.buffer trueOffset (wrappingAdd trueOffset 32)
  .ok (Rlp.fromBeBytes value, memory)

def copyWithin (fromOffset toOffset size : Nat) : Except MemoryError Memory :=
  if size = 0 then .ok memory
  else do
    let newSize ← okOr .overflow (checkedAddU64 (max toOffset fromOffset) size)
    let memory ← memory.resize newSize
    let trueFromOffset ← okOr .outOfBounds (checkedAddU64 fromOffset memory.currentBase)
    let trueToOffset ← okOr .outOfBounds (checkedAddU64 toOffset memory.currentBase)
    let fromEnd ← okOr .overflow (checkedAddU64 trueFromOffset size)
    let buffer ← sliceCopyWithin memory.buffer trueFromOffset fromEnd trueToOffset
    .ok { memory with buffer }

def storeZeros (offset size : Nat) : Except MemoryError Memory :=
  if size = 0 then .ok memory
  else do
    let newSize ← okOr .outOfBounds (checkedAddU64 offset size)
    let memory ← memory.resize newSize
    memory.fillZeros offset size

end Memory

def calculateMemorySize (offset size : Nat) : Except MemoryError Nat :=
  if size = 0 then .ok 0
  else okOr .outOfBounds ((checkedAddU64 offset size).bind (checkedNextMultipleOf · 32))

/-- The operations of the innermost frame on its memory. -/
inductive MemoryOp where
  | loadRange (offset size : Nat)
  | withRange (offset size : Nat)
  | loadWord (offset : Nat)
  | storeData (offset : Nat) (data : Bytes)
  | storeDataZeroPadded (offset : Nat) (data : Bytes) (totalSize : Nat)
  | storeWord (offset : Nat) (word : U256)
  | storeZeros (offset size : Nat)
  | copyWithin (fromOffset toOffset size : Nat)
  | resize (newMemorySize : Nat)
  /-- `OpMLoadHandler`: the rounded size is computed once, for the gas charge. -/
  | mload (offset : Nat)
  /-- `OpMStoreHandler`. -/
  | mstore (offset : Nat) (word : U256)
  | liveBytes
  deriving DecidableEq, Repr

inductive MemoryOutput where
  | none
  | bytes (bytes : Bytes)
  | word (word : Nat)
  deriving DecidableEq, Repr

namespace Memory

def apply (memory : Memory) : MemoryOp → Except MemoryError (MemoryOutput × Memory)
  | .loadRange offset size => (memory.loadRange offset size).map fun r => (.bytes r.1, r.2)
  | .withRange offset size => memory.withRange offset size .bytes
  | .loadWord offset => (memory.loadWord offset).map fun r => (.word r.1, r.2)
  | .storeData offset data => (memory.storeData offset data).map fun m => (.none, m)
  | .storeDataZeroPadded offset data totalSize =>
    (memory.storeDataZeroPadded offset data totalSize).map fun m => (.none, m)
  | .storeWord offset word => (memory.storeWord offset word).map fun m => (.none, m)
  | .storeZeros offset size => (memory.storeZeros offset size).map fun m => (.none, m)
  | .copyWithin fromOffset toOffset size =>
    (memory.copyWithin fromOffset toOffset size).map fun m => (.none, m)
  | .resize newMemorySize => (memory.resize newMemorySize).map fun m => (.none, m)
  | .mload offset => do
    let newSize ← calculateMemorySize offset 32
    (memory.loadWordPrerounded offset newSize).map fun r => (.word r.1, r.2)
  | .mstore offset word => do
    let newSize ← calculateMemorySize offset 32
    (memory.storeWordPrerounded offset word newSize).map fun m => (.none, m)
  | .liveBytes => .ok (.bytes memory.liveBytes, memory)

end Memory

/-- A frame is created by a call, the innermost frame returns, the vector is reclaimed for the next
transaction (also from inside nested frames), or the innermost frame uses its memory. -/
inductive MemoryAction where
  | enter
  | leave
  | reclaim
  | access (op : MemoryOp)
  deriving DecidableEq, Repr

/-- The length and the base of a frame that waits for its callee. -/
structure SuspendedMemory where
  len : Nat
  currentBase : Nat
  deriving DecidableEq, Repr

/-- The memory of the innermost frame and those of its callers, which share its vector. -/
structure SharedMemory where
  current : Memory
  callers : List SuspendedMemory
  deriving DecidableEq, Repr

namespace SharedMemory

def new : SharedMemory := { current := .new, callers := [] }

/-- The vector as the returning frame leaves it: zeroed, or cut on the guest's target. -/
def released (riscv64 : Bool) (memory : Memory) : Except MemoryError Bytes :=
  if riscv64 then .ok memory.truncateToBase else memory.cleanFromBase

/-- One action. A frame sees what the operation hands back and the length of its memory. The return
of the outermost frame ends the transaction. -/
def step (riscv64 : Bool) (state : SharedMemory) :
    MemoryAction → Except MemoryError ((MemoryOutput × Nat) × SharedMemory)
  | .enter =>
    let child := state.current.nextMemory
    .ok ((.none, child.len),
      { current := child
        callers := { len := state.current.len, currentBase := state.current.currentBase } ::
          state.callers })
  | .leave =>
    match state.callers with
    | [] => .ok ((.none, 0), { current := state.current.resetForReuse, callers := [] })
    | caller :: callers => do
      let buffer ← released riscv64 state.current
      .ok ((.none, caller.len),
        { current := { buffer, len := caller.len, currentBase := caller.currentBase }, callers })
  | .reclaim => .ok ((.none, 0), { current := state.current.resetForReuse, callers := [] })
  | .access op => do
    let (output, current) ← state.current.apply op
    .ok ((output, current.len), { state with current })

/-- What the frames see along a sequence of actions, and the state it ends in. -/
def run (riscv64 : Bool) (state : SharedMemory) :
    List MemoryAction → Except MemoryError (List (MemoryOutput × Nat) × SharedMemory)
  | [] => .ok ([], state)
  | action :: actions => do
    let (seen, state) ← state.step riscv64 action
    let (rest, state) ← state.run riscv64 actions
    .ok (seen :: rest, state)

end SharedMemory

end Ethrex.Levm
