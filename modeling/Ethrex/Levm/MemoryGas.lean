import Ethrex.Levm.PrivateMemory
import Ethrex.Types

/-!
# Gas of the memory of a frame

An opcode names the memory it needs by 256-bit words. The handler converts them, charges the
expansion with the rest of its gas, and resizes the memory. `cost` and `expansion_cost` wrap around
at 64 bits.
-/

namespace Ethrex.Levm

open List

inductive MemoryHalt where
  | veryLargeNumber
  | outOfGas
  | memory (error : MemoryError)
  deriving DecidableEq, Repr

/-- `u256_to_usize`: the three high limbs are zero and the low one has 32 bits. -/
def u256ToUsize (val : U256) : Except MemoryHalt Nat :=
  if val.val / 2 ^ 64 ≠ 0 ∨ 2 ^ 32 - 1 < val.val % 2 ^ 64 then .error .veryLargeNumber
  else .ok (val.val % 2 ^ 64)

def sizeOffsetToUsize (size offset : U256) : Except MemoryHalt (Nat × Nat) :=
  if size.val = 0 then .ok (0, 0)
  else do
    let size ← u256ToUsize size
    let offset ← u256ToUsize offset
    .ok (size, offset)

def cost (memorySize : Nat) : Nat :=
  let words := (memorySize + 31) / 32
  wrappingAdd (words * words % 2 ^ 64 / 512) (3 * words % 2 ^ 64)

def expansionCost (newMemorySize currentMemorySize : Nat) : Nat :=
  if newMemorySize ≤ currentMemorySize then 0
  else (cost newMemorySize + (2 ^ 64 - cost currentMemorySize)) % 2 ^ 64

/-- The memory an opcode needs, as its operands name it. -/
inductive MemoryAccess where
  /-- `MLOAD` and `MSTORE`. -/
  | word (offset : U256)
  /-- `MSTORE8`. -/
  | byte (offset : U256)
  /-- `KECCAK256`, `LOG`, `CREATE`, `RETURN`, `REVERT` and the copies from outside of the memory. -/
  | range (offset size : U256)
  | mcopy (dstOffset srcOffset size : U256)
  /-- The family of `CALL`: the arguments and the place of the returned data. -/
  | call (argsOffset argsLen returnOffset returnLen : U256)
  deriving DecidableEq, Repr

def memorySize (offset size : Nat) : Except MemoryHalt Nat :=
  (calculateMemorySize offset size).mapError .memory

def MemoryAccess.newMemorySize : MemoryAccess → Except MemoryHalt Nat
  | .word offset => do memorySize (← u256ToUsize offset) 32
  | .byte offset => do memorySize (← u256ToUsize offset) 1
  | .range offset size => do
    let (size, offset) ← sizeOffsetToUsize size offset
    memorySize offset size
  | .mcopy dstOffset srcOffset size => do
    let (size, dstOffset) ← sizeOffsetToUsize size dstOffset
    let srcOffset := match u256ToUsize srcOffset with
      | .ok srcOffset => srcOffset
      | .error _ => 2 ^ 64 - 1
    memorySize (max srcOffset dstOffset) size
  | .call argsOffset argsLen returnOffset returnLen => do
    let (argsLen, argsOffset) ← sizeOffsetToUsize argsLen argsOffset
    let (returnLen, returnOffset) ← sizeOffsetToUsize returnLen returnOffset
    let args ← memorySize argsOffset argsLen
    let returned ← memorySize returnOffset returnLen
    .ok (max args returned)

/-- An access with the rest of the opcode's gas. A call forwards at most 63/64 of a gas counter that
is an `i64`, and no other cost comes near to it. -/
structure MemoryRequest where
  access : MemoryAccess
  otherGas : Nat
  small : otherGas + 2 ^ 48 ≤ 2 ^ 63
  deriving DecidableEq, Repr

structure MeteredFrame where
  memory : Memory
  gasRemaining : Int
  deriving DecidableEq, Repr

/-- An accepted request: the size it needs and the gas charged for the expansion. -/
structure Expansion where
  size : Nat
  charge : Nat
  deriving DecidableEq, Repr

namespace MeteredFrame

def request (frame : MeteredFrame) (request : MemoryRequest) :
    Except MemoryHalt (Expansion × MeteredFrame) := do
  let size ← request.access.newMemorySize
  let charge := expansionCost size frame.memory.len
  let gas ← okOr .outOfGas (checkedAddU64 request.otherGas charge)
  let gasRemaining ← okOr .outOfGas (increaseConsumedGas frame.gasRemaining gas)
  let memory ← (frame.memory.resize size).mapError .memory
  .ok ({ size, charge }, { memory, gasRemaining })

def run (frame : MeteredFrame) :
    List MemoryRequest → List Expansion × MeteredFrame × Option MemoryHalt
  | [] => ([], frame, none)
  | request :: requests =>
    match frame.request request with
    | .error halt => ([], frame, some halt)
    | .ok (expansion, frame) =>
      let (expansions, last) := frame.run requests
      (expansion :: expansions, last)

end MeteredFrame

/-- `C(n) = 3 w + w² / 512` for the `w` words that `n` bytes touch. -/
def memoryCost (n : Nat) : Nat :=
  3 * ((n + 31) / 32) + ((n + 31) / 32) ^ 2 / 512

variable {n : Nat}

theorem memoryCost_mono {m : Nat} (h : m ≤ n) : memoryCost m ≤ memoryCost n := by
  unfold memoryCost
  gcongr

theorem words_square_le (h : n ≤ 2 ^ 33) : ((n + 31) / 32) * ((n + 31) / 32) ≤ 2 ^ 28 * 2 ^ 28 :=
  Nat.mul_le_mul (by omega) (by omega)

theorem memoryCost_lt (h : n ≤ 2 ^ 33) : memoryCost n < 2 ^ 48 := by
  have := words_square_le h
  rw [memoryCost, pow_two]
  omega

theorem cost_eq (h : n ≤ 2 ^ 33) : cost n = memoryCost n := by
  have := words_square_le h
  rw [cost, memoryCost, pow_two, Nat.mod_eq_of_lt (by omega), Nat.mod_eq_of_lt (by omega),
    wrappingAdd_of_lt (by omega), Nat.add_comm]

theorem expansionCost_eq {new current : Nat} (hnew : new ≤ 2 ^ 33) (hcurrent : current ≤ 2 ^ 33) :
    expansionCost new current = memoryCost (max current new) - memoryCost current := by
  unfold expansionCost
  split_ifs with hle
  · rw [max_eq_left hle, Nat.sub_self]
  have hmono := memoryCost_mono (not_le.mp hle).le
  have hlt := memoryCost_lt hnew
  rw [max_eq_right (by omega), cost_eq hnew, cost_eq hcurrent]
  omega

/-! ### The size of a request -/

/-- The operands of a range that are converted: none if it is empty. -/
def rangeOperands (size offset : U256) : List U256 := if size.val = 0 then [] else [size, offset]

/-- The operands that have to fit into 32 bits. -/
def MemoryAccess.operands : MemoryAccess → List U256
  | .word offset | .byte offset => [offset]
  | .range offset size => rangeOperands size offset
  | .mcopy dstOffset _ size => rangeOperands size dstOffset
  | .call argsOffset argsLen returnOffset returnLen =>
    rangeOperands argsLen argsOffset ++ rangeOperands returnLen returnOffset

def Large (operands : List U256) : Prop := ∃ operand ∈ operands, 2 ^ 32 ≤ operand.val

theorem u256ToUsize_cases (val : U256) :
    u256ToUsize val = .error .veryLargeNumber ∧ 2 ^ 32 ≤ val.val ∨
      ∃ n < 2 ^ 32, u256ToUsize val = .ok n := by
  unfold u256ToUsize
  split_ifs with hlarge
  · exact .inl ⟨rfl, by omega⟩
  · exact .inr ⟨_, by omega, rfl⟩

theorem sizeOffsetToUsize_cases (size offset : U256) :
    sizeOffsetToUsize size offset = .error .veryLargeNumber ∧ Large (rangeOperands size offset) ∨
      ∃ s < 2 ^ 32, ∃ o < 2 ^ 32, sizeOffsetToUsize size offset = .ok (s, o) := by
  unfold sizeOffsetToUsize rangeOperands
  split_ifs
  · exact .inr ⟨0, by decide, 0, by decide, rfl⟩
  obtain ⟨h, hlarge⟩ | ⟨s, hs, h⟩ := u256ToUsize_cases size <;> rw [h]
  · exact .inl ⟨rfl, size, by simp, hlarge⟩
  obtain ⟨h, hlarge⟩ | ⟨o, ho, h⟩ := u256ToUsize_cases offset <;> rw [h]
  · exact .inl ⟨rfl, offset, by simp, hlarge⟩
  · exact .inr ⟨s, hs, o, ho, rfl⟩

/-- What the conversions and the rounding can make of a request: whole memory words within `2 ^ 33`
bytes, or one of two errors. -/
inductive Sized (operands : List U256) : Except MemoryHalt Nat → Prop where
  | veryLargeNumber (large : Large operands) : Sized operands (.error .veryLargeNumber)
  | outOfBounds : Sized operands (.error (.memory .outOfBounds))
  | ok {n : Nat} (words : n % 32 = 0) (le : n ≤ 2 ^ 33) : Sized operands (.ok n)

theorem memorySize_sized {offset size : Nat} (hoffset : offset < 2 ^ 32 ∨ offset = 2 ^ 64 - 1)
    (hsize : size < 2 ^ 32) (operands : List U256) : Sized operands (memorySize offset size) := by
  unfold memorySize calculateMemorySize checkedAddU64
  split_ifs with hzero hfits
  · exact .ok rfl (Nat.zero_le _)
  · unfold checkedNextMultipleOf checkedAddU64
    -- A saturated offset leaves no room for a byte.
    simp only [Option.bind_some]
    split_ifs with hexact hround
    · exact .ok hexact (by omega)
    · exact .ok (by omega) (by omega)
    · exact .outOfBounds
  · exact .outOfBounds

theorem MemoryAccess.newMemorySize_sized (access : MemoryAccess) :
    Sized access.operands access.newMemorySize := by
  cases access with
  | word offset | byte offset =>
    obtain ⟨h, hlarge⟩ | ⟨n, hn, h⟩ := u256ToUsize_cases offset <;> rw [newMemorySize, h]
    · exact .veryLargeNumber ⟨offset, mem_singleton_self _, hlarge⟩
    · exact memorySize_sized (.inl hn) (by decide) _
  | range offset size =>
    obtain ⟨h, hlarge⟩ | ⟨s, hs, o, ho, h⟩ := sizeOffsetToUsize_cases size offset <;>
      rw [newMemorySize, h]
    · exact .veryLargeNumber hlarge
    · exact memorySize_sized (.inl ho) hs _
  | mcopy dstOffset srcOffset size =>
    obtain ⟨h, hlarge⟩ | ⟨s, hs, o, ho, h⟩ := sizeOffsetToUsize_cases size dstOffset <;>
      rw [newMemorySize, h]
    · exact .veryLargeNumber hlarge
    obtain ⟨h, -⟩ | ⟨n, hn, h⟩ := u256ToUsize_cases srcOffset <;> rw [h]
    · exact memorySize_sized (.inr (max_eq_left (show o ≤ 2 ^ 64 - 1 by omega))) hs _
    · exact memorySize_sized (.inl (max_lt hn ho)) hs _
  | call argsOffset argsLen returnOffset returnLen =>
    rw [newMemorySize, operands]
    obtain ⟨h, operand, hmem, hlarge⟩ | ⟨s, hs, o, ho, h⟩ :=
      sizeOffsetToUsize_cases argsLen argsOffset <;> rw [h]
    · exact .veryLargeNumber ⟨operand, mem_append_left _ hmem, hlarge⟩
    obtain ⟨h, operand, hmem, hlarge⟩ | ⟨s', hs', o', ho', h⟩ :=
      sizeOffsetToUsize_cases returnLen returnOffset <;> rw [h]
    · exact .veryLargeNumber ⟨operand, mem_append_right _ hmem, hlarge⟩
    generalize rangeOperands argsLen argsOffset ++ rangeOperands returnLen returnOffset = operands
    have hargs := memorySize_sized (.inl ho) hs operands
    have hreturned := memorySize_sized (.inl ho') hs' operands
    show Sized operands (memorySize o s >>= fun args => memorySize o' s' >>= fun returned => _)
    generalize memorySize o s = args, memorySize o' s' = returned at hargs hreturned
    cases hargs with
    | veryLargeNumber hlarge => exact .veryLargeNumber hlarge
    | outOfBounds => exact .outOfBounds
    | ok hwords hle =>
      cases hreturned with
      | veryLargeNumber hlarge => exact .veryLargeNumber hlarge
      | outOfBounds => exact .outOfBounds
      | ok hwords' hle' => exact .ok (by omega) (max_le hle hle')

/-- A memory in the shared vector, which the allocator keeps within `isize::MAX` bytes. -/
structure Memory.Allocated (memory : Memory) : Prop where
  inside : memory.currentBase ≤ memory.buffer.length
  vec : memory.buffer.length ≤ isizeMax

theorem Memory.Allocated.resize {memory : Memory} (allocated : memory.Allocated)
    (hwords : n % 32 = 0) (hn : n ≤ 2 ^ 33) :
    (memory.resize n = .error .capacityOverflow ∧
        isizeMax < nextMultipleOf (n + memory.currentBase) 64) ∨
      ∃ memory', memory.resize n = .ok memory' ∧ memory'.Allocated ∧
        memory'.currentBase = memory.currentBase ∧ memory'.len = max memory.len n := by
  obtain ⟨inside, vec⟩ := allocated
  unfold isizeMax at vec
  have hround : checkedNextMultipleOf n 32 = some n := if_pos hwords
  have hreal : wrappingAdd n memory.currentBase = n + memory.currentBase :=
    wrappingAdd_of_lt (by omega)
  have hnext : n + memory.currentBase ≤ nextMultipleOf (n + memory.currentBase) 64 := by
    unfold nextMultipleOf
    split_ifs
    · exact le_rfl
    · rw [wrappingAdd_of_lt (by omega)]
      omega
  unfold Memory.resize
  split_ifs with hzero
  · exact .inr ⟨memory, rfl, ⟨inside, vec⟩, rfl, by omega⟩
  rw [hround, okOr]
  show (memory.resizePrerounded n = _ ∧ _) ∨ ∃ memory', memory.resizePrerounded n = _ ∧ _
  simp only [Memory.resizePrerounded, hreal]
  split_ifs with hcovered hgrow
  · exact .inr ⟨memory, rfl, ⟨inside, vec⟩, rfl, by omega⟩
  · unfold vecResize
    split_ifs with hfits
    · refine .inr ⟨_, rfl, ⟨?_, ?_⟩, rfl, (max_eq_right (not_le.mp hcovered).le).symm⟩
      · show memory.currentBase ≤ (Arena.grow 0 _ _).length
        rw [Arena.length_grow]
        omega
      · rw [Arena.length_grow, length_take]
        omega
    · exact .inl ⟨rfl, not_le.1 hfits⟩
  · exact .inr ⟨_, rfl, ⟨inside, vec⟩, rfl, (max_eq_right (not_le.mp hcovered).le).symm⟩

namespace MeteredFrame

structure Valid (frame : MeteredFrame) : Prop where
  allocated : frame.memory.Allocated
  len : frame.memory.len ≤ 2 ^ 33
  nonneg : 0 ≤ frame.gasRemaining
  small : frame.gasRemaining < 2 ^ 63

/-- What an accepted request does. -/
structure Accepted (frame : MeteredFrame) (request : MemoryRequest) (expansion : Expansion)
    (frame' : MeteredFrame) : Prop where
  valid : frame'.Valid
  base : frame'.memory.currentBase = frame.memory.currentBase
  len : frame'.memory.len = max frame.memory.len expansion.size
  charge : expansion.charge = memoryCost frame'.memory.len - memoryCost frame.memory.len
  gas : frame'.gasRemaining = frame.gasRemaining - (request.otherGas + expansion.charge)

variable {frame : MeteredFrame}

/-- The errors of a request: an operand above 32 bits, too little gas, a size that cannot be rounded
up, or a shared vector that the allocator refuses. -/
inductive Halts (frame : MeteredFrame) (request : MemoryRequest) : MemoryHalt → Prop where
  | veryLargeNumber (large : Large request.access.operands) : Halts frame request .veryLargeNumber
  | outOfGas : Halts frame request .outOfGas
  | outOfBounds : Halts frame request (.memory .outOfBounds)
  | capacityOverflow {size : Nat} (needs : request.access.newMemorySize = .ok size)
    (full : isizeMax < nextMultipleOf (size + frame.memory.currentBase) 64) :
    Halts frame request (.memory .capacityOverflow)

theorem Valid.request (valid : frame.Valid) (request : MemoryRequest) :
    (∃ halt, frame.request request = .error halt ∧ frame.Halts request halt) ∨
      ∃ expansion frame', frame.request request = .ok (expansion, frame') ∧
        frame.Accepted request expansion frame' := by
  unfold MeteredFrame.request
  have hsized := request.access.newMemorySize_sized
  generalize hneeds : request.access.newMemorySize = size at hsized
  cases hsized with
  | veryLargeNumber hlarge => exact .inl ⟨_, rfl, .veryLargeNumber hlarge⟩
  | outOfBounds => exact .inl ⟨_, rfl, .outOfBounds⟩
  | @ok size hwords hle =>
    have hcharge := expansionCost_eq hle valid.len
    have hbound := memoryCost_lt (max_le valid.len hle)
    have hsmall := request.small
    simp only [bind, Except.bind]
    rw [checkedAddU64_of_lt (by omega)]
    simp only [okOr]
    obtain ⟨gas, hgas⟩ := Int.eq_ofNat_of_zero_le valid.nonneg
    have hlimit := valid.small
    rw [hgas] at hlimit ⊢
    cases hleft : increaseConsumedGas gas
        (request.otherGas + expansionCost size frame.memory.len) with
    | none => exact .inl ⟨_, rfl, .outOfGas⟩
    | some gasRemaining =>
      obtain ⟨hleft, hnonneg⟩ := increaseConsumedGas_eq_some (by omega) (by omega) hleft
      obtain ⟨hresize, hfull⟩ | ⟨memory, hmemory, allocated, hbase, hlen⟩ :=
        valid.allocated.resize hwords hle
      · rw [hresize]
        exact .inl ⟨_, rfl, .capacityOverflow hneeds hfull⟩
      rw [hmemory]
      refine .inr ⟨_, _, rfl, ⟨allocated, ?_, hnonneg, ?_⟩, hbase, hlen, ?_, ?_⟩
      · rw [hlen]
        exact max_le valid.len hle
      · show gasRemaining < 2 ^ 63
        omega
      · rw [hlen]
        exact hcharge
      · rw [hgas, hleft]
        push_cast
        rfl

/-- The charges that sizes asked for one after another add to `C` of the length before. -/
def increments (len : Nat) : List Nat → List Nat
  | [] => []
  | size :: sizes =>
    (memoryCost (max len size) - memoryCost len) :: increments (max len size) sizes

/-- What a frame has paid for, and how it ends, after any requests. -/
structure Settled (frame : MeteredFrame) (requests : List MemoryRequest)
    (result : List Expansion × MeteredFrame × Option MemoryHalt) : Prop where
  halt : ∀ halt, result.2.2 = some halt → ∃ request,
    requests[result.1.length]? = some request ∧ result.2.1.Halts request halt
  charges : result.1.map (·.charge) = increments frame.memory.len (result.1.map (·.size))
  len : result.2.1.memory.len = (result.1.map (·.size)).foldl max frame.memory.len
  gas : result.2.1.gasRemaining = frame.gasRemaining -
    (((requests.take result.1.length).map (·.otherGas)).sum + (result.1.map (·.charge)).sum)

theorem Valid.run (valid : frame.Valid) (requests : List MemoryRequest) :
    frame.Settled requests (frame.run requests) := by
  induction requests generalizing frame with
  | nil => exact ⟨nofun, rfl, rfl, by simp [MeteredFrame.run]⟩
  | cons request requests ih =>
    obtain ⟨halt, h, hhalt⟩ | ⟨expansion, frame', h, accepted⟩ := valid.request request
    · rw [MeteredFrame.run, h]
      refine ⟨?_, rfl, rfl, by simp⟩
      rintro _ ⟨⟩
      exact ⟨request, rfl, hhalt⟩
    · have settled := ih accepted.valid
      rw [MeteredFrame.run, h]
      refine ⟨settled.halt, ?_, ?_, ?_⟩
      · simp only [map_cons, increments, ← accepted.len, settled.charges]
        rw [accepted.charge]
      · simp only [map_cons, foldl_cons, ← accepted.len]
        exact settled.len
      simp only [length_cons, take_succ_cons, map_cons, sum_cons]
      rw [settled.gas, accepted.gas]
      push_cast
      omega

end MeteredFrame

end Ethrex.Levm
