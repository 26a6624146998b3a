import Ethrex.Levm.Memory
import Ethrex.Mpt.Error

/-!
# Private memories

A frame's memory is an array of its own that starts empty, grows by whole words and reads as zero
where nothing was written. The shared vector gives every frame that, as long as ranges stay within
the largest vector.
-/

namespace Ethrex.Levm

open List
open Mpt.Result (ok_bind)

open Arena (read write grow Layout length_read length_write length_grow grow_of_le write_nil
  write_append)

/-- The least multiple of `multiple` that is at least `n`. -/
def roundUp (n multiple : Nat) : Nat := (n + (multiple - 1)) / multiple * multiple

/-- A private memory after an operation used `size` bytes from `offset` on. -/
def touch (own : Bytes) (offset size : Nat) : Bytes :=
  if size = 0 then own else grow 0 own (roundUp (offset + size) 32)

def MemoryOp.extent : MemoryOp → Nat × Nat
  | .loadRange offset size | .withRange offset size | .storeZeros offset size => (offset, size)
  | .loadWord offset | .storeWord offset _ | .mload offset | .mstore offset _ => (offset, 32)
  | .storeData offset data => (offset, data.length)
  | .storeDataZeroPadded offset _ totalSize => (offset, totalSize)
  | .copyWithin fromOffset toOffset size => (max toOffset fromOffset, size)
  | .resize newMemorySize => (0, newMemorySize)
  | .liveBytes => (0, 0)

/-- An operation on a private memory that is already large enough. -/
def MemoryOp.onPrivate (own : Bytes) : MemoryOp → MemoryOutput × Bytes
  | .loadRange offset size | .withRange offset size => (.bytes (read own offset size), own)
  | .loadWord offset | .mload offset => (.word (Rlp.fromBeBytes (read own offset 32)), own)
  | .storeData offset data => (.none, write own offset data)
  | .storeDataZeroPadded offset data totalSize =>
    (.none, write own offset
      (data.take totalSize ++ List.replicate (totalSize - data.length) 0))
  | .storeWord offset word | .mstore offset word => (.none, write own offset (fixedBeBytes 32 word))
  | .storeZeros offset size => (.none, write own offset (List.replicate size 0))
  | .copyWithin fromOffset toOffset size =>
    (.none, write own toOffset (read own fromOffset size))
  | .resize _ => (.none, own)
  | .liveBytes => (.bytes own, own)

/-- The memories of the innermost frame and of its callers, each an array of its own. -/
structure PrivateMemory where
  current : Bytes
  callers : List Bytes
  deriving DecidableEq, Repr

namespace PrivateMemory

def new : PrivateMemory := { current := [], callers := [] }

def step (state : PrivateMemory) : MemoryAction → (MemoryOutput × Nat) × PrivateMemory
  | .enter => ((.none, 0), { current := [], callers := state.current :: state.callers })
  | .leave =>
    match state.callers with
    | [] => ((.none, 0), .new)
    | caller :: callers => ((.none, caller.length), { current := caller, callers })
  | .reclaim => ((.none, 0), .new)
  | .access op =>
    let (output, current) := op.onPrivate (touch state.current op.extent.1 op.extent.2)
    ((output, current.length), { state with current })

def run (state : PrivateMemory) : List MemoryAction → List (MemoryOutput × Nat)
  | [] => []
  | action :: actions =>
    let (seen, state) := state.step action
    seen :: state.run actions

end PrivateMemory

/-- The range an operation uses, rounded and counted from the start of the vector, ends within
`isize::MAX` bytes. -/
def Memory.Fits (memory : Memory) (offset size : Nat) : Prop :=
  size = 0 ∨ roundUp (memory.currentBase + roundUp (offset + size) 32) 64 ≤ isizeMax

instance (memory : Memory) (offset size : Nat) : Decidable (memory.Fits offset size) :=
  inferInstanceAs (Decidable (_ ∨ _))

def SharedMemory.Fits (state : SharedMemory) : MemoryAction → Prop
  | .access op => state.current.Fits op.extent.1 op.extent.2
  | _ => True

/-! ### Machine arithmetic within bounds -/

variable {a b : Nat}

theorem wrappingAdd_of_lt (fits : a + b < 2 ^ 64) : wrappingAdd a b = a + b :=
  Nat.mod_eq_of_lt fits

theorem okOr_checkedAddU64 (e : MemoryError) (fits : a + b < 2 ^ 64) :
    okOr e (checkedAddU64 a b) = .ok (a + b) := by
  rw [checkedAddU64_of_lt fits, okOr]

theorem checkedNextMultipleOf_words {n : Nat} (fits : roundUp n 32 ≤ isizeMax) :
    checkedNextMultipleOf n 32 = some (roundUp n 32) := by
  unfold isizeMax at fits
  unfold checkedNextMultipleOf
  unfold roundUp at fits ⊢
  split_ifs with exact
  · congr 1
    omega
  · rw [checkedAddU64_of_lt (by omega)]
    congr 1
    omega

theorem nextMultipleOf_eq_roundUp {n : Nat} (fits : roundUp n 64 ≤ isizeMax) :
    nextMultipleOf n 64 = roundUp n 64 := by
  unfold isizeMax at fits
  unfold nextMultipleOf
  unfold roundUp at fits ⊢
  split_ifs with exact
  · omega
  · rw [wrappingAdd_of_lt (by omega)]
    omega

theorem le_roundUp_words (n : Nat) : n ≤ roundUp n 32 := by
  unfold roundUp
  omega

theorem le_roundUp_lines (n : Nat) : n ≤ roundUp n 64 := by
  unfold roundUp
  omega

theorem le_length_touch {own : Bytes} {offset size : Nat} (some : size ≠ 0) :
    offset + size ≤ (touch own offset size).length := by
  have := le_roundUp_words (offset + size)
  rw [touch, if_neg some, length_grow]
  omega

@[simp] theorem touch_zero (own : Bytes) (offset : Nat) : touch own offset 0 = own := if_pos rfl

theorem read_touch_nil (offset size : Nat) :
    read (touch [] offset size) offset size = List.replicate size 0 := by
  rcases eq_or_ne size 0 with rfl | used
  · simp [Arena.read]
  have room := le_roundUp_words (offset + size)
  rw [touch, if_neg used, grow, Arena.read, nil_append, drop_replicate,
    take_replicate, length_nil]
  congr 1
  omega

/-! ### A frame's memory holds its private array -/

/-- The vector holds the innermost frame's private array at its base, above the arrays of the
other frames. -/
structure Memory.Holds (memory : Memory) (own : Bytes) (callers : List (Nat × Bytes)) : Prop where
  len : memory.len = own.length
  small : memory.buffer.length ≤ isizeMax
  layout : Layout 0 memory.buffer memory.buffer.length ((memory.currentBase, own) :: callers)

namespace Memory.Holds

variable {memory : Memory} {own : Bytes} {callers : List (Nat × Bytes)}

variable (holds : memory.Holds own callers)

include holds

theorem bound :
    memory.currentBase + own.length ≤ memory.buffer.length := holds.layout.1

variable {size offset : Nat} {data : Bytes}

theorem resizePrerounded (fits : roundUp (memory.currentBase + size) 64 ≤ isizeMax) :
    ∃ memory', memory.resizePrerounded size = .ok memory' ∧
      memory'.Holds (grow 0 own size) callers := by
  have above := le_roundUp_lines (memory.currentBase + size)
  have real : wrappingAdd size memory.currentBase = memory.currentBase + size := by
    rw [wrappingAdd_of_lt (by unfold isizeMax at fits; omega), Nat.add_comm]
  simp only [Memory.resizePrerounded, real]
  split_ifs with zero covered inside
  · exact ⟨memory, rfl, by rwa [grow_of_le (by omega)]⟩
  · exact ⟨memory, rfl, by rwa [grow_of_le (by rw [← holds.len]; exact covered)]⟩
  · -- The vector grows, with zeros, to the next multiple of 64.
    rw [nextMultipleOf_eq_roundUp fits, vecResize, if_pos fits,
      take_of_length_le (by omega)]
    refine ⟨_, rfl, ?_, ?_, ?_⟩
    · show size = _
      rw [length_grow, ← holds.len]
      omega
    · rw [length_grow]
      exact max_le holds.small fits
    · refine (holds.layout.grow_buffer _).grow_own ?_
      rw [length_grow]
      omega
  · -- An earlier callee has left the vector long enough, and zeroed.
    refine ⟨_, rfl, ?_, holds.small, holds.layout.grow_own (by omega)⟩
    show size = _
    rw [length_grow, ← holds.len]
    omega

/-- What every operation does first: the end of the range is computed and the memory is resized
to it. -/
theorem resize (fits : memory.Fits offset size) (used : size ≠ 0) (e : MemoryError) :
    okOr e (checkedAddU64 offset size) = .ok (offset + size) ∧
      ∃ memory', memory.resize (offset + size) = .ok memory' ∧
        memory'.Holds (touch own offset size) callers := by
  have bound := fits.resolve_left used
  have bytes := le_roundUp_words (offset + size)
  have words := le_roundUp_lines (memory.currentBase + roundUp (offset + size) 32)
  refine ⟨okOr_checkedAddU64 e (by unfold isizeMax at bound; omega), ?_⟩
  rw [touch, if_neg used, Memory.resize, if_neg (by omega),
    checkedNextMultipleOf_words (by omega)]
  exact holds.resizePrerounded bound

theorem no_wrap (inside : offset + size ≤ own.length) :
    memory.currentBase + (offset + size) < 2 ^ 64 := by
  have bound := holds.bound
  have small := holds.small
  unfold isizeMax at small
  omega

theorem wrappingAdd_base (inside : offset + size ≤ own.length) :
    wrappingAdd offset memory.currentBase = offset + memory.currentBase :=
  wrappingAdd_of_lt (by have := holds.no_wrap inside; omega)

theorem checkedAdd_base (inside : offset + size ≤ own.length) {e : MemoryError} :
    okOr e (checkedAddU64 offset memory.currentBase) = .ok (offset + memory.currentBase) :=
  okOr_checkedAddU64 e (by have := holds.no_wrap inside; omega)

theorem getUnchecked_eq (inside : offset + size ≤ own.length) :
    getUnchecked memory.buffer (offset + memory.currentBase)
      (wrappingAdd (offset + memory.currentBase) size) = .ok (read own offset size) := by
  have bound := holds.bound
  have fits := holds.no_wrap inside
  rw [wrappingAdd_of_lt (by omega), getUnchecked, if_pos ⟨by omega, by omega⟩,
    Nat.add_sub_cancel_left, Nat.add_comm, holds.layout.read_eq inside]

theorem write_buffer (inside : offset + data.length ≤ own.length) :
    { memory with
      buffer := write memory.buffer (memory.currentBase + offset) data }.Holds
        (write own offset data) callers := by
  have bound := holds.bound
  have same : (write memory.buffer (memory.currentBase + offset) data).length =
      memory.buffer.length := length_write (by omega)
  refine ⟨by rw [length_write inside, holds.len], by rw [same]; exact holds.small, ?_⟩
  rw [same]
  exact holds.layout.write le_rfl inside

theorem setUnchecked_eq (length : data.length = size) (inside : offset + size ≤ own.length) :
    setUnchecked memory.buffer (wrappingAdd memory.currentBase offset)
      (wrappingAdd (wrappingAdd memory.currentBase offset) size) data =
        .ok (write memory.buffer (memory.currentBase + offset) data) := by
  have bound := holds.bound
  have fits := holds.no_wrap inside
  rw [wrappingAdd_of_lt (by omega), wrappingAdd_of_lt (by omega), setUnchecked,
    if_pos ⟨by omega, by omega⟩]

theorem store (short : size ≤ data.length) (inside : offset + size ≤ own.length) :
    ∃ memory', memory.store data offset size = .ok memory' ∧
      memory'.Holds (write own offset (data.take size)) callers := by
  have length : (data.take size).length = size := length_take_of_le short
  unfold Memory.store
  split_ifs with none
  · subst none
    exact ⟨memory, rfl, by rwa [take_zero, write_nil]⟩
  · rw [min_eq_left short]
    simp only [holds.setUnchecked_eq length inside, ok_bind]
    exact ⟨_, rfl, holds.write_buffer (by omega)⟩

theorem storeBytes (length : data.length = size) (inside : offset + size ≤ own.length) :
    ∃ memory', memory.store data offset size = .ok memory' ∧
      memory'.Holds (write own offset data) callers := by
  have stored := holds.store length.ge inside
  rwa [take_of_length_le length.le] at stored

omit holds

theorem fillZeros (holds : memory.Holds own callers) (inside : offset + size ≤ own.length) :
    ∃ memory', memory.fillZeros offset size = .ok memory' ∧
      memory'.Holds (write own offset (List.replicate size 0)) callers := by
  have length : (List.replicate size (0 : UInt8)).length = size := length_replicate
  simp only [Memory.fillZeros, holds.setUnchecked_eq length inside, ok_bind]
  exact ⟨_, rfl, holds.write_buffer (by omega)⟩

theorem loadRange (holds : memory.Holds own callers) (fits : memory.Fits offset size) :
    ∃ memory', memory.loadRange offset size =
        .ok (read (touch own offset size) offset size, memory') ∧
      memory'.Holds (touch own offset size) callers := by
  unfold Memory.loadRange
  split_ifs with none
  · subst none
    exact ⟨memory, by simp [Arena.read], by rwa [touch_zero]⟩
  obtain ⟨checked, memory', resized, holds'⟩ := holds.resize fits none .outOfBounds
  have inside := @le_length_touch own offset size none
  simp only [checked, resized, ok_bind, holds'.wrappingAdd_base inside,
    holds'.getUnchecked_eq inside]
  exact ⟨memory', rfl, holds'⟩

theorem resizeTo (holds : memory.Holds own callers) (fits : memory.Fits 0 size) :
    ∃ memory', memory.resize size = .ok memory' ∧ memory'.Holds (touch own 0 size) callers := by
  rcases eq_or_ne size 0 with rfl | used
  · exact ⟨memory, rfl, by rwa [touch_zero]⟩
  · have resized := (holds.resize fits used .outOfBounds).2
    rwa [Nat.zero_add] at resized

theorem withRange_eq {ρ : Type} (memory : Memory) (offset size : Nat) (f : Bytes → ρ) :
    memory.withRange offset size f =
      (memory.loadRange offset size).map fun r => (f r.1, r.2) := by
  unfold Memory.withRange Memory.loadRange
  split_ifs with none
  · rfl
  cases okOr MemoryError.outOfBounds (checkedAddU64 offset size) with
  | error e => rfl
  | ok newSize =>
    simp only [ok_bind]
    cases memory.resize newSize with
    | error e => rfl
    | ok memory =>
      simp only [ok_bind]
      cases getUnchecked memory.buffer (wrappingAdd offset memory.currentBase)
        (wrappingAdd (wrappingAdd offset memory.currentBase) size) <;> rfl

theorem loadWord (holds : memory.Holds own callers) (fits : memory.Fits offset 32) :
    ∃ memory', memory.loadWord offset =
        .ok (Rlp.fromBeBytes (read (touch own offset 32) offset 32), memory') ∧
      memory'.Holds (touch own offset 32) callers := by
  obtain ⟨checked, memory', resized, holds'⟩ := holds.resize fits (by decide) .outOfBounds
  have inside := @le_length_touch own offset 32 (by decide)
  simp only [Memory.loadWord, Memory.loadRangeConst, checked, resized, ok_bind,
    holds'.checkedAdd_base inside, holds'.getUnchecked_eq inside]
  exact ⟨memory', rfl, holds'⟩

theorem storeData (holds : memory.Holds own callers) (fits : memory.Fits offset data.length) :
    ∃ memory', memory.storeData offset data = .ok memory' ∧
      memory'.Holds (write (touch own offset data.length) offset data) callers := by
  unfold Memory.storeData
  split_ifs with none
  · rw [List.isEmpty_iff.1 none]
    exact ⟨memory, rfl, by rwa [write_nil, length_nil, touch_zero]⟩
  have used : data.length ≠ 0 := fun zero => none (by simp [length_eq_zero_iff.1 zero])
  obtain ⟨checked, memory', resized, holds'⟩ := holds.resize fits used .outOfBounds
  simp only [checked, resized, ok_bind]
  exact holds'.storeBytes rfl (le_length_touch used)

theorem storeZeros (holds : memory.Holds own callers) (fits : memory.Fits offset size) :
    ∃ memory', memory.storeZeros offset size = .ok memory' ∧
      memory'.Holds (write (touch own offset size) offset (List.replicate size 0)) callers := by
  unfold Memory.storeZeros
  split_ifs with none
  · subst none
    exact ⟨memory, rfl, by rwa [replicate_zero, write_nil, touch_zero]⟩
  obtain ⟨checked, memory', resized, holds'⟩ := holds.resize fits none .outOfBounds
  simp only [checked, resized, ok_bind]
  exact holds'.fillZeros (le_length_touch none)

theorem storeDataZeroPadded (holds : memory.Holds own callers) {totalSize : Nat}
    (fits : memory.Fits offset totalSize) :
    ∃ memory', memory.storeDataZeroPadded offset data totalSize = .ok memory' ∧
      memory'.Holds (write (touch own offset totalSize) offset
        (data.take totalSize ++ List.replicate (totalSize - data.length) 0)) callers := by
  unfold Memory.storeDataZeroPadded
  split_ifs with none
  · subst none
    exact ⟨memory, rfl, by simpa [write_nil] using holds⟩
  obtain ⟨checked, memory₁, resized, holds₁⟩ := holds.resize fits none .outOfBounds
  have inside := @le_length_touch own offset totalSize none
  have room := holds₁.no_wrap inside
  simp only [checked, resized, ok_bind]
  obtain ⟨memory₂, stored, holds₂⟩ := holds₁.store (min_le_left data.length totalSize)
    (show offset + min data.length totalSize ≤ _ by omega)
  have copied : (if min data.length totalSize > 0 then
      memory₁.store data offset (min data.length totalSize) else .ok memory₁) = .ok memory₂ := by
    split_ifs with some
    · exact stored
    · rw [← stored, Memory.store, if_pos (by omega)]
  have part : (data.take (min data.length totalSize)).length = min data.length totalSize :=
    length_take_of_le (min_le_left ..)
  simp only [copied, ok_bind]
  split_ifs with short
  · obtain ⟨memory₃, filled, holds₃⟩ := @fillZeros _ _ _ (totalSize - min data.length totalSize)
      (offset + min data.length totalSize) holds₂ (by rw [length_write (by omega)]; omega)
    rw [wrappingAdd_of_lt (by omega)]
    refine ⟨memory₃, filled, ?_⟩
    have whole : min data.length totalSize = data.length := by omega
    rw [whole, take_length, write_append (by simp; omega)] at holds₃
    rwa [take_of_length_le (by omega)]
  · refine ⟨memory₂, rfl, ?_⟩
    have whole : min data.length totalSize = totalSize := by omega
    rw [whole] at holds₂
    rwa [Nat.sub_eq_zero_of_le (by omega), replicate_zero, append_nil]

theorem storeWord (holds : memory.Holds own callers) {word : U256} (fits : memory.Fits offset 32) :
    ∃ memory', memory.storeWord offset word = .ok memory' ∧
      memory'.Holds (write (touch own offset 32) offset (fixedBeBytes 32 word)) callers := by
  obtain ⟨checked, memory', resized, holds'⟩ := holds.resize fits (by decide) .outOfBounds
  simp only [Memory.storeWord, checked, resized, ok_bind]
  exact holds'.storeBytes (length_fixedBeBytes 32 word) (le_length_touch (by decide))

theorem copyWithin (holds : memory.Holds own callers) {fromOffset toOffset : Nat}
    (fits : memory.Fits (max toOffset fromOffset) size) :
    ∃ memory', memory.copyWithin fromOffset toOffset size = .ok memory' ∧
      memory'.Holds
        (write (touch own (max toOffset fromOffset) size) toOffset
          (read (touch own (max toOffset fromOffset) size) fromOffset size)) callers := by
  unfold Memory.copyWithin
  split_ifs with none
  · subst none
    exact ⟨memory, rfl, by simpa [Arena.read, write_nil] using holds⟩
  obtain ⟨checked, memory', resized, holds'⟩ := holds.resize fits none .overflow
  have inside := @le_length_touch own (max toOffset fromOffset) size none
  have source : fromOffset + size ≤ (touch own (max toOffset fromOffset) size).length := by omega
  have target : toOffset + size ≤ (touch own (max toOffset fromOffset) size).length := by omega
  have bound := holds'.bound
  have room := holds'.no_wrap source
  have length := length_read source
  simp only [checked, resized, ok_bind, holds'.checkedAdd_base source,
    holds'.checkedAdd_base target,
    okOr_checkedAddU64 .overflow (by omega : fromOffset + memory'.currentBase + size < 2 ^ 64)]
  rw [sliceCopyWithin, if_pos ⟨by omega, by omega, by omega⟩, Nat.add_sub_cancel_left,
    Nat.add_comm fromOffset, holds'.layout.read_eq source, Nat.add_comm toOffset]
  exact ⟨_, rfl, holds'.write_buffer (by omega)⟩

theorem resize_calculated (holds : memory.Holds own callers) (fits : memory.Fits offset 32) :
    ∃ newSize memory', calculateMemorySize offset 32 = .ok newSize ∧
      memory.resizePrerounded newSize = .ok memory' ∧
      memory'.Holds (touch own offset 32) callers := by
  have bound := fits.resolve_left (by decide)
  have words := le_roundUp_lines (memory.currentBase + roundUp (offset + 32) 32)
  have bytes := le_roundUp_words (offset + 32)
  obtain ⟨memory', resized, holds'⟩ := holds.resizePrerounded bound
  refine ⟨roundUp (offset + 32) 32, memory', ?_, resized, holds'⟩
  rw [calculateMemorySize, if_neg (by decide),
    checkedAddU64_of_lt (by unfold isizeMax at bound; omega), Option.bind_some,
    checkedNextMultipleOf_words (by omega), okOr]

theorem liveBytes (holds : memory.Holds own callers) : memory.liveBytes = own := by
  have bound := holds.bound
  have whole := holds.layout.read_eq (Nat.zero_add own.length).le
  rw [Nat.add_zero] at whole
  rw [Memory.liveBytes, holds.len, if_pos bound, whole]
  split_ifs with none
  · exact (length_eq_zero_iff.1 none).symm
  · simp [Arena.read]

theorem apply (holds : memory.Holds own callers) {op : MemoryOp}
    (fits : memory.Fits op.extent.1 op.extent.2) :
    ∃ memory', memory.apply op =
        .ok ((op.onPrivate (touch own op.extent.1 op.extent.2)).1, memory') ∧
      memory'.Holds (op.onPrivate (touch own op.extent.1 op.extent.2)).2 callers := by
  cases op with
  | loadRange offset size =>
    obtain ⟨memory', done, holds'⟩ := @loadRange _ _ _ size offset holds fits
    exact ⟨memory', by rw [Memory.apply, done]; rfl, holds'⟩
  | withRange offset size =>
    obtain ⟨memory', done, holds'⟩ := @loadRange _ _ _ size offset holds fits
    exact ⟨memory', by rw [Memory.apply, withRange_eq, done]; rfl, holds'⟩
  | loadWord offset =>
    obtain ⟨memory', done, holds'⟩ := @loadWord _ _ _ offset holds fits
    exact ⟨memory', by rw [Memory.apply, done]; rfl, holds'⟩
  | storeData offset data =>
    obtain ⟨memory', done, holds'⟩ := @storeData _ _ _ offset data holds fits
    exact ⟨memory', by rw [Memory.apply, done]; rfl, holds'⟩
  | storeDataZeroPadded offset data totalSize =>
    obtain ⟨memory', done, holds'⟩ := @storeDataZeroPadded _ _ _ offset data holds totalSize fits
    exact ⟨memory', by rw [Memory.apply, done]; rfl, holds'⟩
  | storeWord offset word =>
    obtain ⟨memory', done, holds'⟩ := @storeWord _ _ _ offset holds word fits
    exact ⟨memory', by rw [Memory.apply, done]; rfl, holds'⟩
  | storeZeros offset size =>
    obtain ⟨memory', done, holds'⟩ := @storeZeros _ _ _ size offset holds fits
    exact ⟨memory', by rw [Memory.apply, done]; rfl, holds'⟩
  | copyWithin fromOffset toOffset size =>
    obtain ⟨memory', done, holds'⟩ := @copyWithin _ _ _ size holds fromOffset toOffset fits
    exact ⟨memory', by rw [Memory.apply, done]; rfl, holds'⟩
  | resize newMemorySize =>
    obtain ⟨memory', done, holds'⟩ := @resizeTo _ _ _ newMemorySize holds fits
    exact ⟨memory', by rw [Memory.apply, done]; rfl, holds'⟩
  | mload offset =>
    obtain ⟨newSize, memory', calculated, resized, holds'⟩ :=
      @resize_calculated _ _ _ offset holds fits
    have inside := @le_length_touch own offset 32 (by decide)
    refine ⟨memory', ?_, holds'⟩
    simp only [Memory.apply, Memory.loadWordPrerounded, calculated, resized, ok_bind,
      holds'.checkedAdd_base inside, holds'.getUnchecked_eq inside]
    rfl
  | mstore offset word =>
    obtain ⟨newSize, memory', calculated, resized, holds'⟩ :=
      @resize_calculated _ _ _ offset holds fits
    obtain ⟨memory'', stored, holds''⟩ := holds'.storeBytes (length_fixedBeBytes 32 word)
      (le_length_touch (by decide))
    refine ⟨memory'', ?_, holds''⟩
    simp only [Memory.apply, Memory.storeWordPrerounded, calculated, resized, stored,
      ok_bind]
    rfl
  | liveBytes => exact ⟨memory, by rw [Memory.apply, holds.liveBytes]; rfl, holds⟩

end Memory.Holds

/-! ### The frames of a transaction -/

def suspendedRegions (callers : List SuspendedMemory) (owns : List Bytes) : List (Nat × Bytes) :=
  List.zipWith (fun caller own => (caller.currentBase, own)) callers owns

/-- The shared vector holds every frame's private array. -/
structure SharedMemory.Refines (shared : SharedMemory) (state : PrivateMemory) : Prop where
  current : shared.current.Holds state.current (suspendedRegions shared.callers state.callers)
  lens : List.Forall₂ (fun caller own => caller.len = own.length) shared.callers state.callers

namespace SharedMemory.Refines

variable {shared : SharedMemory} {state : PrivateMemory}

theorem new : SharedMemory.new.Refines .new :=
  ⟨⟨rfl, Nat.zero_le _, ⟨le_rfl, by simp [PrivateMemory.new], by simp [SharedMemory.new, Memory.new],
    by simp [suspendedRegions, SharedMemory.new, Memory.new, Layout]⟩⟩, .nil⟩

theorem released {memory : Memory} {own : Bytes} {regions : List (Nat × Bytes)} (riscv64 : Bool)
    (holds : memory.Holds own regions) :
    ∃ buffer, SharedMemory.released riscv64 memory = .ok buffer ∧ buffer.length ≤ isizeMax ∧
      Layout 0 buffer buffer.length regions := by
  have bound := holds.bound
  have small := holds.small
  cases riscv64 with
  | true =>
    have length : (memory.buffer.take memory.currentBase).length = memory.currentBase :=
      length_take_of_le (by omega)
    refine ⟨_, rfl, ?_, ?_⟩
    · rw [Memory.truncateToBase, length]
      omega
    · rw [Memory.truncateToBase, length]
      exact holds.layout.pop_take
  | false =>
    have length : (write memory.buffer memory.currentBase
        (List.replicate memory.len 0)).length = memory.buffer.length :=
      length_write (by rw [length_replicate, holds.len]; exact bound)
    refine ⟨write memory.buffer memory.currentBase (List.replicate memory.len 0), ?_, ?_, ?_⟩
    · show memory.cleanFromBase = _
      rw [Memory.cleanFromBase, holds.len,
        wrappingAdd_of_lt (by unfold isizeMax at small; omega), setUnchecked,
        if_pos ⟨by omega, bound⟩]
    · rw [length]
      exact small
    · rw [length, holds.len]
      exact holds.layout.pop_fill le_rfl

theorem step (refines : shared.Refines state) (riscv64 : Bool) {action : MemoryAction}
    (fits : shared.Fits action) :
    ∃ shared', shared.step riscv64 action = .ok ((state.step action).1, shared') ∧
      shared'.Refines (state.step action).2 := by
  obtain ⟨holds, lens⟩ := refines
  cases action with
  | enter =>
    exact ⟨_, rfl, ⟨rfl, holds.small, holds.layout.push⟩, .cons holds.len lens⟩
  | leave =>
    obtain ⟨current, callers⟩ := shared
    obtain ⟨own, owns⟩ := state
    cases lens with
    | nil => exact ⟨_, rfl, new⟩
    | @cons caller callerOwn callers owns len lens =>
      obtain ⟨buffer, done, small, layout⟩ := released riscv64 holds
      simp only [SharedMemory.step, done, ok_bind]
      exact ⟨{ current := { buffer, len := caller.len, currentBase := caller.currentBase }, callers },
        by rw [len]; rfl, ⟨len, small, layout⟩, lens⟩
  | reclaim => exact ⟨_, rfl, new⟩
  | access op =>
    obtain ⟨current, done, holds'⟩ := holds.apply fits
    simp only [SharedMemory.step, done, ok_bind]
    exact ⟨{ shared with current }, by rw [holds'.len]; rfl, holds', lens⟩

end SharedMemory.Refines

def SharedMemory.FitsAll (riscv64 : Bool) : SharedMemory → List MemoryAction → Prop
  | _, [] => True
  | shared, action :: actions =>
    shared.Fits action ∧
      match shared.step riscv64 action with
      | .ok (_, next) => next.FitsAll riscv64 actions
      | .error _ => True

instance (shared : SharedMemory) : (action : MemoryAction) → Decidable (shared.Fits action)
  | .access op => inferInstanceAs (Decidable (shared.current.Fits op.extent.1 op.extent.2))
  | .enter | .leave | .reclaim => isTrue trivial

instance decidableFitsAll (riscv64 : Bool) : (shared : SharedMemory) →
    (actions : List MemoryAction) → Decidable (shared.FitsAll riscv64 actions)
  | _, [] => isTrue trivial
  | shared, action :: actions =>
    have : Decidable (match shared.step riscv64 action with
        | .ok (_, next) => next.FitsAll riscv64 actions
        | .error _ => True) :=
      match shared.step riscv64 action with
      | .ok (_, next) => decidableFitsAll riscv64 next actions
      | .error _ => isTrue trivial
    inferInstanceAs (Decidable (_ ∧ _))

theorem SharedMemory.Refines.run {shared : SharedMemory} {state : PrivateMemory}
    (refines : shared.Refines state) (riscv64 : Bool) {actions : List MemoryAction}
    (fits : shared.FitsAll riscv64 actions) :
    ∃ shared', shared.run riscv64 actions = .ok (state.run actions, shared') := by
  induction actions generalizing shared state with
  | nil => exact ⟨shared, rfl⟩
  | cons action actions ih =>
    obtain ⟨now, later⟩ := fits
    obtain ⟨next, stepped, refines'⟩ := refines.step riscv64 now
    rw [stepped] at later
    obtain ⟨final, ran⟩ := ih refines' later
    refine ⟨final, ?_⟩
    simp only [SharedMemory.run, stepped, ran, ok_bind]
    rfl

/-- Frames that share one vector see what frames with memories of their own see: for every sequence
of calls, returns, reuses and accesses that fit, nothing fails, no access leaves the vector, and
every frame reads the same bytes and length. -/
theorem SharedMemory.run_eq_private (riscv64 : Bool) (actions : List MemoryAction)
    (fits : SharedMemory.new.FitsAll riscv64 actions) :
    ∃ final, SharedMemory.new.run riscv64 actions = .ok (PrivateMemory.new.run actions, final) :=
  SharedMemory.Refines.new.run riscv64 fits

/-- Two calls, one of which returns before the other is made, and a second transaction. -/
theorem SharedMemory.run_eq_private_calls :
    ∃ final, SharedMemory.new.run false
      [.access (.mstore 0 7), .enter, .access (.storeData 40 [1, 2, 3]), .leave, .enter,
        .access (.loadRange 0 96), .leave, .access (.loadWord 32), .leave,
        .access (.loadRange 0 32)] =
      .ok (PrivateMemory.new.run
        [.access (.mstore 0 7), .enter, .access (.storeData 40 [1, 2, 3]), .leave, .enter,
          .access (.loadRange 0 96), .leave, .access (.loadWord 32), .leave,
          .access (.loadRange 0 32)], final) :=
  SharedMemory.run_eq_private _ _ (by decide +kernel)

/-- The size of a memory is added to its base unchecked. Near the top of the address range the sum
wraps around, the vector is not grown, and a callee reads its caller's memory, or outside of the
vector. -/
theorem SharedMemory.run_wraps_around :
    (SharedMemory.new.run false [.access (.storeData 0 [7]), .enter,
        .access (.loadRange (2 ^ 64 - 64) 1)]).map Prod.fst ≠
      .ok (PrivateMemory.new.run [.access (.storeData 0 [7]), .enter,
        .access (.loadRange (2 ^ 64 - 64) 1)]) ∧
    (SharedMemory.new.run false [.access (.storeData 0 [7]), .enter,
        .access (.loadRange (2 ^ 64 - 96) 64)]).map Prod.fst = .error .undefined := by
  refine ⟨?_, by decide +kernel⟩
  have seen : (SharedMemory.new.run false [.access (.storeData 0 [7]), .enter,
      .access (.loadRange (2 ^ 64 - 64) 1)]).map Prod.fst =
        .ok [(.none, 32), (.none, 0), (.bytes [7], 2 ^ 64 - 32)] := by decide +kernel
  rw [seen]
  intro same
  have third := congrArg (·[2]?) (Except.ok.inj same)
  have zero : ∀ offset, read (touch [] offset 1) offset 1 = [0] := fun offset =>
    read_touch_nil offset 1
  simp only [PrivateMemory.run, PrivateMemory.step, MemoryOp.extent, MemoryOp.onPrivate, zero,
    getElem?_cons_succ, getElem?_cons_zero, Option.some.injEq, Prod.mk.injEq,
    MemoryOutput.bytes.injEq] at third
  exact absurd third.1 (by decide)

end Ethrex.Levm
