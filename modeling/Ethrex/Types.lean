import Mathlib

/-!
# Byte strings and hashes

The byte buffers and the 32-byte hash type that every part of the node shares.
-/

namespace Ethrex

/-- A byte buffer (`Vec<u8>` or `&[u8]`). -/
abbrev Bytes := List UInt8

instance linearOrderUInt8 : LinearOrder UInt8 where
  le_refl := UInt8.le_refl
  le_trans _ _ _ := UInt8.le_trans
  lt_iff_le_not_ge a b := by
    rw [UInt8.not_le]
    exact ⟨fun h => ⟨UInt8.le_of_lt h, h⟩, fun h => h.2⟩
  le_antisymm _ _ := UInt8.le_antisymm
  le_total := UInt8.le_total
  toDecidableLE := inferInstance
  toDecidableEq := inferInstance
  toDecidableLT := inferInstance
  toOrd := inferInstance
  compare_eq_compareOfLessAndEq _ _ := rfl

/-- `H256`: 32 bytes, ordered lexicographically. -/
structure H256 where
  bytes : Bytes
  size : bytes.length = 32
  deriving DecidableEq, Repr

namespace H256

theorem bytes_injective : Function.Injective bytes := by
  rintro ⟨a, ha⟩ ⟨b, hb⟩ h
  cases h
  rfl

instance : LinearOrder H256 := LinearOrder.lift' bytes bytes_injective

def ofNat (n : Nat) : H256 where
  bytes := (List.range 32).map fun i => UInt8.ofNat (n >>> (8 * (31 - i)))
  size := by simp

def repeatByte (b : UInt8) : H256 := ⟨List.replicate 32 b, by simp⟩

end H256

/-- `Address`: 20 bytes, ordered as the number that they write. -/
abbrev Address := Fin (2 ^ 160)

abbrev U256 := Fin (2 ^ 256)

/-- `u64`; the arithmetic operators wrap around. -/
abbrev U64 := Fin (2 ^ 64)

instance neZeroAddress : NeZero (2 ^ 160) := ⟨by positivity⟩

instance neZeroU256 : NeZero (2 ^ 256) := ⟨by positivity⟩

instance neZeroU64 : NeZero (2 ^ 64) := ⟨by positivity⟩

instance transOrdAddress : Std.TransOrd Address := inferInstance

instance transOrdU64 : Std.TransOrd U64 := inferInstance

instance transOrdU256 : Std.TransOrd U256 := inferInstance

theorem bind_eq_ok {ε α β : Type} {x : Except ε α} {f : α → Except ε β} {b : β} :
    (x >>= f) = .ok b ↔ ∃ a, x = .ok a ∧ f a = .ok b := by
  cases x with
  | error e => simp [bind, Except.bind]
  | ok a => simp [bind, Except.bind]

theorem map_eq_ok {ε α β : Type} {x : Except ε α} {f : α → β} {b : β} :
    x.map f = .ok b ↔ ∃ a, x = .ok a ∧ f a = b := by
  cases x with
  | error e => simp [Except.map]
  | ok a => simp [Except.map]

theorem bind_eq_error {ε α β : Type} {x : Except ε α} {f : α → Except ε β} {e : ε} :
    (x >>= f) = .error e ↔ x = .error e ∨ ∃ a, x = .ok a ∧ f a = .error e := by
  cases x with
  | error e' => simp [bind, Except.bind]
  | ok a => simp [bind, Except.bind]

/-- What holds at every position of a list holds at every step of a run through it. -/
theorem forall_step {α : Type} {xs : List α} {P : List α → α → Prop}
    (holds : ∀ i : Fin xs.length, P (xs.take i) xs[i]) :
    ∀ done x, done ++ [x] <+: xs → P done x := by
  rintro done x ⟨rest, rfl⟩
  simpa [List.take_append] using holds ⟨done.length, by simp⟩

/-- A byte array of a fixed size (`[u8; N]`). -/
abbrev FixedBytes (n : Nat) := { bytes : Bytes // bytes.length = n }

/-- The array of zero bytes, such as `Bloom::zero`. -/
def FixedBytes.zero (n : Nat) : FixedBytes n := ⟨List.replicate n 0, List.length_replicate⟩

def fixedBeBytes (width n : Nat) : Bytes :=
  (List.range width).map fun i => UInt8.ofNat (n >>> (8 * (width - 1 - i)))

theorem length_fixedBeBytes (width n : Nat) : (fixedBeBytes width n).length = width := by
  simp [fixedBeBytes]

def keccakTable (table : List (Bytes × H256)) (data : Bytes) : H256 :=
  (table.lookup data).getD ⟨List.replicate 32 0, rfl⟩

theorem keccakTable_nil (data : Bytes) :
    keccakTable [] data = ⟨List.replicate 32 0, rfl⟩ := rfl

theorem keccakTable_cons (key : Bytes) (hash : H256) (table : List (Bytes × H256))
    (data : Bytes) :
    keccakTable ((key, hash) :: table) data =
      if data = key then hash else keccakTable table data := by
  by_cases h : data = key
  · simp [keccakTable, h]
  · simp [keccakTable, List.lookup, h, beq_eq_false_iff_ne.2 h]

variable {table : List (Bytes × H256)}

theorem keccakTable_ne {hash : H256} (htable : ∀ e ∈ table, e.2 ≠ hash)
    (hzero : hash ≠ .repeatByte 0) (data : Bytes) : keccakTable table data ≠ hash := by
  induction table with
  | nil => exact hzero.symm
  | cons e table ih =>
    rw [keccakTable_cons]
    split
    · exact htable e (by simp)
    · exact ih fun e' he' => htable e' (by simp [he'])

theorem keccakTable_of_mem {x : Bytes} (h : x ∈ table.map Prod.fst) :
    ∃ e ∈ table, e.1 = x ∧ keccakTable table x = e.2 := by
  induction table with
  | nil => simp at h
  | cons e table ih =>
    obtain ⟨key, hash⟩ := e
    rw [keccakTable_cons]
    by_cases hx : x = key
    · exact ⟨(key, hash), by simp, hx.symm, if_pos hx⟩
    · obtain ⟨e, he, hkey, hhash⟩ := ih (by simpa [hx] using h)
      exact ⟨e, by simp [he], hkey, by rw [if_neg hx, hhash]⟩

theorem keccakTable_injOn (h : (table.map Prod.snd).Nodup) :
    Set.InjOn (keccakTable table) {x | x ∈ table.map Prod.fst} := by
  intro x hx y hy heq
  obtain ⟨e, he, rfl, hhash⟩ := keccakTable_of_mem hx
  obtain ⟨e', he', rfl, hhash'⟩ := keccakTable_of_mem hy
  rw [hhash, hhash'] at heq
  rw [List.inj_on_of_nodup_map h he he' heq]

end Ethrex
