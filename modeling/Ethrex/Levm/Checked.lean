import Mathlib

/-! Checked and wrapping arithmetic on the two integer widths that gas counters use. -/

namespace Ethrex.Levm

def okOr {ε α : Type} (e : ε) : Option α → Except ε α
  | some a => .ok a
  | none => .error e

theorem okOr_eq_ok {ε α : Type} {e : ε} {o : Option α} {a : α} :
    okOr e o = .ok a ↔ o = some a := by
  cases o <;> simp [okOr]

def checkedAddU64 (a b : Nat) : Option Nat :=
  if a + b < 2 ^ 64 then some (a + b) else none

def checkedAddU256 (a b : Nat) : Option Nat :=
  if a + b < 2 ^ 256 then some (a + b) else none

def checkedSubU256 (a b : Nat) : Option Nat :=
  if b ≤ a then some (a - b) else none

def checkedMulU256 (a b : Nat) : Option Nat :=
  if a * b < 2 ^ 256 then some (a * b) else none

def maxRefundQuotient : Nat := 5

def InI64 (a : Int) : Prop :=
  -2 ^ 63 ≤ a ∧ a < 2 ^ 63

instance (a : Int) : Decidable (InI64 a) :=
  inferInstanceAs (Decidable (_ ∧ _))

def asI64 (n : Nat) : Int :=
  (n : Int).bmod (2 ^ 64)

/-- Subtraction of `i64` values as a release build computes it. -/
def wrappingSubI64 (a b : Int) : Int :=
  (a - b).bmod (2 ^ 64)

/-- `CallFrame::increase_consumed_gas`; the counter is an `i64`. -/
def increaseConsumedGas (gasRemaining : Int) (gas : Nat) : Option Int :=
  let gasRemaining := wrappingSubI64 gasRemaining (asI64 gas)
  if gasRemaining < 0 then none else some gasRemaining

variable {a b c : Nat}

theorem checkedAddU64_of_lt (fits : a + b < 2 ^ 64) :
    checkedAddU64 a b = some (a + b) := if_pos fits

theorem checkedAddU256_of_lt (fits : a + b < 2 ^ 256) :
    checkedAddU256 a b = some (a + b) := if_pos fits

theorem checkedSubU256_of_le (covered : b ≤ a) : checkedSubU256 a b = some (a - b) := if_pos covered

theorem checkedMulU256_of_lt (fits : a * b < 2 ^ 256) :
    checkedMulU256 a b = some (a * b) := if_pos fits

theorem checkedAddU256_eq_some (h : checkedAddU256 a b = some c) : c = a + b ∧ c < 2 ^ 256 := by
  rw [checkedAddU256] at h
  split_ifs at h with fits
  cases h
  exact ⟨rfl, fits⟩

theorem checkedMulU256_eq_some (h : checkedMulU256 a b = some c) : c = a * b ∧ c < 2 ^ 256 := by
  rw [checkedMulU256] at h
  split_ifs at h with fits
  cases h
  exact ⟨rfl, fits⟩

theorem bmod_of_in {a : Int} (fits : InI64 a) : a.bmod (2 ^ 64) = a := by
  obtain ⟨low, high⟩ := fits
  rw [Int.bmod_eq_of_le_mul_two] <;> omega

theorem asI64_of_lt {n : Nat} (fits : n < 2 ^ 63) : asI64 n = n :=
  bmod_of_in ⟨by omega, by omega⟩

theorem wrappingSubI64_of_in {a b : Int} (fits : InI64 (a - b)) :
    wrappingSubI64 a b = a - b := bmod_of_in fits

theorem increaseConsumedGas_eq_some {gasRemaining gas : Nat} {left : Int}
    (hremaining : gasRemaining < 2 ^ 63) (hgas : gas < 2 ^ 63)
    (h : increaseConsumedGas gasRemaining gas = some left) : left = gasRemaining - gas ∧
      0 ≤ left := by
  have hdifference : wrappingSubI64 gasRemaining (asI64 gas) = gasRemaining - gas := by
    rw [asI64_of_lt hgas]
    exact wrappingSubI64_of_in ⟨by omega, by omega⟩
  simp only [increaseConsumedGas, hdifference] at h
  split at h
  · cases h
  · rename_i hnonneg
    cases h
    exact ⟨rfl, by omega⟩

end Ethrex.Levm
