import Ethrex.Types

/-!
# The base fee of blob gas

`fake_exponential` adds up the terms of a Taylor series with checked 256-bit arithmetic. The exact
terms are natural numbers.
-/

namespace Ethrex

open Finset

def minBaseFeePerBlobGas : Nat := 1

/-- The failures of `fake_exponential`; `panic` is an overflow of the plain `+=` on the
denominator. -/
inductive FakeExponentialError where
  | denominatorIsZero
  | checkedMul
  | checkedAdd
  | panic
  deriving DecidableEq, Repr

abbrev FitsU256 (n : Nat) : Prop := n < 2 ^ 256

/-- The loop of `fake_exponential`. The output grows in every turn, and so the loop ends. -/
def fakeExponentialLoop (numerator denominator output numeratorAccum denominatorByI : Nat) :
    Except FakeExponentialError Nat :=
  if numeratorAccum = 0 then .ok (output / denominator)
  else if ¬FitsU256 (output + numeratorAccum) then .error .checkedAdd
  else if ¬FitsU256 (numeratorAccum * numerator) then .error .checkedMul
  else if ¬FitsU256 (denominatorByI + denominator) then .error .panic
  else fakeExponentialLoop numerator denominator (output + numeratorAccum)
    (numeratorAccum * numerator / denominatorByI) (denominatorByI + denominator)
termination_by 2 ^ 256 - output

def fakeExponential (factor numerator : U256) (denominator : U64) :
    Except FakeExponentialError Nat :=
  if denominator.val = 0 then .error .denominatorIsZero
  else if numerator.val = 0 then .ok factor
  else if ¬FitsU256 (factor * denominator) then .error .checkedMul
  else fakeExponentialLoop numerator denominator 0 (factor * denominator) denominator

def calculateBaseFeePerBlobGas (parentExcessBlobGas updateFraction : U64) : Nat :=
  if updateFraction.val = 0 then 0
  else
    match fakeExponential (Fin.ofNat _ minBaseFeePerBlobGas) (Fin.ofNat _ parentExcessBlobGas)
      updateFraction with
    | .ok fee => fee
    | .error _ => 0

/-! ### The exact sum -/

/-- The sum of EIP-4844 over natural numbers. -/
structure Taylor where
  first : Nat
  numerator : Nat
  denominator : Nat

namespace Taylor

def term (t : Taylor) : Nat → Nat
  | 0 => t.first
  | i + 1 => t.term i * t.numerator / (t.denominator * (i + 1))

def sum (t : Taylor) (n : Nat) : Nat := ∑ i ∈ range n, t.term i

/-- The sum before the term `n`, which is zero, and its products fit in 256 bits. -/
structure Exact (t : Taylor) (n : Nat) : Prop where
  last : t.term n = 0
  sum : FitsU256 (t.sum n)
  product : ∀ i < n, FitsU256 (t.term i * t.numerator)

section

variable {t : Taylor} {i n m : Nat}

theorem sum_succ (t : Taylor) (n : Nat) : t.sum (n + 1) = t.sum n + t.term n := sum_range_succ ..

theorem sum_le (le : n ≤ m) : t.sum n ≤ t.sum m := sum_le_sum_of_subset (range_mono le)

theorem sum_add_of_term (zero : t.term n = 0) (k : Nat) :
    t.term (n + k) = 0 ∧ t.sum (n + k) = t.sum n := by
  induction k with
  | zero => exact ⟨zero, rfl⟩
  | succ k ih =>
    rw [← Nat.add_assoc, sum_succ, ih.1, ih.2, term, ih.1]
    simp

theorem Exact.sum_eq (exact' : t.Exact n) (other : t.Exact m) : t.sum n = t.sum m := by
  rcases Nat.le_total n m with le | le
  · obtain ⟨k, rfl⟩ := Nat.exists_eq_add_of_le le
    exact (sum_add_of_term exact'.last k).2.symm
  · obtain ⟨k, rfl⟩ := Nat.exists_eq_add_of_le le
    exact (sum_add_of_term other.last k).2

variable {numerator : Nat}

theorem term_mono (le : numerator ≤ t.numerator) (i : Nat) :
    { t with numerator }.term i ≤ t.term i := by
  induction i with
  | zero => exact le_rfl
  | succ i ih => exact Nat.div_le_div_right (Nat.mul_le_mul ih le)

theorem sum_mono (le : numerator ≤ t.numerator) (n : Nat) :
    { t with numerator }.sum n ≤ t.sum n :=
  sum_le_sum fun i _ => term_mono le i

theorem Exact.mono (exact' : t.Exact n) (le : numerator ≤ t.numerator) :
    { t with numerator }.Exact n where
  last := Nat.le_zero.1 (exact'.last ▸ term_mono le n)
  sum := (sum_mono le n).trans_lt exact'.sum
  product i hi := (Nat.mul_le_mul (term_mono le i) le).trans_lt (exact'.product i hi)

/-! ### The number of turns -/

/-- The turns of the loop before `i` went through. -/
def Running (t : Taylor) (i : Nat) : Prop :=
  ∀ j < i, t.term j ≠ 0 ∧ FitsU256 (t.sum (j + 1)) ∧ FitsU256 (t.term j * t.numerator)

theorem Running.term_lt (running : t.Running n) (lt : i < n) : t.term i < 2 ^ 256 := by
  have fits := (running i lt).2.1
  rw [sum_succ] at fits
  exact (Nat.le_add_left _ _).trans_lt fits

/-- With a large numerator the terms double. -/
theorem two_pow_le_term (pos : 0 < t.denominator) (large : 514 * t.denominator ≤ t.numerator)
    (start : t.first ≠ 0) (le : i ≤ 257) : 2 ^ i ≤ t.term i := by
  induction i with
  | zero => exact Nat.pos_of_ne_zero start
  | succ i ih =>
    rw [term, Nat.le_div_iff_mul_le (by positivity)]
    calc 2 ^ (i + 1) * (t.denominator * (i + 1)) = 2 ^ i * (2 * (i + 1) * t.denominator) := by ring
      _ ≤ t.term i * t.numerator :=
        Nat.mul_le_mul (ih (by omega)) ((Nat.mul_le_mul_right _ (by omega)).trans large)

/-- With a small numerator the terms are halved from some turn on. -/
theorem term_lt_two_pow (pos : 0 < t.denominator) (small : t.numerator < 514 * t.denominator)
    (bound : t.term 1028 < 2 ^ 256) (le : i ≤ 256) : t.term (1028 + i) < 2 ^ (256 - i) := by
  induction i with
  | zero => exact bound
  | succ i ih =>
    have power : 2 ^ (256 - i) = 2 ^ (256 - (i + 1)) * 2 := by
      rw [← Nat.pow_succ]
      congr 1
      omega
    rw [← Nat.add_assoc, term, Nat.div_lt_iff_lt_mul (by positivity)]
    calc t.term (1028 + i) * t.numerator ≤ t.term (1028 + i) * (514 * t.denominator) :=
          Nat.mul_le_mul_left _ small.le
      _ < 2 ^ (256 - (i + 1)) * 2 * (514 * t.denominator) :=
          Nat.mul_lt_mul_of_pos_right (power ▸ ih (by omega)) (by omega)
      _ = 2 ^ (256 - (i + 1)) * (t.denominator * 1028) := by ring
      _ ≤ 2 ^ (256 - (i + 1)) * (t.denominator * (1028 + i + 1)) :=
          Nat.mul_le_mul_left _ (Nat.mul_le_mul_left _ (by omega))

theorem Running.lt (pos : 0 < t.denominator) (running : t.Running i) : i < 2 ^ 64 := by
  by_contra ge
  by_cases large : 514 * t.denominator ≤ t.numerator
  · have double := two_pow_le_term pos large (running 0 (by omega)).1 (i := 256) (by omega)
    have fits := running.term_lt (i := 256) (by omega)
    omega
  · have last := term_lt_two_pow (i := 256) pos (not_le.1 large)
      (running.term_lt (i := 1028) (by omega)) (by omega)
    exact (running 1284 (by omega)).1 (Nat.lt_one_iff.1 last)

/-! ### The loop adds up the exact terms -/

theorem Running.lt_of_exact (running : t.Running i) (exact' : t.Exact n) (nonzero : t.term i ≠ 0) :
    i < n := by
  rcases Nat.lt_trichotomy n i with before | rfl | after
  · exact absurd exact'.last (running n before).1
  · exact absurd exact'.last nonzero
  · exact after

theorem Running.exact (running : t.Running i) (zero : t.term i = 0) : t.Exact i where
  last := zero
  sum := by
    cases i with
    | zero => simp [Taylor.sum, FitsU256]
    | succ i => exact (running i (by omega)).2.1
  product j hj := (running j hj).2.2

/-- The loop gives the exact sum if everything fits; otherwise a checked operation fails. -/
theorem loop_eq (pos : 0 < t.denominator) (word : t.denominator < 2 ^ 64) (running : t.Running i) :
    let result := fakeExponentialLoop t.numerator t.denominator (t.sum i) (t.term i)
      (t.denominator * (i + 1))
    (∃ n, t.Exact n ∧ result = .ok (t.sum n / t.denominator)) ∨
      (∀ n, ¬t.Exact n) ∧ ∃ e, e ≠ .panic ∧ result = .error e := by
  have turns := running.lt pos
  induction left : 2 ^ 64 - i using Nat.strong_induction_on generalizing i with
  | _ left ih =>
    rw [fakeExponentialLoop]
    split
    · next zero => exact .inl ⟨i, running.exact zero, rfl⟩
    next nonzero =>
    rw [← sum_succ]
    split
    · next overflow =>
      refine .inr ⟨fun n exact' => overflow ?_, _, by decide, rfl⟩
      exact (sum_le (running.lt_of_exact exact' nonzero)).trans_lt exact'.sum
    next sum =>
    split
    · next overflow =>
      refine .inr ⟨fun n exact' => overflow ?_, _, by decide, rfl⟩
      exact exact'.product i (running.lt_of_exact exact' nonzero)
    next product =>
    have next : t.Running (i + 1) := by
      intro j hj
      rcases (Nat.lt_succ_iff.1 hj).lt_or_eq with before | rfl
      · exact running j before
      · exact ⟨nonzero, not_not.1 sum, not_not.1 product⟩
    have small : t.denominator * (i + 1) + t.denominator ≤ 2 ^ 64 * (2 ^ 64 + 1) := by
      rw [← Nat.mul_succ]
      exact Nat.mul_le_mul word.le (by omega)
    rw [if_neg (by omega)]
    exact ih _ (by omega) next (next.lt pos) rfl

theorem start_eq (pos : 0 < t.denominator) (word : t.denominator < 2 ^ 64) :
    let result := fakeExponentialLoop t.numerator t.denominator 0 t.first t.denominator
    (∃ n, t.Exact n ∧ result = .ok (t.sum n / t.denominator)) ∨
      (∀ n, ¬t.Exact n) ∧ ∃ e, e ≠ .panic ∧ result = .error e := by
  simpa [Taylor.sum, term] using
    loop_eq pos word (i := 0) fun j hj => absurd hj (Nat.not_lt_zero j)

end

end Taylor

theorem fakeExponential_ne_panic (factor numerator : U256) (denominator : U64) :
    fakeExponential factor numerator denominator ≠ .error .panic := by
  unfold fakeExponential
  split
  · simp
  next nonzero =>
  split
  · simp
  split
  · simp
  rcases @Taylor.start_eq ⟨factor * denominator, numerator, denominator⟩
    (Nat.pos_of_ne_zero nonzero) denominator.isLt with ⟨n, -, done⟩ | ⟨-, e, ne, failed⟩
  · simp only at done
    simp [done]
  · simp only at failed
    simpa [failed] using ne

section

variable {excess updateFraction : U64}

/-- The series of the blob base fee. -/
def blobFee (excess updateFraction : U64) : Taylor := ⟨updateFraction, excess, updateFraction⟩

theorem blobFee_no_excess (pos : 0 < updateFraction.val) (zero : excess.val = 0) :
    (blobFee excess updateFraction).Exact 1 ∧
      (blobFee excess updateFraction).sum 1 / updateFraction.val = 1 := by
  have word := updateFraction.isLt
  refine ⟨⟨by simp [blobFee, Taylor.term, zero], ?_, by simp [blobFee, zero]⟩, ?_⟩
  · simp only [Taylor.sum, sum_range_one, Taylor.term, blobFee]
    omega
  · simpa [Taylor.sum, Taylor.term, blobFee] using Nat.div_self pos

/-- The fee is the exact quotient if everything fits, and otherwise it is zero. -/
theorem calculateBaseFeePerBlobGas_eq (excess : U64) (pos : 0 < updateFraction.val) :
    (∃ n, (blobFee excess updateFraction).Exact n ∧
      calculateBaseFeePerBlobGas excess updateFraction =
        (blobFee excess updateFraction).sum n / updateFraction) ∨
    (∀ n, ¬(blobFee excess updateFraction).Exact n) ∧
      calculateBaseFeePerBlobGas excess updateFraction = 0 := by
  have word := updateFraction.isLt
  have wide : (Fin.ofNat (2 ^ 256) excess.val).val = excess.val :=
    Nat.mod_eq_of_lt (excess.isLt.trans (by norm_num))
  have one : (Fin.ofNat (2 ^ 256) minBaseFeePerBlobGas).val = 1 := rfl
  rw [calculateBaseFeePerBlobGas, if_neg pos.ne', fakeExponential, if_neg pos.ne', wide, one,
    Nat.one_mul]
  by_cases zero : excess.val = 0
  · rw [if_pos zero]
    obtain ⟨exact', fee⟩ := blobFee_no_excess pos zero
    exact .inl ⟨1, exact', fee.symm⟩
  rw [if_neg zero, if_neg (by omega)]
  rcases @Taylor.start_eq (blobFee excess updateFraction) pos word with
    ⟨n, exact', done⟩ | ⟨never, e, -, failed⟩
  · simp only [blobFee] at done
    exact .inl ⟨n, exact', by rw [done]; rfl⟩
  · simp only [blobFee] at failed
    exact .inr ⟨never, by rw [failed]⟩

/-- The fee keeps its minimum and its order exactly as long as the larger sum and its products fit
in 256 bits: an overflow makes the fee zero. -/
theorem calculateBaseFeePerBlobGas_iff (updateFraction excess excess' : U64)
    (pos : 0 < updateFraction.val) (le : excess ≤ excess') :
    (minBaseFeePerBlobGas ≤ calculateBaseFeePerBlobGas excess updateFraction ∧
      calculateBaseFeePerBlobGas excess updateFraction ≤
        calculateBaseFeePerBlobGas excess' updateFraction ∧
      (∀ n, (blobFee excess updateFraction).Exact n →
        calculateBaseFeePerBlobGas excess updateFraction =
          (blobFee excess updateFraction).sum n / updateFraction) ∧
      ∀ factor numerator denominator,
        fakeExponential factor numerator denominator ≠ .error .panic) ↔
    ∃ n, (blobFee excess' updateFraction).Exact n := by
  constructor
  · rintro ⟨least, ordered, -⟩
    rcases calculateBaseFeePerBlobGas_eq excess' pos with ⟨n, exact', -⟩ | ⟨-, zero⟩
    · exact ⟨n, exact'⟩
    · rw [zero] at ordered
      exact absurd (least.trans ordered) (by decide)
  rintro ⟨n, exact'⟩
  have value : ∀ {e m}, (blobFee e updateFraction).Exact m →
      calculateBaseFeePerBlobGas e updateFraction =
        (blobFee e updateFraction).sum m / updateFraction := by
    intro e m fits
    rcases calculateBaseFeePerBlobGas_eq e pos with ⟨k, other, fee⟩ | ⟨never, -⟩
    · rw [fee, other.sum_eq fits]
    · exact absurd fits (never m)
  have fits : (blobFee excess updateFraction).Exact n := exact'.mono le
  refine ⟨?_, ?_, fun m => value, fakeExponential_ne_panic⟩
  · rw [value fits, Nat.le_div_iff_mul_le pos, minBaseFeePerBlobGas, Nat.one_mul]
    have first : 1 ≤ n := by
      rw [Nat.one_le_iff_ne_zero]
      rintro rfl
      exact pos.ne' fits.last
    calc updateFraction.val = (blobFee excess updateFraction).sum 1 := by
          simp [Taylor.sum, Taylor.term, blobFee]
      _ ≤ (blobFee excess updateFraction).sum n := Taylor.sum_le first
  · rw [value fits, value exact']
    exact Nat.div_le_div_right (Taylor.sum_mono (t := blobFee excess' updateFraction) le n)

end

/-- The largest excess overflows the sum: the fee is zero. -/
theorem calculateBaseFeePerBlobGas_overflow :
    calculateBaseFeePerBlobGas (2 ^ 64 - 1) 3338477 = 0 ∧
      calculateBaseFeePerBlobGas 0 3338477 = minBaseFeePerBlobGas := by
  refine ⟨?_, by decide +kernel⟩
  rcases calculateBaseFeePerBlobGas_eq (2 ^ 64 - 1) (show 0 < (3338477 : U64).val by decide) with
    ⟨n, exact', -⟩ | ⟨-, zero⟩
  · have before : 5 < n := by
      by_contra le
      interval_cases n <;> exact absurd exact'.last (by decide +kernel)
    exact absurd (exact'.product 5 before) (by decide +kernel)
  · exact zero

theorem exact_two_fractions : (blobFee 6676954 3338477).Exact 24 :=
  ⟨by decide +kernel, by decide +kernel, by decide +kernel⟩

/-- Excesses of one and of two update fractions. -/
theorem calculateBaseFeePerBlobGas_two_fractions :
    0 < (3338477 : U64).val ∧ (3338477 : U64) < 6676954 ∧
      calculateBaseFeePerBlobGas 3338477 3338477 ≤ calculateBaseFeePerBlobGas 6676954 3338477 ∧
      calculateBaseFeePerBlobGas 3338477 3338477 =
        (blobFee 3338477 3338477).sum 24 / (3338477 : U64) := by
  have hle : (3338477 : U64) ≤ 6676954 := by decide
  obtain ⟨-, hordered, hexact, -⟩ := (calculateBaseFeePerBlobGas_iff 3338477 3338477 6676954
    (by decide) hle).2 ⟨24, exact_two_fractions⟩
  exact ⟨by decide, by decide, hordered, hexact 24 (exact_two_fractions.mono hle)⟩

end Ethrex
