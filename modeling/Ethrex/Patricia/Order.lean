import Ethrex.Patricia.Update

/-!
# The order of words

Words are compared at the first letter where they part.  A word and a start of it are not
ordered: a start stands for all words below it.
-/

namespace Patricia

open List

variable {α : Type*} [LinearOrder α]

def Before (k l : List α) : Prop :=
  ∃ p a b u v, k = p ++ a :: u ∧ l = p ++ b :: v ∧ a < b

namespace Before

variable {k l m : List α}

theorem not_nil_left : ¬Before [] l := by
  rintro ⟨p, a, b, u, v, h, -⟩
  simp at h

theorem not_nil_right : ¬Before k [] := by
  rintro ⟨p, a, b, u, v, -, h, -⟩
  simp at h

theorem cons_iff {x y : α} : Before (x :: k) (y :: l) ↔ x < y ∨ x = y ∧ Before k l := by
  constructor
  · rintro ⟨p, a, b, u, v, hk, hl, hab⟩
    cases p with
    | nil =>
      simp only [nil_append, List.cons.injEq] at hk hl
      rw [hk.1, hl.1]
      exact .inl hab
    | cons c p =>
      simp only [cons_append, List.cons.injEq] at hk hl
      exact .inr ⟨hk.1.trans hl.1.symm, p, a, b, u, v, hk.2, hl.2, hab⟩
  · rintro (h | ⟨rfl, p, a, b, u, v, rfl, rfl, hab⟩)
    · exact ⟨[], x, y, k, l, rfl, rfl, h⟩
    · exact ⟨x :: p, a, b, u, v, rfl, rfl, hab⟩

variable (h : Before k l)

include h

theorem mono {k' l' : List α} (hk : k <+: k') (hl : l <+: l') :
    Before k' l' := by
  obtain ⟨p, a, b, u, v, rfl, rfl, hab⟩ := h
  obtain ⟨x, rfl⟩ := hk
  obtain ⟨y, rfl⟩ := hl
  exact ⟨p, a, b, u ++ x, v ++ y, by simp, by simp, hab⟩

theorem asymm : ¬Before l k := by
  induction k generalizing l with
  | nil => exact absurd h not_nil_left
  | cons x k ih =>
    cases l with
    | nil => exact not_nil_left
    | cons y l =>
      rw [cons_iff] at h ⊢
      rintro (hyx | ⟨rfl, hlk⟩)
      · rcases h with hxy | ⟨rfl, -⟩
        · exact lt_asymm hxy hyx
        · exact lt_irrefl _ hyx
      · rcases h with hxy | ⟨-, hkl⟩
        · exact lt_irrefl _ hxy
        · exact ih hkl hlk

theorem not_isPrefix : ¬k <+: l := fun hp =>
  (h.mono hp prefix_rfl).asymm (h.mono hp prefix_rfl)

theorem not_isPrefix' : ¬l <+: k := fun hp =>
  (h.mono prefix_rfl hp).asymm (h.mono prefix_rfl hp)

theorem ne : k ≠ l := fun he => h.not_isPrefix (he ▸ prefix_rfl)

variable {q : List α}

theorem of_isPrefix (hq : q <+: l) : q <+: k ∨ Before k q := by
  obtain ⟨p, a, b, u, v, rfl, rfl, hab⟩ := h
  rcases prefix_or_prefix_of_prefix hq (prefix_append p (b :: v)) with hp | ⟨r, rfl⟩
  · exact .inl (hp.trans (prefix_append _ _))
  rw [prefix_append_right_inj] at hq
  cases r with
  | nil => exact .inl (by simp)
  | cons c r =>
    obtain ⟨rfl, -⟩ := cons_prefix_cons.1 hq
    exact .inr ⟨p, a, c, u, r, rfl, rfl, hab⟩

theorem of_isPrefix' (hq : q <+: k) : q <+: l ∨ Before q l := by
  obtain ⟨p, a, b, u, v, rfl, rfl, hab⟩ := h
  rcases prefix_or_prefix_of_prefix hq (prefix_append p (a :: u)) with hp | ⟨r, rfl⟩
  · exact .inl (hp.trans (prefix_append _ _))
  rw [prefix_append_right_inj] at hq
  cases r with
  | nil => exact .inl (by simp)
  | cons c r =>
    obtain ⟨rfl, -⟩ := cons_prefix_cons.1 hq
    exact .inr ⟨p, c, b, r, v, rfl, rfl, hab⟩

theorem trans (h' : Before l m) : Before k m := by
  induction k generalizing l m with
  | nil => exact absurd h not_nil_left
  | cons x k ih =>
    cases l with
    | nil => exact absurd h not_nil_right
    | cons y l =>
      cases m with
      | nil => exact absurd h' not_nil_right
      | cons z m =>
        rw [cons_iff] at h h' ⊢
        rcases h with h | ⟨rfl, h⟩
        · rcases h' with h' | ⟨rfl, -⟩
          · exact .inl (h.trans h')
          · exact .inl h
        · rcases h' with h' | ⟨rfl, h'⟩
          · exact .inl h'
          · exact .inr ⟨rfl, ih h h'⟩

end Before

theorem before_of_lt {k l : List α} (hlen : k.length = l.length) (h : k < l) : Before k l := by
  induction k generalizing l with
  | nil =>
    cases l with
    | nil => exact absurd h (lt_irrefl _)
    | cons b l => simp at hlen
  | cons a k ih =>
    cases l with
    | nil => simp at hlen
    | cons b l =>
      rw [Before.cons_iff]
      rcases cons_lt_cons_iff.1 h with hab | ⟨rfl, hkl⟩
      · exact .inl hab
      · exact .inr ⟨rfl, ih (by simpa using hlen) hkl⟩

/-! ### Comparing the common length -/

def cmpStart : List α → List α → Ordering
  | a :: k, b :: l => (compare a b).then (cmpStart k l)
  | _, _ => .eq

theorem cmpStart_eq_lt_iff (k l : List α) : cmpStart k l = .lt ↔ Before k l := by
  induction k generalizing l with
  | nil => simp [cmpStart, Before.not_nil_left]
  | cons a k ih =>
    cases l with
    | nil => simp [cmpStart, Before.not_nil_right]
    | cons b l =>
      rw [cmpStart, Ordering.then_eq_lt, Before.cons_iff, compare_lt_iff_lt, compare_eq_iff_eq, ih]

theorem cmpStart_eq_gt_iff (k l : List α) : cmpStart k l = .gt ↔ Before l k := by
  induction k generalizing l with
  | nil => simp [cmpStart, Before.not_nil_right]
  | cons a k ih =>
    cases l with
    | nil => simp [cmpStart, Before.not_nil_left]
    | cons b l =>
      rw [cmpStart, Ordering.then_eq_gt, Before.cons_iff, compare_gt_iff_gt, compare_eq_iff_eq, ih,
        eq_comm]

theorem cmpStart_eq_eq_iff {k l : List α} (hlen : l.length ≤ k.length) :
    cmpStart k l = .eq ↔ l <+: k := by
  induction k generalizing l with
  | nil =>
    obtain rfl : l = [] := eq_nil_of_length_eq_zero (by simpa using hlen)
    simp [cmpStart]
  | cons a k ih =>
    cases l with
    | nil => simp [cmpStart]
    | cons b l =>
      rw [cmpStart, Ordering.then_eq_eq, compare_eq_iff_eq, cons_prefix_cons,
        ih (by simpa using hlen), eq_comm]

end Patricia
