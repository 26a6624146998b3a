import Mathlib

/-!
# Values over numbered periods

The changes of one value, each with its period, and a recorded list that follows them: in every
period it has the last value or, where it has nothing, the value did not change.
-/

namespace Journal

open List

variable {V : Type} (l : List (Nat × V)) (i : Nat)

def lastAt : Option V :=
  ((l.filter fun e => e.1 = i).getLast?).map Prod.snd

@[simp] theorem lastAt_nil : lastAt ([] : List (Nat × V)) i = none := rfl

theorem lastAt_append_self (v : V) :
    lastAt (l ++ [(i, v)]) i = some v := by
  simp [lastAt]

theorem lastAt_append_ne {i j : Nat} (h : i ≠ j) (v : V) :
    lastAt (l ++ [(i, v)]) j = lastAt l j := by
  simp [lastAt, h]

theorem lastAt_eq_none_iff {l : List (Nat × V)} {i : Nat} :
    lastAt l i = none ↔ ∀ e ∈ l, e.1 ≠ i := by
  simp [lastAt]

theorem lastAt_eq_none_of_lt {l : List (Nat × V)} {i cur : Nat} (h : ∀ e ∈ l, e.1 ≤ cur)
    (hlt : cur < i) : lastAt l i = none :=
  lastAt_eq_none_iff.2 fun e he => ((h e he).trans_lt hlt).ne

def dropAt (l : List (Nat × V)) : List (Nat × V) := l.filter fun e => e.1 ≠ i

@[simp] theorem dropAt_dropAt (l : List (Nat × V)) :
    dropAt i (dropAt i l) = dropAt i l := by
  simp [dropAt]

theorem mem_of_mem_dropAt {i : Nat} {l : List (Nat × V)} {e : Nat × V} (h : e ∈ dropAt i l) :
    e ∈ l := (mem_filter.1 h).1

theorem lastAt_dropAt (i j : Nat) :
    lastAt (dropAt i l) j = if i = j then none else lastAt l j := by
  by_cases h : i = j
  · rw [if_pos h, lastAt_eq_none_iff]
    intro e he
    simpa [h] using (mem_filter.1 he).2
  rw [if_neg h, lastAt, lastAt, dropAt, filter_filter]
  congr 3
  funext e
  by_cases he : e.1 = j
  · simp [he, Ne.symm h]
  · simp [he]

/-! ### The value before and after a period -/

section

variable (init : V) (cs : List (Nat × V)) (i : Nat)

def valueBefore : V := (((cs.filter fun e => e.1 < i).getLast?).map Prod.snd).getD init

def valueUpto : V := valueBefore init cs (i + 1)

variable [DecidableEq V]

/-- The periods up to `bound` that change the value, with the value after them. -/
def diffs (bound : Nat) : List (Nat × V) :=
  (List.range (bound + 1)).filterMap fun i =>
    if valueUpto init cs i ≠ valueBefore init cs i then some (i, valueUpto init cs i) else none

end

section

variable {init : V} {cs : List (Nat × V)} {i cur : Nat} {v : V}

theorem valueBefore_append_of_le (h : i ≤ cur) :
    valueBefore init (cs ++ [(cur, v)]) i = valueBefore init cs i := by
  simp [valueBefore, Nat.not_lt.2 h]

theorem valueBefore_append_of_lt (h : cur < i) :
    valueBefore init (cs ++ [(cur, v)]) i = v := by
  simp [valueBefore, h]

theorem valueBefore_of_bound (hcs : ∀ e ∈ cs, e.1 ≤ cur) (h : cur < i) :
    valueBefore init cs i = valueUpto init cs cur := by
  have hfilter : ∀ j, cur < j → cs.filter (fun e => e.1 < j) = cs := fun j hj =>
    filter_eq_self.2 fun e he => by simpa using (hcs e he).trans_lt hj
  rw [valueUpto, valueBefore, valueBefore, hfilter i h, hfilter (cur + 1) (by omega)]

theorem mem_diffs [DecidableEq V] {bound : Nat} :
    (i, v) ∈ diffs init cs bound ↔
      i ≤ bound ∧ valueUpto init cs i = v ∧ v ≠ valueBefore init cs i := by
  rw [diffs, mem_filterMap]
  constructor
  · rintro ⟨j, hj, hv⟩
    split at hv
    · rename_i hne
      cases hv
      exact ⟨by simpa [Nat.lt_succ_iff] using hj, rfl, hne⟩
    · cases hv
  · rintro ⟨hi, rfl, hne⟩
    exact ⟨i, by simpa [Nat.lt_succ_iff] using hi, if_pos hne⟩

theorem pairwise_filterMap_range {f : Nat → Option (Nat × V)} (hf : ∀ i e, f i = some e → e.1 = i)
    (n : Nat) : ((List.range n).filterMap f).Pairwise fun a b => a.1 < b.1 := by
  rw [pairwise_filterMap]
  refine pairwise_lt_range.imp fun {i j} hlt a ha b hb => ?_
  rw [hf i a ha, hf j b hb]
  exact hlt

theorem pairwise_diffs [DecidableEq V] (bound : Nat) :
    (diffs init cs bound).Pairwise fun a b => a.1 < b.1 :=
  pairwise_filterMap_range (fun i e he => by
    split at he
    · cases he
      rfl
    · cases he) _

end

/-- The recorded list `l` has the last value of every period up to `cur`; where it has none, the
value did not change. -/
structure Follows (init : V) (cs : List (Nat × V)) (cur : Nat) (l : List (Nat × V)) : Prop where
  changes : ∀ e ∈ cs, e.1 ≤ cur
  bound : ∀ e ∈ l, e.1 ≤ cur
  last : ∀ i ≤ cur, ∀ v, lastAt l i = some v → v = valueUpto init cs i
  unchanged : ∀ i ≤ cur, lastAt l i = none → valueUpto init cs i = valueBefore init cs i

/-- No recorded value of the periods below `bound` is the one before its period. -/
def Clean (init : V) (cs : List (Nat × V)) (bound : Nat) (l : List (Nat × V)) : Prop :=
  ∀ i < bound, ∀ v, lastAt l i = some v → v ≠ valueBefore init cs i

section

variable {init : V} {cs l : List (Nat × V)} {cur next : Nat} {v : V}

theorem follows_nil (init : V) (cur : Nat) : Follows init [] cur [] :=
  ⟨by simp, by simp, by simp, fun _ _ _ => rfl⟩

theorem clean_nil (init : V) (bound : Nat) : Clean init [] bound [] := by
  simp [Clean]

theorem valueUpto_append_of_lt {i : Nat} (h : i < cur) :
    valueUpto init (cs ++ [(cur, v)]) i = valueUpto init cs i :=
  valueBefore_append_of_le h

theorem valueUpto_append_self : valueUpto init (cs ++ [(cur, v)]) cur = v :=
  valueBefore_append_of_lt (Nat.lt_succ_self cur)

theorem Follows.changes_append (h : Follows init cs cur l) : ∀ e ∈ cs ++ [(cur, v)], e.1 ≤ cur := by
  intro e he
  rcases mem_append.1 he with he | he
  · exact h.changes e he
  · obtain rfl : e = (cur, v) := by simpa using he
    exact le_rfl

theorem Follows.valueUpto_of_nil (h : Follows init cs cur []) {i : Nat} (hi : i ≤ cur) :
    valueUpto init cs i = init := by
  induction i with
  | zero =>
    rw [h.unchanged 0 hi rfl]
    simp [valueBefore]
  | succ i ih =>
    rw [h.unchanged (i + 1) hi rfl]
    exact ih (by omega)

variable (h : Follows init cs cur l)

include h

theorem Follows.push (v : V) :
    Follows init (cs ++ [(cur, v)]) cur (l ++ [(cur, v)]) where
  changes := h.changes_append
  bound e he := by
    rcases mem_append.1 he with he | he
    · exact h.bound e he
    · obtain rfl : e = (cur, v) := by simpa using he
      exact le_rfl
  last i hi w hw := by
    rcases hi.lt_or_eq with hlt | rfl
    · rw [lastAt_append_ne _ hlt.ne'] at hw
      rw [valueUpto_append_of_lt hlt]
      exact h.last i hi w hw
    · rw [lastAt_append_self] at hw
      rw [valueUpto_append_self]
      exact (Option.some.inj hw).symm
  unchanged i hi hw := by
    rcases hi.lt_or_eq with hlt | rfl
    · rw [lastAt_append_ne _ hlt.ne'] at hw
      rw [valueUpto_append_of_lt hlt, valueBefore_append_of_le hi]
      exact h.unchanged i hi hw
    · rw [lastAt_append_self] at hw
      cases hw

theorem Follows.skip (hv : v = valueUpto init cs cur) :
    Follows init (cs ++ [(cur, v)]) cur l where
  changes := h.changes_append
  bound := h.bound
  last i hi w hw := by
    rcases hi.lt_or_eq with hlt | rfl
    · rw [valueUpto_append_of_lt hlt]
      exact h.last i hi w hw
    · rw [valueUpto_append_self, hv]
      exact h.last i hi w hw
  unchanged i hi hw := by
    rw [valueBefore_append_of_le hi]
    rcases hi.lt_or_eq with hlt | rfl
    · rw [valueUpto_append_of_lt hlt]
      exact h.unchanged i hi hw
    · rw [valueUpto_append_self, hv]
      exact h.unchanged i hi hw

theorem Follows.advance (hnext : cur ≤ next) :
    Follows init cs next l where
  changes e he := (h.changes e he).trans hnext
  bound e he := (h.bound e he).trans hnext
  last i _ w hw := by
    rcases le_or_gt i cur with hi | hi
    · exact h.last i hi w hw
    rw [lastAt_eq_none_of_lt h.bound hi] at hw
    cases hw
  unchanged i _ hw := by
    rcases le_or_gt i cur with hi | hi
    · exact h.unchanged i hi hw
    · rw [valueUpto, valueBefore_of_bound h.changes (by omega), valueBefore_of_bound h.changes hi]

theorem Follows.drop (hzero : lastAt l cur = some (valueBefore init cs cur)) :
    Follows init cs cur (dropAt cur l) where
  changes := h.changes
  bound e he := h.bound e (mem_of_mem_dropAt he)
  last i hi w hw := by
    rw [lastAt_dropAt] at hw
    split at hw
    · cases hw
    · exact h.last i hi w hw
  unchanged i hi hw := by
    rw [lastAt_dropAt] at hw
    split at hw
    · rename_i heq
      subst heq
      exact (h.last cur hi _ hzero).symm
    · exact h.unchanged i hi hw

omit h

theorem Clean.drop (h : Clean init cs cur l) :
    Clean init cs (cur + 1) (dropAt cur l) := by
  intro i hi w hw
  rw [lastAt_dropAt] at hw
  split at hw
  · cases hw
  · exact h i (by omega) w hw

theorem Clean.succ (h : Clean init cs cur l)
    (hne : ∀ v, lastAt l cur = some v → v ≠ valueBefore init cs cur) :
    Clean init cs (cur + 1) l := by
  intro i hi w hw
  rcases (Nat.lt_succ_iff.1 hi).lt_or_eq with hlt | rfl
  · exact h i hlt w hw
  · exact hne w hw

theorem Clean.push (h : Clean init cs cur l) (v : V) :
    Clean init (cs ++ [(cur, v)]) cur (l ++ [(cur, v)]) := by
  intro i hi w hw
  rw [lastAt_append_ne _ hi.ne'] at hw
  rw [valueBefore_append_of_le hi.le]
  exact h i hi w hw

theorem Clean.skip (h : Clean init cs cur l) (v : V) : Clean init (cs ++ [(cur, v)]) cur l := by
  intro i hi w hw
  rw [valueBefore_append_of_le hi.le]
  exact h i hi w hw

theorem Clean.advance (h : Clean init cs (cur + 1) l) (hl : ∀ e ∈ l, e.1 ≤ cur) :
    Clean init cs next l := by
  intro i _ w hw
  rcases le_or_gt i cur with hle | hgt
  · exact h i (by omega) w hw
  rw [lastAt_eq_none_of_lt hl hgt] at hw
  cases hw

end

/-! ### The last value of every period -/

/-- The recorded list as an ordered map: later records of a period replace earlier ones. -/
def byPeriod : Std.ExtTreeMap Nat V :=
  l.foldl (fun m e => m.insert e.1 e.2) ∅

theorem getElem?_byPeriod : (byPeriod l)[i]? = lastAt l i := by
  induction l using List.reverseRecOn with
  | nil => simp [byPeriod]
  | append_singleton l e ih =>
    obtain ⟨j, v⟩ := e
    rw [byPeriod, foldl_append, foldl_cons, foldl_nil,
      Std.ExtTreeMap.getElem?_insert]
    by_cases h : j = i
    · subst h
      simp [lastAt_append_self]
    · rw [lastAt_append_ne _ h, ← ih]
      simp [h, byPeriod]

theorem mem_byPeriod {l : List (Nat × V)} {i : Nat} {v : V} :
    (i, v) ∈ (byPeriod l).toList ↔ lastAt l i = some v := by
  rw [Std.ExtTreeMap.mem_toList_iff_getElem?_eq_some, getElem?_byPeriod]

theorem pairwise_byPeriod :
    (byPeriod l).toList.Pairwise fun a b => a.1 < b.1 :=
  (Std.ExtTreeMap.ordered_keys_toList (t := byPeriod l)).imp fun h =>
    Std.compare_eq_lt.1 h

theorem eq_of_pairwise {α β : Type} [Preorder β] {f : α → β} {xs ys : List α}
    (hx : xs.Pairwise fun a b => f a < f b) (hy : ys.Pairwise fun a b => f a < f b)
    (h : ∀ a, a ∈ xs ↔ a ∈ ys) : xs = ys := by
  have hnodup : ∀ {zs : List α}, zs.Pairwise (fun a b => f a < f b) → zs.Nodup := fun hz =>
    List.Pairwise.imp (fun hlt (heq : _ = _) => hlt.ne (congrArg f heq)) hz
  exact ((perm_ext_iff_of_nodup (hnodup hx) (hnodup hy)).2 h).eq_of_pairwise
    (fun a b _ _ hab hba => absurd hba hab.asymm) hx hy

theorem Follows.toList_byPeriod [DecidableEq V] {init : V} {cs l : List (Nat × V)} {cur : Nat}
    (h : Follows init cs cur l) (hclean : Clean init cs (cur + 1) l) :
    (byPeriod l).toList = diffs init cs cur := by
  refine eq_of_pairwise (pairwise_byPeriod l) (pairwise_diffs cur) fun e => ?_
  obtain ⟨i, v⟩ := e
  rw [mem_byPeriod, mem_diffs]
  constructor
  · intro hv
    have hi : i ≤ cur := by
      by_contra hgt
      rw [lastAt_eq_none_of_lt h.bound (not_le.1 hgt)] at hv
      cases hv
    exact ⟨hi, (h.last i hi v hv).symm, hclean i (by omega) v hv⟩
  · rintro ⟨hi, rfl, hne⟩
    cases hv : lastAt l i with
    | none => exact absurd (h.unchanged i hi hv) hne
    | some w => rw [h.last i hi w hv]

end Journal
