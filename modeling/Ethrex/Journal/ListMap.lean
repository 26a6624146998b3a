import Mathlib

/-!
# Maps to lists, and their undo journal

A key without entries is absent. A journal records every push, so that pushes since an earlier
length can be undone.
-/

namespace Journal

open List

structure ListMap (K V : Type) [Ord K] [Std.TransOrd K] where
  map : Std.ExtTreeMap K (List V)
  nonempty : ∀ k : K, map[k]? ≠ some []

namespace ListMap

variable {K V : Type} [Ord K] [Std.TransOrd K] [Std.LawfulEqOrd K] (m : ListMap K V)

def get (k : K) : List V := (m.map[k]?).getD []

omit [Std.LawfulEqOrd K] in
theorem getElem?_eq_none_iff {m : ListMap K V} {k : K} : m.map[k]? = none ↔ m.get k = [] := by
  rw [get]
  cases h : m.map[k]? with
  | none => simp
  | some l =>
    have := m.nonempty k
    rw [h] at this
    simpa using this

omit [Std.LawfulEqOrd K] in
theorem getElem?_eq_some_iff {m : ListMap K V} {k : K} {l : List V} :
    m.map[k]? = some l ↔ m.get k = l ∧ l ≠ [] := by
  rw [get]
  cases h : m.map[k]? with
  | none => simp +contextual [eq_comm]
  | some l' =>
    have := m.nonempty k
    rw [h] at this
    simp only [Option.some.injEq, Option.getD_some]
    exact ⟨fun heq => ⟨heq, heq ▸ fun hnil => this (by rw [hnil])⟩, fun h => h.1⟩

@[ext] theorem ext {m n : ListMap K V} (h : ∀ k, m.get k = n.get k) : m = n := by
  have hmap : m.map = n.map := by
    refine Std.ExtTreeMap.ext_getElem? fun k => ?_
    cases hk : m.map[k]? with
    | none => rw [eq_comm, getElem?_eq_none_iff, ← h k, ← getElem?_eq_none_iff, hk]
    | some l =>
      rw [eq_comm, getElem?_eq_some_iff, ← h k]
      exact getElem?_eq_some_iff.1 hk
  cases m
  cases n
  congr

def empty : ListMap K V := ⟨∅, by simp⟩

omit [Std.LawfulEqOrd K] in
@[simp] theorem get_empty (k : K) : (empty : ListMap K V).get k = [] := by
  simp [get, empty]

/-- The map with other entries at a key; without entries the key is removed. -/
def set (k : K) : List V → ListMap K V
  | [] => ⟨m.map.erase k, fun k' h => by
      rw [Std.ExtTreeMap.getElem?_erase] at h
      split at h
      · cases h
      · exact m.nonempty k' h⟩
  | v :: l => ⟨m.map.insert k (v :: l), fun k' h => by
      rw [Std.ExtTreeMap.getElem?_insert] at h
      split at h
      · cases h
      · exact m.nonempty k' h⟩

theorem get_set [DecidableEq K] (m : ListMap K V) (k k' : K) (l : List V) :
    (m.set k l).get k' = if k = k' then l else m.get k' := by
  cases l with
  | nil =>
    rw [set, get, Std.ExtTreeMap.getElem?_erase]
    by_cases h : k = k'
    · simp [h]
    · simp [h, get]
  | cons v l =>
    rw [set, get, Std.ExtTreeMap.getElem?_insert]
    by_cases h : k = k'
    · simp [h]
    · simp [h, get]

@[simp] theorem get_set_self (k : K) (l : List V) : (m.set k l).get k = l := by
  classical
  rw [get_set, if_pos rfl]

theorem get_set_ne {k k' : K} (h : k ≠ k') (l : List V) :
    (m.set k l).get k' = m.get k' := by
  classical
  rw [get_set, if_neg h]

def push (k : K) (v : V) : ListMap K V := m.set k (m.get k ++ [v])

def truncate (k : K) (n : Nat) : ListMap K V := m.set k ((m.get k).take n)

theorem truncate_push (k : K) (v : V) :
    (m.push k v).truncate k (m.get k).length = m := by
  classical
  ext1 k'
  rw [truncate, push, get_set_self, take_left, get_set]
  by_cases h : k = k'
  · rw [if_pos h, h]
  · rw [if_neg h, get_set_ne _ h]

def keys (m : ListMap K V) : List K := m.map.keys

theorem mem_keys {m : ListMap K V} {k : K} : k ∈ m.keys ↔ m.get k ≠ [] := by
  rw [keys, Std.ExtTreeMap.mem_keys, Std.ExtTreeMap.mem_iff_isSome_getElem?, Option.isSome_iff_ne_none,
    ne_eq, getElem?_eq_none_iff]

omit [Std.LawfulEqOrd K] in
theorem pairwise_keys : m.keys.Pairwise fun a b => compare a b = .lt :=
  Std.ExtTreeMap.ordered_keys

end ListMap

/-- A map to lists with the journal of its pushes, the latest first: the key and how many entries it
had before. -/
structure Journaled (K V : Type) [Ord K] [Std.TransOrd K] where
  lists : ListMap K V
  journal : List (K × Nat)

namespace Journaled

variable {K V : Type} [Ord K] [Std.TransOrd K] [Std.LawfulEqOrd K]

def empty : Journaled K V := ⟨.empty, []⟩

abbrev get (j : Journaled K V) (k : K) : List V := j.lists.get k

def push (j : Journaled K V) (k : K) (v : V) : Journaled K V :=
  ⟨j.lists.push k v, (k, (j.lists.get k).length) :: j.journal⟩

def modify (j : Journaled K V) (k : K) (f : List V → List V) : Journaled K V :=
  { j with lists := j.lists.set k (f (j.lists.get k)) }

/-- The journal is cleared: what was pushed cannot be undone any more. -/
def clearJournal (j : Journaled K V) : Journaled K V := { j with journal := [] }

theorem get_push [DecidableEq K] (j : Journaled K V) (k k' : K) (v : V) :
    (j.push k v).get k' = if k = k' then j.get k' ++ [v] else j.get k' := by
  rw [push, get, ListMap.push, ListMap.get_set]
  split
  · rename_i h
    rw [h]
  · rfl

theorem get_modify [DecidableEq K] (j : Journaled K V) (k k' : K) (f : List V → List V) :
    (j.modify k f).get k' = if k = k' then f (j.get k') else j.get k' := by
  rw [modify, get, ListMap.get_set]
  split
  · rename_i h
    rw [h]
  · rfl

/-- The journal is walked back to a length. The second component lists the keys that were
emptied. -/
def walkFrom (target : Nat) : List (K × Nat) → ListMap K V → Journaled K V × List K
  | [], m => (⟨m, []⟩, [])
  | (k, n) :: js, m =>
    if target < js.length + 1 then
      let (j, emptied) := walkFrom target js (m.truncate k n)
      (j, if !(m.get k).isEmpty && ((m.get k).take n).isEmpty then k :: emptied else emptied)
    else (⟨m, (k, n) :: js⟩, [])

/-- The pushes since the journal had length `target` are undone. -/
def walk (target : Nat) (j : Journaled K V) : Journaled K V × List K :=
  walkFrom target j.journal j.lists

omit [Std.LawfulEqOrd K] in
theorem walk_of_le {target : Nat} {j : Journaled K V} (h : j.journal.length ≤ target) :
    j.walk target = (j, []) := by
  obtain ⟨m, js⟩ := j
  cases js with
  | nil => rfl
  | cons e js =>
    have hlen : ¬target < js.length + 1 := by simpa using h
    simp [walk, walkFrom, hlen]

theorem walk_push {target : Nat} {j : Journaled K V} (h : target ≤ j.journal.length) (k : K) (v : V) :
    (j.push k v).walk target =
      ((j.walk target).1, if j.get k = [] then k :: (j.walk target).2 else (j.walk target).2) := by
  have hlt : target < j.journal.length + 1 := by omega
  have htrunc := ListMap.truncate_push j.lists k v
  simp only [walk, push, walkFrom, hlt, if_true, htrunc]
  cases hget : j.lists.get k <;> simp [ListMap.push, get, hget]

omit [Std.LawfulEqOrd K] in
theorem length_walk (target : Nat) (j : Journaled K V) :
    (j.walk target).1.journal.length = min target j.journal.length := by
  obtain ⟨m, js⟩ := j
  rw [walk]
  induction js generalizing m with
  | nil => simp [walkFrom]
  | cons e js ih =>
    obtain ⟨k, n⟩ := e
    rw [walkFrom]
    split
    · rename_i h
      simp only [ih, length_cons]
      omega
    · rename_i h
      simp only [length_cons]
      omega

omit [Std.LawfulEqOrd K] in
theorem walk_walk {t n : Nat} (h : t ≤ n) (j : Journaled K V) :
    ((j.walk n).1.walk t).1 = (j.walk t).1 := by
  obtain ⟨m, js⟩ := j
  simp only [walk]
  induction js generalizing m with
  | nil => rfl
  | cons e js ih =>
    obtain ⟨k, l⟩ := e
    simp only [walkFrom]
    split
    · rename_i hn
      have ht : t < js.length + 1 := by omega
      simp only [ht, if_true, ih]
    · rfl

theorem walk_isPrefix (target : Nat) (j : Journaled K V) (k : K) :
    (j.walk target).1.get k <+: j.get k := by
  classical
  obtain ⟨m, js⟩ := j
  simp only [walk, get]
  induction js generalizing m with
  | nil => exact prefix_rfl
  | cons e js ih =>
    obtain ⟨k', n⟩ := e
    simp only [walkFrom]
    split
    · refine (ih (m.truncate k' n)).trans ?_
      rw [ListMap.truncate, ListMap.get_set]
      split
      · rename_i hk
        exact hk ▸ take_prefix n _
      · exact prefix_rfl
    · exact prefix_rfl

theorem mem_walk_iff {target : Nat} {j : Journaled K V} {k : K} :
    k ∈ (j.walk target).2 ↔ j.get k ≠ [] ∧ (j.walk target).1.get k = [] := by
  classical
  obtain ⟨m, js⟩ := j
  simp only [walk, get]
  induction js generalizing m with
  | nil => simp [walkFrom]
  | cons e js ih =>
    obtain ⟨k', n⟩ := e
    simp only [walkFrom]
    split
    · -- the rest of the walk starts from the truncated entries
      have ih' := ih (m.truncate k' n)
      have hpre := walk_isPrefix target ⟨m.truncate k' n, js⟩ k
      simp only [walk, get] at hpre
      rw [ListMap.truncate, ListMap.get_set] at ih' hpre
      by_cases hk : k' = k
      · subst hk
        rw [if_pos rfl] at ih' hpre
        by_cases htake : (m.get k').take n = []
        · rw [htake] at ih' hpre
          have hfinal := prefix_nil.1 hpre
          by_cases hget : m.get k' = []
          · simpa [hget, ListMap.truncate] using ih'
          · simpa [hget, htake, ListMap.truncate] using hfinal
        · have hget : m.get k' ≠ [] := fun h => htake (by simp [h])
          simpa [htake, hget, ListMap.truncate] using ih'
      · rw [if_neg hk] at ih'
        rw [← ListMap.truncate] at ih'
        rw [← ih']
        split
        · simp [Ne.symm hk]
        · rfl
    · simp

/-- `j` comes from `base` by pushes and by walks back to journals not shorter than that of
`base`. -/
def Extends (base j : Journaled K V) : Prop :=
  base.journal.length ≤ j.journal.length ∧ (j.walk base.journal.length).1 = base

omit [Std.LawfulEqOrd K] in
theorem Extends.refl (j : Journaled K V) : Extends j j :=
  ⟨le_rfl, by rw [walk_of_le le_rfl]⟩

theorem Extends.push {base j : Journaled K V} (h : Extends base j) (k : K) (v : V) :
    Extends base (j.push k v) :=
  ⟨by simpa [Journaled.push] using Nat.le_succ_of_le h.1, by rw [walk_push h.1]; exact h.2⟩

omit [Std.LawfulEqOrd K] in
theorem Extends.walk {base j : Journaled K V} (h : Extends base j) {n : Nat}
    (hn : base.journal.length ≤ n) : Extends base (j.walk n).1 :=
  ⟨by rw [length_walk]; exact le_min hn h.1, by rw [walk_walk hn]; exact h.2⟩

end Journaled

end Journal
