import Mathlib

/-!
# Patricia trees

A tree is canonical when no branch has fewer than two entries and no extension is empty or leads to
anything but a branch; canonical trees with the same map are equal.
-/

namespace Patricia

variable {α V : Type*}

/-- A path-compressed tree; `nil` stands for a missing subtree. -/
inductive Tree (α V : Type*) where
  | nil
  | leaf (path : List α) (value : V)
  | ext (path : List α) (child : Tree α V)
  | branch (children : α → Tree α V) (value : Option V)

namespace Tree

def IsBranch : Tree α V → Prop
  | branch _ _ => True
  | _ => False

def TwoEntries (children : α → Tree α V) (value : Option V) : Prop :=
  (∃ a b, a ≠ b ∧ children a ≠ nil ∧ children b ≠ nil) ∨
    (value ≠ none ∧ ∃ a, children a ≠ nil)

def Proper : Tree α V → Prop
  | nil => False
  | leaf _ _ => True
  | ext p c => p ≠ [] ∧ c.IsBranch ∧ c.Proper
  | branch cs v => (∀ a, cs a ≠ nil → (cs a).Proper) ∧ TwoEntries cs v

def Canonical (t : Tree α V) : Prop :=
  t ≠ nil → t.Proper

variable {t : Tree α V}

theorem Proper.ne_nil (h : t.Proper) : t ≠ nil := by
  rintro rfl
  exact h

theorem Proper.canonical (h : t.Proper) : t.Canonical := fun _ => h

theorem canonical_nil : (nil : Tree α V).Canonical := fun h => absurd rfl h

theorem Proper.induction {motive : (t : Tree α V) → t.Proper → Prop}
    (leaf : ∀ p v, motive (.leaf p v) trivial)
    (ext : ∀ p cs v (hp : p ≠ []) (hc : (branch cs v).Proper), motive (.branch cs v) hc →
      motive (.ext p (.branch cs v)) ⟨hp, trivial, hc⟩)
    (branch : ∀ cs v (hcs : ∀ a, (cs a).Canonical) (htwo : TwoEntries cs v),
      (∀ a (ha : cs a ≠ nil), motive (cs a) (hcs a ha)) → motive (.branch cs v) ⟨hcs, htwo⟩)
    (h : t.Proper) : motive t h := by
  induction t with
  | nil => exact absurd h id
  | leaf p v => exact leaf p v
  | ext p c ih =>
    obtain ⟨hp, hb, hc⟩ := h
    cases c with
    | branch cs v => exact ext p cs v hp hc (ih hc)
    | nil => exact absurd hb id
    | leaf _ _ => exact absurd hb id
    | ext _ _ => exact absurd hb id
  | branch cs v ih => exact branch cs v h.1 h.2 fun a ha => ih a (h.1 a ha)

section Lookup

variable [DecidableEq α]

def lookup : Tree α V → List α → Option V
  | nil, _ => none
  | leaf p v, k => if k = p then some v else none
  | ext p c, k => if p <+: k then c.lookup (k.drop p.length) else none
  | branch _ v, [] => v
  | branch cs _, a :: k => (cs a).lookup k

@[simp] theorem lookup_nil (k : List α) : (nil : Tree α V).lookup k = none := by
  simp [lookup]

@[simp] theorem lookup_leaf (p k : List α) (v : V) :
    (leaf p v).lookup k = if k = p then some v else none := by
  simp [lookup]

@[simp] theorem lookup_branch_nil (cs : α → Tree α V) (v : Option V) :
    (branch cs v).lookup [] = v := by
  simp [lookup]

@[simp] theorem lookup_branch_cons (cs : α → Tree α V) (v : Option V) (a : α) (k : List α) :
    (branch cs v).lookup (a :: k) = (cs a).lookup k := by
  simp [lookup]

theorem lookup_ext (p k : List α) (c : Tree α V) :
    (ext p c).lookup k = if p <+: k then c.lookup (k.drop p.length) else none := by
  simp [lookup]

@[simp] theorem lookup_ext_append (p k : List α) (c : Tree α V) :
    (ext p c).lookup (p ++ k) = c.lookup k := by
  simp [lookup_ext]

variable {c t : Tree α V} {l : List α}

theorem lookup_ext_ne_none {p k : List α} (h : (ext p c).lookup k ≠ none) :
    ∃ k', k = p ++ k' ∧ c.lookup k' ≠ none := by
  rw [lookup_ext] at h
  split at h
  · rename_i hp
    obtain ⟨k', rfl⟩ := hp
    exact ⟨k', rfl, by simpa using h⟩
  · exact absurd rfl h

theorem Proper.exists_lookup (h : t.Proper) : ∃ k, t.lookup k ≠ none := by
  induction h using Proper.induction with
  | leaf p v => exact ⟨p, by simp⟩
  | ext p cs v hp hc ih =>
    obtain ⟨k, hk⟩ := ih
    exact ⟨p ++ k, by simpa using hk⟩
  | branch cs v hcs htwo ih =>
    have hchild : ∃ a, cs a ≠ nil := by
      rcases htwo with ⟨a, _, _, ha, _⟩ | ⟨_, a, ha⟩
      · exact ⟨a, ha⟩
      · exact ⟨a, ha⟩
    obtain ⟨a, ha⟩ := hchild
    obtain ⟨k, hk⟩ := ih a ha
    exact ⟨a :: k, by simpa using hk⟩

theorem Canonical.eq_nil (h : t.Canonical) (hnone : ∀ k, t.lookup k = none) : t = nil := by
  by_contra hne
  obtain ⟨k, hk⟩ := (h hne).exists_lookup
  exact hk (hnone k)

theorem Proper.branch_diverges {cs : α → Tree α V} {v : Option V} (h : (branch cs v).Proper) :
    ∃ k l, k.head? ≠ l.head? ∧ (branch cs v).lookup k ≠ none ∧ (branch cs v).lookup l ≠ none := by
  obtain ⟨hcs, ⟨a, b, hab, ha, hb⟩ | ⟨hv, a, ha⟩⟩ := h
  · obtain ⟨k, hk⟩ := (hcs a ha).exists_lookup
    obtain ⟨l, hl⟩ := (hcs b hb).exists_lookup
    exact ⟨a :: k, b :: l, by simpa using hab, by simpa using hk, by simpa using hl⟩
  · obtain ⟨k, hk⟩ := (hcs a ha).exists_lookup
    exact ⟨[], a :: k, by simp, by simpa using hv, by simpa using hk⟩

theorem leaf_ne_of_diverges {p : List α} {v : V} {k : List α} (hkl : k.head? ≠ l.head?)
    (hk : (leaf p v).lookup k ≠ none) (hl : (leaf p v).lookup l ≠ none) : False := by
  simp only [lookup_leaf, ne_eq, ite_eq_right_iff, reduceCtorEq, imp_false, not_not] at hk hl
  exact hkl (by rw [hk, hl])

theorem ext_ne_of_diverges {p : List α} {k : List α} (hp : p ≠ []) (hkl : k.head? ≠ l.head?)
    (hk : (ext p c).lookup k ≠ none) (hl : (ext p c).lookup l ≠ none) : False := by
  obtain ⟨k', rfl, -⟩ := lookup_ext_ne_none hk
  obtain ⟨l', rfl, -⟩ := lookup_ext_ne_none hl
  cases p with
  | nil => exact hp rfl
  | cons a p => exact hkl (by simp)

theorem Proper.ext_diverges {p : List α} (h : (ext p c).Proper) :
    ∃ k l, k ≠ l ∧ (ext p c).lookup k ≠ none ∧ (ext p c).lookup l ≠ none := by
  obtain ⟨hp, hb, hc⟩ := h
  cases c with
  | branch cs v =>
    obtain ⟨k, l, hkl, hk, hl⟩ := hc.branch_diverges
    refine ⟨p ++ k, p ++ l, fun he => hkl ?_, by simpa using hk, by simpa using hl⟩
    rw [List.append_cancel_left he]
  | nil => exact absurd hb id
  | leaf _ _ => exact absurd hb id
  | ext _ _ => exact absurd hb id

theorem ext_path_isPrefix {p q : List α} {ds : α → Tree α V} {w : Option V}
    (hd : (branch ds w).Proper) (h : ∀ k, (ext p c).lookup k = (ext q (branch ds w)).lookup k) :
    p <+: q := by
  obtain ⟨k, l, hkl, hk, hl⟩ := hd.branch_diverges
  obtain ⟨k', hk', -⟩ := lookup_ext_ne_none (p := p) (c := c) (k := q ++ k) (by simpa [h] using hk)
  obtain ⟨l', hl', -⟩ := lookup_ext_ne_none (p := p) (c := c) (k := q ++ l) (by simpa [h] using hl)
  rcases List.append_eq_append_iff.1 hk' with ⟨r, rfl, hkr⟩ | ⟨r, rfl, hkr⟩
  · cases r with
    | nil => simp
    | cons a r =>
      rw [List.append_assoc] at hl'
      have hlr := List.append_cancel_left hl'
      exact absurd (by rw [hkr, hlr]; simp) hkl
  · exact List.prefix_append _ _

theorem Canonical.ext_lookup {s : Tree α V} (hs : s.Canonical) (ht : t.Canonical)
    (h : ∀ k, s.lookup k = t.lookup k) : s = t := by
  by_cases hsn : s = nil
  · subst hsn
    exact (ht.eq_nil fun k => by rw [← h]; simp).symm
  by_cases htn : t = nil
  · subst htn
    exact hs.eq_nil fun k => by rw [h]; simp
  replace hs := hs hsn
  replace ht := ht htn
  clear hsn htn
  induction hs using Proper.induction generalizing t with
  | leaf p v =>
    cases t with
    | nil => exact absurd ht id
    | leaf q w =>
      have hp := h p
      simp only [lookup_leaf, if_true] at hp
      split at hp
      · rename_i hpq
        simp only [Option.some.injEq] at hp
        rw [hpq, hp]
      · cases hp
    | ext q d =>
      obtain ⟨k, l, hkl, hk, hl⟩ := ht.ext_diverges
      rw [← h, lookup_leaf] at hk hl
      simp only [ne_eq, ite_eq_right_iff, reduceCtorEq, imp_false, not_not] at hk hl
      exact absurd (hk.trans hl.symm) hkl
    | branch ds w =>
      obtain ⟨k, l, hkl, hk, hl⟩ := ht.branch_diverges
      rw [← h] at hk hl
      exact (leaf_ne_of_diverges hkl hk hl).elim
  | ext p cs v hp hc ih =>
    cases t with
    | nil => exact absurd ht id
    | leaf q w =>
      have hs : (ext p (branch cs v)).Proper := ⟨hp, trivial, hc⟩
      obtain ⟨k, l, hkl, hk, hl⟩ := hs.ext_diverges
      rw [h, lookup_leaf] at hk hl
      simp only [ne_eq, ite_eq_right_iff, reduceCtorEq, imp_false, not_not] at hk hl
      exact absurd (hk.trans hl.symm) hkl
    | ext q d =>
      obtain ⟨hq, hdb, hd⟩ := ht
      cases d with
      | branch ds w =>
        have hpq : p = q := (ext_path_isPrefix hd h).eq_of_length
          (le_antisymm (ext_path_isPrefix hd h).length_le
            (ext_path_isPrefix hc fun k => (h k).symm).length_le)
        subst hpq
        rw [ih (fun k => by simpa using h (p ++ k)) hd]
      | nil => exact absurd hdb id
      | leaf _ _ => exact absurd hdb id
      | ext _ _ => exact absurd hdb id
    | branch ds w =>
      obtain ⟨k, l, hkl, hk, hl⟩ := ht.branch_diverges
      rw [← h] at hk hl
      exact (ext_ne_of_diverges hp hkl hk hl).elim
  | branch cs v hcs htwo ih =>
    have hs : (branch cs v).Proper := ⟨hcs, htwo⟩
    obtain ⟨k, l, hkl, hk, hl⟩ := hs.branch_diverges
    rw [h] at hk hl
    cases t with
    | nil => exact absurd ht id
    | leaf q w => exact (leaf_ne_of_diverges hkl hk hl).elim
    | ext q d => exact (ext_ne_of_diverges ht.1 hkl hk hl).elim
    | branch ds w =>
      have hv : v = w := by simpa using h []
      have hchild : ∀ a, cs a = ds a := by
        intro a
        have ha : ∀ k, (cs a).lookup k = (ds a).lookup k := fun k => by simpa using h (a :: k)
        by_cases hca : cs a = nil
        · rw [hca]
          exact (Canonical.eq_nil (ht.1 a) fun k => by rw [← ha, hca]; simp).symm
        by_cases hda : ds a = nil
        · rw [hda]
          exact Canonical.eq_nil (hcs a) fun k => by rw [ha, hda]; simp
        exact ih a hca ha (ht.1 a hda)
      rw [hv, funext hchild]

end Lookup

end Tree

end Patricia
