import Ethrex.Patricia.Update

/-!
# Subtrees

The nodes of a tree with the words that lead to them.
-/

namespace Patricia

open List

variable {α V : Type*}

/-- `Subtree t q s`: the node `s` of `t` is reached by the word `q`. -/
inductive Subtree : Tree α V → List α → Tree α V → Prop where
  | self {t : Tree α V} (ht : t ≠ .nil) : Subtree t [] t
  | ext {p q : List α} {c s : Tree α V} (h : Subtree c q s) : Subtree (.ext p c) (p ++ q) s
  | branch {cs : α → Tree α V} {v : Option V} {a : α} {q : List α} {s : Tree α V}
      (h : Subtree (cs a) q s) : Subtree (.branch cs v) (a :: q) s

namespace Subtree

variable {t s u : Tree α V} {q r : List α}

theorem ne_nil (h : Subtree t q s) : s ≠ .nil := by
  induction h with
  | self ht => exact ht
  | ext _ ih => exact ih
  | branch _ ih => exact ih

theorem not_nil (h : Subtree (.nil : Tree α V) q s) : False := by
  cases h with
  | self ht => exact ht rfl

theorem trans (h : Subtree t q s) (h' : Subtree s r u) : Subtree t (q ++ r) u := by
  induction h with
  | self _ => exact h'
  | ext _ ih =>
    rw [append_assoc]
    exact .ext (ih h')
  | branch _ ih => exact .branch (ih h')

theorem proper (h : Subtree t q s) (ht : t.Proper) : s.Proper := by
  induction h with
  | self _ => exact ht
  | ext _ ih => exact ih ht.2.2
  | branch h ih =>
    refine ih (ht.1 _ ?_)
    rintro hnil
    exact not_nil (hnil ▸ h)

theorem unique (h : Subtree t q s) (h' : Subtree t q u) (ht : t.Proper) : s = u := by
  induction h generalizing u with
  | @self t hne =>
    generalize hq : ([] : List α) = q at h'
    cases h' with
    | self _ => rfl
    | ext h => exact absurd (append_eq_nil_iff.1 hq.symm).1 ht.1
    | branch h => exact absurd hq (by simp)
  | @ext p q c s h ih =>
    generalize hr : p ++ q = r at h'
    cases h' with
    | self _ => exact absurd (append_eq_nil_iff.1 hr).1 ht.1
    | ext h' =>
      obtain rfl := append_cancel_left hr
      exact ih h' ht.2.2
  | branch h ih =>
    cases h' with
    | branch h' =>
      refine ih h' (ht.1 _ ?_)
      rintro hnil
      exact not_nil (hnil ▸ h)

theorem lookup_append [DecidableEq α] (h : Subtree t q s) (k : List α) :
    t.lookup (q ++ k) = s.lookup k := by
  induction h with
  | self _ => rfl
  | ext _ ih => simpa using ih
  | branch _ ih => simpa using ih

end Subtree

namespace Tree

variable [DecidableEq α]
variable {t : Tree α V} {k : List α}

/-- Where two words of the tree part, the next symbol of each leads to a node. -/
theorem exists_subtree_of_diverges {l m : List α} {a : α} (hk : t.lookup (l ++ a :: k) ≠ none)
    (hm : t.lookup (l ++ m) ≠ none) (ha : m.head? ≠ some a) : ∃ s, Subtree t (l ++ [a]) s := by
  induction t generalizing l with
  | nil => exact absurd rfl hk
  | leaf p v =>
    have hkp : l ++ a :: k = p := by
      by_contra hne
      exact hk (by simp [hne])
    have hmp : l ++ m = p := by
      by_contra hne
      exact hm (by simp [hne])
    rw [← hmp] at hkp
    exact absurd (by rw [← append_cancel_left hkp]; rfl) ha
  | ext p c ih =>
    obtain ⟨k', hkp, hk'⟩ := lookup_ext_ne_none hk
    obtain ⟨m', hmp, hm'⟩ := lookup_ext_ne_none hm
    rcases append_eq_append_iff.1 hkp with ⟨p', rfl, hp'⟩ | ⟨l', rfl, rfl⟩
    · -- the prefix would reach beyond the point where the words part
      rw [append_assoc] at hmp
      obtain rfl := append_cancel_left hmp
      cases p' with
      | nil =>
        obtain rfl : k' = a :: k := by simpa using hp'.symm
        obtain ⟨s, hs⟩ := ih (l := []) hk' hm'
        exact ⟨s, by simpa using Subtree.ext (p := l) hs⟩
      | cons b p' =>
        simp only [cons_append, List.cons.injEq] at hp'
        exact absurd (by simp [hp'.1]) ha
    · rw [append_assoc] at hmp
      obtain rfl := append_cancel_left hmp
      obtain ⟨s, hs⟩ := ih hk' hm'
      exact ⟨s, by simpa using Subtree.ext (p := p) hs⟩
  | branch cs v ih =>
    cases l with
    | nil =>
      refine ⟨cs a, .branch (.self ?_)⟩
      rintro hnil
      simp [hnil] at hk
    | cons b l =>
      obtain ⟨s, hs⟩ := ih b (by simpa using hk) (by simpa using hm)
      exact ⟨s, .branch hs⟩

theorem exists_subtree_of_lookup {v : V} (h : t.lookup k = some v) :
    (∃ q w, Subtree t q (leaf w v) ∧ k = q ++ w) ∨ ∃ cs, Subtree t k (branch cs (some v)) := by
  induction t generalizing k with
  | nil => simp at h
  | leaf p w =>
    by_cases hk : k = p
    · obtain rfl : w = v := by simpa [hk] using h
      exact .inl ⟨[], p, .self (by simp), by simpa using hk⟩
    · simp [hk] at h
  | ext p c ih =>
    obtain ⟨k', rfl, -⟩ := lookup_ext_ne_none (p := p) (by rw [h]; simp)
    rw [lookup_ext_append] at h
    rcases ih h with ⟨q, w, hs, rfl⟩ | ⟨cs, hs⟩
    · exact .inl ⟨p ++ q, w, .ext hs, by simp⟩
    · exact .inr ⟨cs, .ext hs⟩
  | branch cs w ih =>
    cases k with
    | nil =>
      obtain rfl : w = some v := by simpa using h
      exact .inr ⟨cs, .self (by simp)⟩
    | cons a k =>
      rcases ih a (by simpa using h) with ⟨q, w, hs, rfl⟩ | ⟨cs, hs⟩
      · exact .inl ⟨a :: q, w, .branch hs, rfl⟩
      · exact .inr ⟨cs, .branch hs⟩

end Tree

/-! ### Words of one length -/

namespace Tree

variable [DecidableEq α]

/-- Every word of the tree has length `n`. -/
def Uniform (t : Tree α V) (n : Nat) : Prop :=
  ∀ k, t.lookup k ≠ none → k.length = n

variable {t : Tree α V} {q k : List α} {n : Nat}

theorem Uniform.subtree {s : Tree α V} (h : t.Uniform n) (hs : Subtree t q s)
    (hk : s.lookup k ≠ none) : q.length + k.length = n := by
  rw [← length_append]
  exact h _ (by rwa [hs.lookup_append])

theorem Uniform.branch_value {cs : α → Tree α V} {v : Option V} (h : t.Uniform n) (ht : t.Proper)
    (hs : Subtree t q (.branch cs v)) : v = none := by
  by_contra hv
  obtain ⟨k, l, hkl, hk, hl⟩ := (hs.proper ht).branch_diverges
  have hlen : ∀ k, (branch cs v).lookup k ≠ none → k = [] := fun k hk => by
    have h₁ := h.subtree hs (k := []) (by simpa using hv)
    have h₂ := h.subtree hs hk
    simp only [length_nil] at h₁
    exact eq_nil_of_length_eq_zero (by omega)
  rw [hlen k hk, hlen l hl] at hkl
  exact hkl rfl

theorem Uniform.exists_leaf {v : V} (h : t.Uniform n) (ht : t.Proper) (hk : t.lookup k = some v) :
    ∃ q w, Subtree t q (leaf w v) ∧ k = q ++ w := by
  rcases exists_subtree_of_lookup hk with hleaf | ⟨cs, hs⟩
  · exact hleaf
  · cases h.branch_value ht hs

end Tree

end Patricia
