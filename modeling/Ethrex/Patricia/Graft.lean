import Ethrex.Patricia.Subtree

/-!
# Grafting a tree onto a tree

A tree is hung below the place where a word leaves another tree. What the word has behind that
place plays no role.
-/

namespace Patricia

open List
open Option (map_eq_some_iff some)

variable {α V : Type*} [DecidableEq α]

/-- `m'` is `m` with the tree `c` at `q`, a start of `k` below which `m` is empty. -/
structure Placed (m : List α → Option V) (k : List α) (c : Tree α V) (m' : List α → Option V)
    (q : List α) : Prop where
  isPrefix : q <+: k
  free : ∀ w, q <+: w → m w = none
  lookup : ∀ w, m' w = if q <+: w then c.lookup (w.drop q.length) else m w

namespace Placed

variable {m m' : List α → Option V} {k q : List α} {c : Tree α V}

theorem mono (h : Placed m k c m' q) {w : List α} (hw : m w ≠ none) : m' w = m w := by
  rw [h.lookup, if_neg fun hq => hw (h.free w hq)]

theorem lookup_append (h : Placed m k c m' q) (w : List α) : m' (q ++ w) = c.lookup w := by
  rw [h.lookup]
  simp

theorem lift (h : Placed m k c m' q) (p : List α) {n n' : List α → Option V}
    (hn : ∀ w, n w = if p <+: w then m (w.drop p.length) else none)
    (hn' : ∀ w, n' w = if p <+: w then m' (w.drop p.length) else none) :
    Placed n (p ++ k) c n' (p ++ q) where
  isPrefix := (prefix_append_right_inj p).2 h.isPrefix
  free w hw := by
    obtain ⟨r, rfl⟩ := hw
    rw [hn, if_pos (by simp), append_assoc, drop_left]
    exact h.free _ (prefix_append _ _)
  lookup w := by
    rw [hn', hn]
    by_cases hp : p <+: w
    · obtain ⟨r, rfl⟩ := hp
      simp [h.lookup, prefix_append_right_inj, drop_length_add_append]
    · rw [if_neg hp, if_neg hp, if_neg fun hq => hp ((prefix_append p q).trans hq)]

end Placed

namespace Tree

/-- The branch at which the word `k` leaves the leaf at `p`, with `c` on the side of `k`. -/
def graftLeaf (p : List α) (w : V) (k : List α) (c : Tree α V) : Option (Tree α V) :=
  match p, k with
  | _, [] => none
  | [], b :: _ => some (branch (single b c) (some w))
  | a :: p, b :: _ => some (branch (Function.update (single b c) a (leaf p w)) none)

/-- The branch at which the word `k` leaves the extension by `p` to `d`, with `c` on the side of
`k`. -/
def graftExt (p : List α) (d : Tree α V) (k : List α) (c : Tree α V) : Option (Tree α V) :=
  match p, k with
  | a :: p, b :: _ => some (branch (Function.update (single a (prepend p d)) b c) none)
  | _, _ => none

/-- The tree with `c` at the place where `k` leaves it, if `k` does. -/
def graft : Tree α V → List α → Tree α V → Option (Tree α V)
  | nil, _, c => some c
  | leaf p w, k, c =>
    (graftLeaf (p.drop (lcp k p)) w (k.drop (lcp k p)) c).map (prepend (k.take (lcp k p)))
  | ext p d, k, c =>
    if lcp k p = p.length then (d.graft (k.drop (lcp k p)) c).map (ext p)
    else (graftExt (p.drop (lcp k p)) d (k.drop (lcp k p)) c).map (prepend (k.take (lcp k p)))
  | branch _ _, [], _ => none
  | branch cs v, a :: k, c => ((cs a).graft k c).map fun t => branch (Function.update cs a t) v

variable {t c s : Tree α V} {p k : List α}

/-! ### Where the tree is placed -/

theorem placed_single {cs : α → Tree α V} {v : Option V} {b : α} (k : List α) (hb : cs b = nil) :
    Placed (branch cs v).lookup (b :: k) c (branch (Function.update cs b c) v).lookup [b] where
  isPrefix := by simp
  free w hw := by
    obtain ⟨r, rfl⟩ := hw
    simp [hb]
  lookup w := by
    cases w with
    | nil => simp
    | cons a w => by_cases h : a = b <;> simp [h, Ne.symm]

variable {w : V} {d : Tree α V}

theorem graftLeaf_placed (hk : ∀ a, k.head? = some a → p.head? ≠ some a)
    (h : graftLeaf p w k c = some s) : Placed (leaf p w).lookup k c s.lookup (k.take 1) := by
  match p, k with
  | [], [] => simp [graftLeaf] at h
  | _ :: _, [] => simp [graftLeaf] at h
  | [], b :: k =>
    simp only [graftLeaf, some.injEq] at h
    subst h
    have hleaf : (leaf ([] : List α) w).lookup = (branch (fun _ => nil) (some w)).lookup := by
      funext l
      cases l <;> simp
    exact hleaf ▸ placed_single k rfl
  | a :: p, b :: k =>
    have hab : a ≠ b := by simpa using hk b
    simp only [graftLeaf, some.injEq] at h
    subst h
    have hleaf : (leaf (a :: p) w).lookup = (branch (single a (leaf p w)) none).lookup := by
      funext l
      cases l with
      | nil => simp
      | cons x l => by_cases hx : x = a <;> simp [single, hx]
    rw [single, Function.update_comm hab.symm]
    exact hleaf ▸ placed_single k (by simp [single, hab.symm])

theorem graftExt_placed (hk : ∀ a, k.head? = some a → p.head? ≠ some a)
    (h : graftExt p d k c = some s) : Placed (prepend p d).lookup k c s.lookup (k.take 1) := by
  match p, k with
  | [], _ => simp [graftExt] at h
  | _ :: _, [] => simp [graftExt] at h
  | a :: p, b :: k =>
    have hab : a ≠ b := by simpa using hk b
    simp only [graftExt, some.injEq] at h
    subst h
    have hext : (prepend (a :: p) d).lookup = (branch (single a (prepend p d)) none).lookup := by
      funext l
      rw [lookup_prepend]
      cases l with
      | nil => simp
      | cons x l =>
        by_cases hx : x = a
        · subst hx
          simp [single, lookup_prepend, cons_prefix_cons]
        · simp [single, hx, cons_prefix_cons, Ne.symm hx]
    exact hext ▸ placed_single k (by simp [single, hab.symm])

theorem graft_placed (h : t.graft k c = some s) : ∃ q, Placed t.lookup k c s.lookup q := by
  induction t generalizing k s with
  | nil =>
    simp only [graft, some.injEq] at h
    subst h
    exact ⟨[], by simp, by simp, by simp⟩
  | leaf p w =>
    obtain ⟨d, k', p', rfl, rfl, hlen, hhead⟩ := lcp_spec k p
    simp only [graft, hlen, take_left, drop_left, map_eq_some_iff] at h
    obtain ⟨s, hs, rfl⟩ := h
    refine ⟨_, (graftLeaf_placed hhead hs).lift d (fun l => ?_) (lookup_prepend d · s)⟩
    exact lookup_prepend d l (leaf p' w)
  | ext p e ih =>
    obtain ⟨d, k', p', rfl, rfl, hlen, hhead⟩ := lcp_spec k p
    simp only [graft, hlen, take_left, drop_left] at h
    split at h
    · rename_i hall
      obtain rfl : p' = [] := by simpa using hall
      obtain ⟨s, hs, rfl⟩ := map_eq_some_iff.1 h
      obtain ⟨q, hq⟩ := ih hs
      exact ⟨d ++ q, hq.lift d (fun l => by simp [lookup_ext])
        (fun l => by simp [lookup_ext])⟩
    · obtain ⟨s, hs, rfl⟩ := map_eq_some_iff.1 h
      refine ⟨_, (graftExt_placed hhead hs).lift d (fun l => ?_) (lookup_prepend d · s)⟩
      by_cases hl : d <+: l
      · obtain ⟨l, rfl⟩ := hl
        simp [lookup_ext, lookup_prepend, prefix_append_right_inj,
          drop_length_add_append]
      · rw [lookup_ext, if_neg fun hp => hl ((prefix_append d p').trans hp), if_neg hl]
  | branch cs v ih =>
    cases k with
    | nil => simp [graft] at h
    | cons a k =>
      obtain ⟨s, hs, rfl⟩ := map_eq_some_iff.1 h
      obtain ⟨q, hq⟩ := ih a hs
      refine ⟨a :: q, by simpa [cons_prefix_cons] using hq.isPrefix, fun w hw => ?_,
        fun w => ?_⟩
      · cases w with
        | nil => simp at hw
        | cons b w =>
          obtain ⟨rfl, hqw⟩ := cons_prefix_cons.1 hw
          simpa using hq.free w hqw
      · cases w with
        | nil => simp
        | cons b w =>
          by_cases hb : b = a
          · subst hb
            simp [hq.lookup, cons_prefix_cons]
          · simp [hb, cons_prefix_cons, Ne.symm hb]

/-! ### When a tree can be grafted -/

/-! ### The grafted tree is canonical -/

theorem graftLeaf_proper (hk : ∀ a, k.head? = some a → p.head? ≠ some a) (hc : c.Proper)
    (h : graftLeaf p w k c = some s) : s.Proper ∧ s.IsBranch := by
  match p, k with
  | [], [] => simp [graftLeaf] at h
  | _ :: _, [] => simp [graftLeaf] at h
  | [], b :: k =>
    simp only [graftLeaf, some.injEq] at h
    subst h
    exact ⟨⟨Canonical.single hc.canonical b, .inr ⟨by simp, b, by simpa [single] using hc.ne_nil⟩⟩,
      trivial⟩
  | a :: p, b :: k =>
    have hab : a ≠ b := by simpa using hk b
    simp only [graftLeaf, some.injEq] at h
    subst h
    refine ⟨⟨Canonical.update (Canonical.single hc.canonical b) a (proper_leaf p w).canonical,
      .inl ⟨a, b, hab, by simp, ?_⟩⟩, trivial⟩
    simpa [single, hab.symm] using hc.ne_nil

theorem graftExt_proper (hk : ∀ a, k.head? = some a → p.head? ≠ some a) (hd : d.Proper)
    (hc : c.Proper) (h : graftExt p d k c = some s) : s.Proper ∧ s.IsBranch := by
  match p, k with
  | [], _ => simp [graftExt] at h
  | _ :: _, [] => simp [graftExt] at h
  | a :: p, b :: k =>
    have hab : a ≠ b := by simpa using hk b
    have hne : prepend p d ≠ nil := fun he => hd.ne_nil (prepend_eq_nil.1 he)
    simp only [graftExt, some.injEq] at h
    subst h
    refine ⟨⟨Canonical.update (Canonical.single (hd.canonical.prepend p) a) b hc.canonical,
      .inl ⟨a, b, hab, ?_, by simpa using hc.ne_nil⟩⟩, trivial⟩
    simpa [single, hab] using hne

theorem IsBranch.graft (ht : t.IsBranch) (h : t.graft k c = some s) : s.IsBranch := by
  cases t with
  | branch cs v =>
    cases k with
    | nil => simp [Tree.graft] at h
    | cons a k =>
      obtain ⟨s, -, rfl⟩ := map_eq_some_iff.1 h
      trivial
  | nil => exact ht.elim
  | leaf _ _ => exact ht.elim
  | ext _ _ => exact ht.elim

theorem Canonical.graft (ht : t.Canonical) (hc : c.Proper) (h : t.graft k c = some s) :
    s.Proper := by
  induction t generalizing k s with
  | nil =>
    simp only [Tree.graft, some.injEq] at h
    exact h ▸ hc
  | leaf p w =>
    obtain ⟨d, k', p', rfl, rfl, hlen, hhead⟩ := lcp_spec k p
    simp only [Tree.graft, hlen, take_left, drop_left, map_eq_some_iff] at h
    obtain ⟨s, hs, rfl⟩ := h
    have hs' := (graftLeaf_proper hhead hc hs).1
    exact hs'.canonical.prepend d fun he => hs'.ne_nil (prepend_eq_nil.1 he)
  | ext p e ih =>
    obtain ⟨hp, hb, he⟩ := ht (by simp)
    obtain ⟨d, k', p', rfl, rfl, hlen, hhead⟩ := lcp_spec k p
    simp only [Tree.graft, hlen, take_left, drop_left] at h
    split at h
    · obtain ⟨s, hs, rfl⟩ := map_eq_some_iff.1 h
      exact ⟨hp, hb.graft hs, ih he.canonical hs⟩
    · obtain ⟨s, hs, rfl⟩ := map_eq_some_iff.1 h
      have hs' := (graftExt_proper hhead he hc hs).1
      exact hs'.canonical.prepend d fun he => hs'.ne_nil (prepend_eq_nil.1 he)
  | branch cs v ih =>
    cases k with
    | nil => simp [Tree.graft] at h
    | cons a k =>
      obtain ⟨hcs, htwo⟩ := ht (by simp)
      obtain ⟨s, hs, rfl⟩ := map_eq_some_iff.1 h
      have hs' := ih a (hcs a) hs
      exact ⟨Canonical.update hcs a hs'.canonical, htwo.update a hs'.ne_nil⟩

def graftAll : Tree α V → List (List α × Tree α V) → Option (Tree α V)
  | t, [] => some t
  | t, (k, c) :: rs => (t.graft k c).bind fun s => s.graftAll rs

/-- What the tree after a sequence of grafts has from the tree before and from the grafted ones. -/
structure Grafted (t : Tree α V) (rs : List (List α × Tree α V)) (s : Tree α V) : Prop where
  proper : s.Proper
  kept : ∀ w, t.lookup w ≠ none → s.lookup w = t.lookup w
  placed : ∀ r ∈ rs, ∃ q, q <+: r.1 ∧ ∀ w, r.2.lookup w ≠ none → s.lookup (q ++ w) = r.2.lookup w
  origin : ∀ w, s.lookup w ≠ none → t.lookup w ≠ none ∨
    ∃ r ∈ rs, ∃ q w', q <+: r.1 ∧ w = q ++ w' ∧ r.2.lookup w' ≠ none

theorem Proper.graftAll (ht : t.Proper) {rs : List (List α × Tree α V)}
    (hrs : ∀ r ∈ rs, r.2.Proper) (h : t.graftAll rs = some s) : Grafted t rs s := by
  induction rs generalizing t with
  | nil =>
    cases h
    exact ⟨ht, fun _ _ => rfl, by simp, fun _ hw => .inl hw⟩
  | cons r rs ih =>
    obtain ⟨k, c⟩ := r
    obtain ⟨t₁, hgraft, hrest⟩ := Option.bind_eq_some_iff.1 h
    obtain ⟨q, hq⟩ := graft_placed hgraft
    have h₁ := ih (ht.canonical.graft (hrs (k, c) (by simp)) hgraft)
      (fun r hr => hrs r (by simp [hr])) hrest
    refine ⟨h₁.proper, fun w hw => ?_, fun r hr => ?_, fun w hw => ?_⟩
    · have hmono := hq.mono hw
      rw [h₁.kept w (hmono ▸ hw), hmono]
    · rcases mem_cons.1 hr with rfl | hr
      · refine ⟨q, hq.isPrefix, fun w hw => ?_⟩
        have hplace := hq.lookup_append w
        rw [h₁.kept _ (hplace ▸ hw), hplace]
      · exact h₁.placed r hr
    · rcases h₁.origin w hw with hw | ⟨r, hr, hrw⟩
      · rw [hq.lookup] at hw
        split at hw
        · rename_i hpre
          obtain ⟨w', rfl⟩ := hpre
          exact .inr ⟨(k, c), by simp, q, w', hq.isPrefix, rfl, by simpa using hw⟩
        · exact .inl hw
      · exact .inr ⟨r, by simp [hr], hrw⟩

end Tree

end Patricia
