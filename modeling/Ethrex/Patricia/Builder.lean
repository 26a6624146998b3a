import Ethrex.Patricia.Order
import Ethrex.Patricia.Subtree

/-!
# Building a tree from sorted words

The branches on the path of the last word are open frames, innermost first; the focus hangs below
the innermost. Three moves: close the innermost frame, put the next word beside the focus, or open a
frame that holds both.
-/

namespace Patricia

open Patricia.Tree Function
open List (cons_prefix_cons mem_append mem_cons mem_singleton prefix_append
  prefix_append_right_inj prefix_rfl)

variable {α V : Type*} [LinearOrder α]

structure Frame (α V : Type*) where
  path : List α
  children : α → Tree α V

/-- The tree that hangs below the innermost frame, at its path. -/
structure Focus (α V : Type*) where
  path : List α
  tree : Tree α V

/-- A focus is a value or a branch: what lies between it and its frame is not part of it. -/
def IsFocus : Tree α V → Prop
  | .leaf p _ => p = []
  | .branch _ v => v = none
  | _ => False

variable (f : Frame α V) (c : Focus α V)

namespace Frame

def attach : Frame α V :=
  match c.path.drop f.path.length with
  | [] => f
  | a :: r => { f with children := update f.children a (prepend r c.tree) }

def close : Focus α V :=
  ⟨f.path, .branch (f.attach c).children none⟩

/-- A focus that gets an extension is a node below its frame's child. -/
def inner : List α → List (List α × Tree α V)
  | [] => []
  | _ :: _ =>
    match c.tree with
    | .branch _ _ => [(c.path, c.tree)]
    | _ => []

def emit : List (List α × Tree α V) :=
  match c.path.drop f.path.length with
  | [] => []
  | a :: r => inner c r ++ [(f.path ++ [a], prepend r c.tree)]

variable {f : Frame α V} {c : Focus α V} {a : α} {r : List α}

@[simp] theorem attach_path : (f.attach c).path = f.path := by
  rw [attach]
  split <;> rfl

theorem attach_children (h : c.path = f.path ++ a :: r) :
    (f.attach c).children = update f.children a (prepend r c.tree) := by
  simp [attach, h]

theorem attach_children_self (h : c.path = f.path ++ a :: r) :
    (f.attach c).children a = prepend r c.tree := by
  rw [attach_children h, update_self]

theorem attach_children_of_ne {b : α} (h : c.path = f.path ++ a :: r) (hb : b ≠ a) :
    (f.attach c).children b = f.children b := by
  rw [attach_children h, update_of_ne hb]

theorem attach_canonical (h : c.path = f.path ++ a :: r) (hcan : ∀ b, (f.children b).Canonical)
    (hc : c.tree.Proper) (b : α) : ((f.attach c).children b).Canonical := by
  by_cases hb : b = a
  · subst hb
    rw [attach_children_self h]
    exact hc.canonical.prepend r
  · rw [attach_children_of_ne h hb]
    exact hcan b

theorem attach_child (h : c.path = f.path ++ a :: r) (hc : c.tree.Proper) :
    (f.attach c).children a ≠ nil := by
  rw [attach_children_self h]
  exact fun he => hc.ne_nil (prepend_eq_nil.1 he)

omit [LinearOrder α] in
theorem emit_eq (h : c.path = f.path ++ a :: r) :
    f.emit c = inner c r ++ [(f.path ++ [a], prepend r c.tree)] := by
  simp [emit, h]

end Frame

/-! ### The map of a focus -/

namespace Focus

def lookup (c : Focus α V) (w : List α) : Option V := (prepend c.path c.tree).lookup w

def Adds (c c' : Focus α V) (k : List α) (v : V) : Prop :=
  ∀ w, c'.lookup w = if w = k then some v else c.lookup w

theorem lookup_append (w : List α) : c.lookup (c.path ++ w) = c.tree.lookup w :=
  lookup_prepend_append c.path w c.tree

variable {c : Focus α V} {f : Frame α V} {a : α} {r : List α}

theorem lookup_of_not_isPrefix {w : List α} (h : ¬c.path <+: w) : c.lookup w = none :=
  lookup_prepend_of_not_isPrefix h c.tree

/-- Closing a frame keeps the entries of the focus and of the frame's other children. -/
theorem lookup_close (h : c.path = f.path ++ a :: r) (w : List α) :
    (f.close c).lookup w = if f.path ++ [a] <+: w then c.lookup w
      else (Focus.mk f.path (.branch f.children none)).lookup w := by
  by_cases hw : f.path <+: w
  · obtain ⟨w, rfl⟩ := hw
    rw [show f.close c = ⟨f.path, .branch (f.attach c).children none⟩ from rfl]
    rw [lookup_append ⟨f.path, .branch (f.attach c).children none⟩,
      lookup_append ⟨f.path, .branch f.children none⟩, Frame.attach_children h]
    cases w with
    | nil =>
      have hpre : ¬f.path ++ [a] <+: f.path ++ [] := fun hp => by
        have := hp.length_le
        simp at this
      rw [if_neg hpre, lookup_branch_nil, lookup_branch_nil]
    | cons b w =>
      by_cases hb : b = a
      · subst hb
        have hpre : f.path ++ [b] <+: f.path ++ b :: w := ⟨w, by simp⟩
        rw [if_pos hpre, lookup_branch_cons, update_self, lookup, h, lookup_prepend,
          lookup_prepend]
        simp
      · have hpre : ¬f.path ++ [a] <+: f.path ++ b :: w := by
          simp [prefix_append_right_inj, cons_prefix_cons, Ne.symm hb]
        rw [if_neg hpre, lookup_branch_cons, lookup_branch_cons, update_of_ne hb]
  · have hpre : ¬f.path ++ [a] <+: w := fun hp => hw ((prefix_append _ _).trans hp)
    rw [if_neg hpre, lookup_of_not_isPrefix hw, lookup_of_not_isPrefix hw]

theorem Adds.close {c' : Focus α V} {r' k : List α} {v : V} (h : Adds c c' k v)
    (hc : c.path = f.path ++ a :: r) (hc' : c'.path = f.path ++ a :: r')
    (hk : f.path ++ [a] <+: k) : Adds (f.close c) (f.close c') k v := by
  intro w
  rw [lookup_close hc, lookup_close hc', h w]
  by_cases hw : w = k
  · subst hw
    simp [hk]
  · simp [hw]

end Focus

/-! ### Frames that hang together -/

def assemble (fs : List (Frame α V)) (c : Focus α V) : Focus α V :=
  fs.foldl (fun c f => f.close c) c

/-- The frames above the path `q`, innermost first: each is on the path, nothing hangs in it at or
right of the path, and every frame but the root has a child. -/
inductive Chain : List (Frame α V) → List α → Prop where
  | nil : Chain [] []
  | cons {f : Frame α V} {fs : List (Frame α V)} {q : List α} {a : α} {r : List α}
      (h : Chain fs f.path) (hq : q = f.path ++ a :: r) (hnil : ∀ b, a ≤ b → f.children b = nil)
      (hcan : ∀ b, (f.children b).Canonical) (hchild : fs ≠ [] → ∃ b, f.children b ≠ nil) :
      Chain (f :: fs) q

theorem assemble_cons (fs : List (Frame α V)) (c : Focus α V) :
    assemble (f :: fs) c = assemble fs (f.close c) := rfl

variable {fs : List (Frame α V)} {q r p : List α} {c : Focus α V} {v : V} {f : Frame α V} {a : α}
  {s : Tree α V}

theorem Focus.Adds.assemble {c' : Focus α V} {k : List α} (hadd : c.Adds c' k v) (h : Chain fs q)
    (hc : c.path = q) (hc' : c'.path = q) (hk : q <+: k) :
    (assemble fs c).Adds (assemble fs c') k v := by
  induction h generalizing c c' with
  | nil => exact hadd
  | @cons f fs q a r h hq hnil hcan hchild ih =>
    have hpre : f.path ++ [a] <+: k := by
      refine List.IsPrefix.trans ?_ hk
      rw [hq]
      exact ⟨r, by simp⟩
    rw [assemble_cons, assemble_cons]
    exact ih (hadd.close (hc.trans hq) (hc'.trans hq) hpre) rfl rfl
      ((prefix_append _ _).trans hpre)

theorem Frame.close_proper (hq : c.path = f.path ++ a :: r) (hnil : f.children a = nil)
    (hcan : ∀ b, (f.children b).Canonical) (hchild : ∃ b, f.children b ≠ nil) (hc : c.tree.Proper) :
    (f.close c).tree.Proper := by
  obtain ⟨b, hb⟩ := hchild
  have hba : b ≠ a := by
    rintro rfl
    exact hb hnil
  refine ⟨attach_canonical hq hcan hc, .inl ⟨b, a, hba, ?_, attach_child hq hc⟩⟩
  rwa [attach_children_of_ne hq hba]

def Finished (fs : List (Frame α V)) (p : List α) (s : Tree α V) : Prop :=
  ∃ f ∈ fs, ∃ a q, p = f.path ++ a :: q ∧ Subtree (f.children a) q s

def Below (fs : List (Frame α V)) (c : Focus α V) (p : List α) (s : Tree α V) : Prop :=
  Finished fs p s ∨ ∃ q, q ≠ [] ∧ p = c.path ++ q ∧ Subtree c.tree q s

omit [LinearOrder α] in
theorem subtree_leaf_iff : Subtree (.leaf p v) q s ↔ q = [] ∧ s = .leaf p v := by
  constructor
  · intro h
    cases h with
    | self _ => exact ⟨rfl, rfl⟩
  · rintro ⟨rfl, rfl⟩
    exact .self (by simp)

omit [LinearOrder α] in
theorem subtree_branch_iff {cs : α → Tree α V} {v : Option V} :
    Subtree (.branch cs v) q s ↔ (q = [] ∧ s = .branch cs v) ∨
      ∃ a q', q = a :: q' ∧ Subtree (cs a) q' s := by
  constructor
  · intro h
    cases h with
    | self _ => exact .inl ⟨rfl, rfl⟩
    | branch h => exact .inr ⟨_, _, rfl, h⟩
  · rintro (⟨rfl, rfl⟩ | ⟨a, q', rfl, h⟩)
    · exact .self (by simp)
    · exact .branch h

omit [LinearOrder α] in
theorem subtree_ext_iff {c : Tree α V} :
    Subtree (.ext p c) q s ↔ (q = [] ∧ s = .ext p c) ∨ ∃ q', q = p ++ q' ∧ Subtree c q' s := by
  constructor
  · intro h
    cases h with
    | self _ => exact .inl ⟨rfl, rfl⟩
    | ext h => exact .inr ⟨_, rfl, h⟩
  · rintro (⟨rfl, rfl⟩ | ⟨q', rfl, h⟩)
    · exact .self (by simp)
    · exact .ext h

omit [LinearOrder α] in
/-- What lies strictly inside the focus together with the inner node is what lies strictly inside
the child that the focus becomes. -/
theorem mem_inner_iff (hq : c.path = p ++ a :: r) (hc : IsFocus c.tree) (w : List α)
    (s : Tree α V) :
    ((∃ q, q ≠ [] ∧ w = c.path ++ q ∧ Subtree c.tree q s) ∨ (w, s) ∈ Frame.inner c r) ↔
      ∃ q, q ≠ [] ∧ w = p ++ a :: q ∧ Subtree (prepend r c.tree) q s := by
  obtain ⟨path, tree⟩ := c
  obtain rfl : path = p ++ a :: r := hq
  cases tree with
  | nil => exact hc.elim
  | ext _ _ => exact hc.elim
  | leaf u v =>
    have hinner : Frame.inner (⟨p ++ a :: r, .leaf u v⟩ : Focus α V) r = [] := by
      cases r <;> rfl
    simp [hinner, prepend, subtree_leaf_iff]
  | branch cs v =>
    cases r with
    | nil => simp [Frame.inner]
    | cons x r =>
      have hprep : prepend (x :: r) (.branch cs v : Tree α V) = .ext (x :: r) (.branch cs v) := by
        simp [prepend]
      rw [hprep]
      simp only [Frame.inner, mem_singleton, Prod.mk.injEq]
      constructor
      · rintro (⟨q, -, rfl, hs⟩ | ⟨rfl, rfl⟩)
        · exact ⟨x :: r ++ q, by simp, by simp, .ext hs⟩
        · exact ⟨x :: r ++ [], by simp, by simp, .ext (.self (by simp))⟩
      rintro ⟨q, hne, rfl, hs⟩
      rcases subtree_ext_iff.1 hs with ⟨rfl, -⟩ | ⟨q', rfl, hs'⟩
      · exact absurd rfl hne
      by_cases hq' : q' = []
      · subst hq'
        rcases subtree_branch_iff.1 hs' with ⟨-, rfl⟩ | ⟨_, _, h, -⟩
        · exact .inr ⟨by simp, rfl⟩
        · cases h
      · exact .inl ⟨q', hq', by simp, hs'⟩

theorem mem_append_emit_iff {out : List (List α × Tree α V)} (hq : c.path = f.path ++ a :: r)
    (hnil : f.children a = nil) (hc : IsFocus c.tree) (hproper : c.tree.Proper)
    (hout : ∀ p s, (p, s) ∈ out ↔ Below (f :: fs) c p s) (p : List α) (s : Tree α V) :
    (p, s) ∈ out ++ f.emit c ↔ Finished (f.attach c :: fs) p s := by
  have hne : prepend r c.tree ≠ nil := fun he => hproper.ne_nil (prepend_eq_nil.1 he)
  have hself := Frame.attach_children_self hq
  have hlast : (p, s) ∈ [(f.path ++ [a], prepend r c.tree)] ↔
      p = f.path ++ a :: [] ∧ s = prepend r c.tree := by simp
  rw [Frame.emit_eq hq, mem_append, mem_append, hout, Below, hlast]
  have hinner := mem_inner_iff hq hc p s
  constructor
  · rintro ((⟨g, hg, b, q, rfl, hs⟩ | hstrict) | hin | ⟨rfl, rfl⟩)
    · rcases mem_cons.1 hg with rfl | hg
      · have hb : b ≠ a := by
          rintro rfl
          rw [hnil] at hs
          exact Subtree.not_nil hs
        refine ⟨g.attach c, by simp, b, q, by simp, ?_⟩
        rwa [Frame.attach_children_of_ne hq hb]
      · exact ⟨g, by simp [hg], b, q, rfl, hs⟩
    · obtain ⟨q, -, rfl, hs⟩ := hinner.1 (.inl hstrict)
      exact ⟨f.attach c, by simp, a, q, by simp, by rwa [hself]⟩
    · obtain ⟨q, -, rfl, hs⟩ := hinner.1 (.inr hin)
      exact ⟨f.attach c, by simp, a, q, by simp, by rwa [hself]⟩
    · exact ⟨f.attach c, by simp, a, [], by simp, by rw [hself]; exact .self hne⟩
  · rintro ⟨g, hg, b, q, rfl, hs⟩
    rcases mem_cons.1 hg with rfl | hg
    · rw [Frame.attach_path] at hinner ⊢
      by_cases hb : b = a
      · subst hb
        rw [hself] at hs
        by_cases hqn : q = []
        · subst hqn
          have hs' := hs.unique (.self hne) (hproper.canonical.prepend r hne)
          exact .inr (.inr ⟨rfl, hs'⟩)
        · rcases hinner.2 ⟨q, hqn, rfl, hs⟩ with h | h
          · exact .inl (.inr h)
          · exact .inr (.inl h)
      · rw [Frame.attach_children_of_ne hq hb] at hs
        exact .inl (.inl ⟨f, by simp, b, q, rfl, hs⟩)
    · exact .inl (.inl ⟨g, by simp [hg], b, q, rfl, hs⟩)

theorem finished_attach_iff : Finished (f.attach c :: fs) p s ↔ Below fs (f.close c) p s := by
  constructor
  · rintro ⟨g, hg, b, q, rfl, hs⟩
    rcases mem_cons.1 hg with rfl | hg
    · exact .inr ⟨b :: q, by simp, by simp [Frame.close], .branch hs⟩
    · exact .inl ⟨g, hg, b, q, rfl, hs⟩
  · rintro (⟨g, hg, b, q, rfl, hs⟩ | ⟨q, hne, rfl, hs⟩)
    · exact ⟨g, by simp [hg], b, q, rfl, hs⟩
    · rcases subtree_branch_iff.1 hs with ⟨rfl, -⟩ | ⟨b, q', rfl, hs'⟩
      · exact absurd rfl hne
      · exact ⟨f.attach c, by simp, b, q', by simp [Frame.close], hs'⟩

/-! ### The invariant and the moves -/

/-- Frames, focus and finished nodes stand for the map `m`, whose greatest word is `last`. -/
structure Builds (fs : List (Frame α V)) (c : Focus α V) (out : List (List α × Tree α V))
    (m : List α → Option V) (last : List α) : Prop where
  chain : Chain fs c.path
  ne_nil : fs ≠ []
  focus : IsFocus c.tree
  proper : c.tree.Proper
  path : c.path <+: last
  lookup : ∀ w, (assemble fs c).lookup w = m w
  out : ∀ p s, (p, s) ∈ out ↔ Below fs c p s

section

variable {out : List (List α × Tree α V)} {m : List α → Option V} {last k u : List α} {b : α}

omit [LinearOrder α] in
theorem not_below_leaf : ¬∃ q, q ≠ [] ∧ p = k ++ q ∧ Subtree (.leaf [] v) q s := by
  rintro ⟨q, hne, -, hs⟩
  exact hne (subtree_leaf_iff.1 hs).1

omit [LinearOrder α] in
theorem below_leaf_iff : Below fs ⟨k, .leaf [] v⟩ p s ↔ Finished fs p s :=
  or_iff_left not_below_leaf

theorem Focus.lookup_leaf (k w : List α) (v : V) :
    (Focus.mk k (.leaf [] v)).lookup w = if w = k then some v else none := by
  simp [Focus.lookup, prepend]

theorem Focus.lookup_close_empty (h : c.path = p ++ a :: r) (w : List α) :
    ((Frame.mk p fun _ => nil).close c).lookup w = c.lookup w := by
  rw [Focus.lookup_close (f := ⟨p, fun _ => nil⟩) h]
  by_cases hw : p ++ [a] <+: w
  · rw [if_pos hw]
  have hc : ¬c.path <+: w := fun hpre => hw (List.IsPrefix.trans ⟨r, by simp [h]⟩ hpre)
  rw [if_neg hw, Focus.lookup_of_not_isPrefix hc, Focus.lookup, lookup_prepend]
  split
  · cases w.drop p.length <;> simp
  · rfl

theorem adds_beside (hq : c.path = f.path ++ a :: r) (hk : k = f.path ++ b :: u) (hab : b ≠ a)
    (hnil : f.children b = nil) (v : V) :
    (f.close c).Adds ((f.attach c).close ⟨k, .leaf [] v⟩) k v := by
  intro w
  have hk' : k = (f.attach c).path ++ b :: u := by rw [Frame.attach_path, hk]
  rw [Focus.lookup_close (f := f.attach c) (c := ⟨k, .leaf [] v⟩) hk', Focus.lookup_leaf,
    Frame.attach_path]
  by_cases hw : w = k
  · subst hw
    have hpre : f.path ++ [b] <+: w := ⟨u, by simp [hk]⟩
    simp [hpre]
  rw [if_neg hw, if_neg hw]
  by_cases hpre : f.path ++ [b] <+: w
  · -- nothing else starts like the new word
    obtain ⟨w, rfl⟩ := hpre
    rw [if_pos (prefix_append _ _), Focus.lookup_close hq, if_neg, Focus.lookup,
      List.append_assoc, List.singleton_append, lookup_prepend_append, lookup_branch_cons, hnil,
      lookup_nil]
    rw [List.append_assoc, prefix_append_right_inj, List.singleton_append,
      cons_prefix_cons]
    exact fun h => hab h.1.symm
  · rw [if_neg hpre]
    rfl

theorem builds_singleton (a : α) (r : List α) (v : V) :
    Builds [⟨[], fun _ => nil⟩] ⟨a :: r, .leaf [] v⟩ []
      (update (fun _ => none) (a :: r) (some v)) (a :: r) := by
  refine ⟨.cons .nil rfl (by simp) (fun _ => canonical_nil) (by simp), by simp, rfl, trivial,
    prefix_rfl, fun w => ?_, fun p s => ?_⟩
  · change ((Frame.mk [] fun _ => nil).close _).lookup w = _
    rw [Focus.lookup_close_empty (p := []) (a := a) (r := r) rfl, Focus.lookup_leaf,
      update_apply]
  rw [below_leaf_iff]
  refine ⟨fun h => by simp at h, ?_⟩
  rintro ⟨f, hf, b, q, -, hs⟩
  rw [mem_singleton.1 hf] at hs
  exact absurd hs Subtree.not_nil

theorem Builds.hangs (h : Builds (f :: fs) c out m last) :
    ∃ a r, c.path = f.path ++ a :: r ∧ (∀ b, a ≤ b → f.children b = nil) ∧
      (∀ b, (f.children b).Canonical) ∧ (fs ≠ [] → ∃ b, f.children b ≠ nil) ∧
      Chain fs f.path := by
  have hchain := h.chain
  cases hchain with
  | cons hrest hq hnil hcan hchild => exact ⟨_, _, hq, hnil, hcan, hchild, hrest⟩

theorem Builds.close (h : Builds (f :: fs) c out m last) (hfs : fs ≠ []) :
    Builds fs (f.close c) (out ++ f.emit c) m last := by
  obtain ⟨a, r, hq, hnil, hcan, hchild, hchain⟩ := h.hangs
  refine ⟨hchain, hfs, rfl, Frame.close_proper hq (hnil a le_rfl) hcan (hchild hfs) h.proper,
    ?_, h.lookup, fun p s => ?_⟩
  · refine List.IsPrefix.trans ?_ h.path
    rw [hq]
    exact prefix_append _ _
  · rw [mem_append_emit_iff hq (hnil a le_rfl) h.focus h.proper h.out, finished_attach_iff]

theorem Builds.beside (h : Builds (f :: fs) c out m last) (hq : c.path = f.path ++ a :: r)
    (hk : k = f.path ++ b :: u) (hab : a < b) (v : V) :
    Builds (f.attach c :: fs) ⟨k, .leaf [] v⟩ (out ++ f.emit c) (update m k (some v)) k := by
  obtain ⟨a', r', hq', hnil, hcan, hchild, hchain⟩ := h.hangs
  obtain ⟨rfl, rfl⟩ : a = a' ∧ r = r' := by
    have := hq.symm.trans hq'
    simpa using this
  refine ⟨.cons (a := b) (r := u) (by rwa [Frame.attach_path]) (by rw [Frame.attach_path, hk])
    (fun d hd => ?_) (Frame.attach_canonical hq hcan h.proper)
    (fun _ => ⟨a, Frame.attach_child hq h.proper⟩), by simp, rfl, trivial, prefix_rfl,
    fun w => ?_, fun p s => ?_⟩
  · rw [Frame.attach_children_of_ne hq (hab.trans_le hd).ne']
    exact hnil d (hab.le.trans hd)
  · have hadd := (adds_beside hq hk hab.ne' (hnil b hab.le) v).assemble hchain rfl
      (by simp [Frame.close]) (by rw [hk]; exact prefix_append _ _)
    rw [assemble_cons, hadd w, ← assemble_cons, h.lookup, update_apply]
  · rw [mem_append_emit_iff hq (hnil a le_rfl) h.focus h.proper h.out, below_leaf_iff]

theorem Builds.fork (h : Builds (f :: fs) c out m last) {x y : α} {r' : List α}
    (hp : p = f.path ++ a :: r) (hq : c.path = p ++ x :: r') (hk : k = p ++ y :: u) (hxy : x < y)
    (v : V) :
    Builds ((Frame.mk p fun _ => nil).attach c :: f :: fs) ⟨k, .leaf [] v⟩
      (out ++ (Frame.mk p fun _ => nil).emit c) (update m k (some v)) k := by
  obtain ⟨a', s', hq', hnil, hcan, hchild, hchain⟩ := h.hangs
  obtain ⟨rfl, rfl⟩ : a = a' ∧ r ++ x :: r' = s' := by
    have := hq.symm.trans hq'
    rw [hp] at this
    simpa using this
  have hout : ∀ w s, (w, s) ∈ out ↔ Below ((Frame.mk p fun _ => nil) :: f :: fs) c w s := by
    intro w s
    rw [h.out, Below, Below]
    refine or_congr_left ⟨?_, ?_⟩
    · rintro ⟨g, hg, hrest⟩
      exact ⟨g, by simp [hg], hrest⟩
    rintro ⟨g, hg, b, q, hw, hs⟩
    rcases mem_cons.1 hg with rfl | hg
    · exact absurd hs Subtree.not_nil
    · exact ⟨g, hg, b, q, hw, hs⟩
  have hcons : Chain (f :: fs) p := .cons hchain hp hnil hcan hchild
  refine ⟨.cons (a := y) (r := u) (by rwa [Frame.attach_path]) (by rw [Frame.attach_path, hk])
    (fun d hd => ?_) (Frame.attach_canonical hq (fun _ => canonical_nil) h.proper)
    (fun _ => ⟨x, Frame.attach_child (f := ⟨p, fun _ => nil⟩) hq h.proper⟩), by simp, rfl, trivial,
    prefix_rfl, fun w => ?_, fun w s => ?_⟩
  · exact Frame.attach_children_of_ne (f := ⟨p, fun _ => nil⟩) hq (hxy.trans_le hd).ne'
  · -- closing the new frame adds the word to the focus, closing the others keeps it
    have hadd : c.Adds (((Frame.mk p fun _ => nil).attach c).close ⟨k, .leaf [] v⟩) k v := by
      intro w
      rw [adds_beside (f := ⟨p, fun _ => nil⟩) hq hk hxy.ne' rfl v w, Focus.lookup_close_empty hq]
    have hclose := hadd.close (f := f) (a := a) hq' (by simp [Frame.close, hp] : _ = f.path ++ a :: r)
      (by rw [hk, hp]; exact ⟨r ++ y :: u, by simp⟩)
    have hall := hclose.assemble hchain rfl rfl
      (by rw [hk, hp]; exact ⟨a :: r ++ y :: u, by simp⟩)
    rw [assemble_cons, assemble_cons, hall w, ← assemble_cons, h.lookup, update_apply]
  · rw [mem_append_emit_iff (f := ⟨p, fun _ => nil⟩) hq rfl h.focus h.proper hout, below_leaf_iff]

/-- Where the next word leaves the path of the focus, once the innermost frame is above it. -/
theorem Builds.split (h : Builds (f :: fs) c out m last) (hk : Before last k) (hf : f.path <+: k)
    (hc : ¬c.path <+: k) :
    ∃ p x y r u, c.path = p ++ x :: r ∧ k = p ++ y :: u ∧ x < y ∧ f.path <+: p := by
  obtain ⟨p, x, y, u, v, hlast, rfl, hxy⟩ := hk
  obtain ⟨a, r, hq, -⟩ := h.hangs
  have hfc : f.path <+: c.path := by
    rw [hq]
    exact prefix_append _ _
  -- the focus lies on the path of the last word, and further down than the split
  have hpath := h.path
  rw [hlast] at hpath
  rcases List.prefix_or_prefix_of_prefix hpath (prefix_append p (x :: u)) with hcp | hpc
  · exact absurd (hcp.trans (prefix_append _ _)) hc
  obtain ⟨s, hs⟩ := hpc
  rw [← hs, prefix_append_right_inj] at hpath
  cases s with
  | nil =>
    rw [List.append_nil] at hs
    exact absurd (hs ▸ prefix_append _ _) hc
  | cons z s =>
    obtain ⟨rfl, -⟩ := cons_prefix_cons.1 hpath
    refine ⟨p, z, y, s, v, hs.symm, rfl, hxy, ?_⟩
    -- the frame is above both, so above the split
    rcases List.prefix_or_prefix_of_prefix hf (prefix_append p (y :: v)) with hfp | hpf
    · exact hfp
    obtain ⟨t, ht⟩ := hpf
    cases t with
    | nil =>
      rw [List.append_nil] at ht
      exact ht ▸ prefix_rfl
    | cons d t =>
      rw [← ht, prefix_append_right_inj] at hf
      rw [← ht, ← hs, prefix_append_right_inj] at hfc
      obtain ⟨rfl, -⟩ := cons_prefix_cons.1 hf
      obtain ⟨rfl, -⟩ := cons_prefix_cons.1 hfc
      exact absurd hxy (lt_irrefl _)

variable (h : Builds [f] c out m last)

include h

theorem Builds.finish :
    f.path = [] ∧ (contract (f.attach c).children none).Canonical ∧
      ∀ w, (contract (f.attach c).children none).lookup w = m w := by
  obtain ⟨a, r, hq, -, hcan, -, hchain⟩ := h.hangs
  have hroot : f.path = [] := by
    generalize f.path = q at hchain
    cases hchain
    rfl
  refine ⟨hroot, Canonical.contract (Frame.attach_canonical hq hcan h.proper) none, fun w => ?_⟩
  have hw := h.lookup w
  rw [assemble_cons, show assemble [] (f.close c) = f.close c from rfl, Focus.lookup,
    Frame.close, hroot, prepend_nil] at hw
  rw [lookup_contract, ← hw]

theorem Builds.finish_ne_nil :
    contract (f.attach c).children none ≠ nil := by
  obtain ⟨a, r, hq, -, hcan, -⟩ := h.hangs
  obtain ⟨k, hk⟩ := (Frame.attach_canonical hq hcan h.proper a
    (Frame.attach_child hq h.proper)).exists_lookup
  intro hnil
  have hlookup := lookup_contract (f.attach c).children none (a :: k)
  rw [hnil, lookup_nil, lookup_branch_cons] at hlookup
  exact hk hlookup.symm

theorem Builds.finish_branch (htwo : TwoEntries (f.attach c).children none) (p : List α)
    (s : Tree α V) :
    (p, s) ∈ out ++ f.emit c ++ [([], .branch (f.attach c).children none)] ↔
      Subtree (contract (f.attach c).children none) p s := by
  obtain ⟨a, r, hq, hnil, -⟩ := h.hangs
  rw [mem_append, mem_append_emit_iff hq (hnil a le_rfl) h.focus h.proper h.out,
    contract_branch htwo, subtree_branch_iff, mem_singleton, Prod.mk.injEq, or_comm]
  refine or_congr_right ⟨?_, ?_⟩
  · rintro ⟨g, hg, b, q, rfl, hs⟩
    rw [mem_singleton.1 hg] at hs ⊢
    exact ⟨b, q, by simp [h.finish.1], hs⟩
  · rintro ⟨b, q, rfl, hs⟩
    exact ⟨f.attach c, by simp, b, q, by simp [h.finish.1], hs⟩

/-- With one child the root is that child under a longer path: what was finished before stays, and
the child itself only if it is a branch. -/
theorem Builds.finish_single (hq : c.path = a :: r) (hone : ∀ b, b ≠ a → f.children b = nil)
    (p : List α) (s : Tree α V) :
    (p, s) ∈ out ++ Frame.inner c r ↔
      ∃ q, q ≠ [] ∧ p = a :: q ∧ Subtree (prepend r c.tree) q s := by
  obtain ⟨a', r', hq', hnil, -⟩ := h.hangs
  have hroot := h.finish.1
  obtain ⟨rfl, rfl⟩ : a = a' ∧ r = r' := by
    have := hq.symm.trans hq'
    rw [hroot] at this
    simpa using this
  have hnone : ∀ b, f.children b = nil := fun b => by
    by_cases hb : b = a
    · exact hnil b hb.ge
    · exact hone b hb
  have hfinished : ¬Finished [f] p s := by
    rintro ⟨g, hg, b, q, -, hs⟩
    rw [mem_singleton.1 hg, hnone] at hs
    exact Subtree.not_nil hs
  rw [mem_append, h.out, Below, or_iff_right hfinished]
  exact mem_inner_iff (p := []) hq h.focus p s

omit h

omit [LinearOrder α] in
theorem subtree_prepend_iff {t : Tree α V} (ht : t.Proper) {s : Tree α V} :
    Subtree (prepend [a] t) p s ↔ (p = [] ∧ s = prepend [a] t) ∨
      ∃ q, (q ≠ [] ∨ t.IsBranch) ∧ p = a :: q ∧ Subtree t q s := by
  cases t with
  | nil => exact absurd ht id
  | leaf u v =>
    simp only [prepend, subtree_leaf_iff]
    refine ⟨fun h => .inl h, ?_⟩
    rintro (h | ⟨q, hq, -, rfl, -⟩)
    · exact h
    · simp [IsBranch] at hq
  | ext u t =>
    simp only [prepend, subtree_ext_iff]
    refine or_congr_right ⟨?_, ?_⟩
    · rintro ⟨q, rfl, hs⟩
      exact ⟨u ++ q, .inl (by simp [ht.1]), by simp, .inr ⟨q, rfl, hs⟩⟩
    · rintro ⟨q, hq, rfl, ⟨rfl, -⟩ | ⟨q', rfl, hs⟩⟩
      · simp [IsBranch] at hq
      · exact ⟨q', by simp, hs⟩
  | branch cs v =>
    have hprep : prepend [a] (.branch cs v : Tree α V) = .ext [a] (.branch cs v) := by
      simp [prepend]
    rw [hprep, subtree_ext_iff]
    refine or_congr_right ⟨?_, ?_⟩
    · rintro ⟨q, rfl, hs⟩
      exact ⟨q, .inr trivial, rfl, hs⟩
    · rintro ⟨q, -, rfl, hs⟩
      exact ⟨q, rfl, hs⟩

end

end Patricia
