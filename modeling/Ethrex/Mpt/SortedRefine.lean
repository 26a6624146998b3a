import Ethrex.Mpt.Persist
import Ethrex.Mpt.Sorted
import Ethrex.Patricia.Builder

/-!
# The sorted builder against insertion

`trie_from_sorted_accounts` makes the moves of the abstract builder: it ends with the canonical tree
of its input and has written the nodes of that tree.
-/

namespace Ethrex.Mpt

open Patricia Rlp List Function

theorem countCommonPrefix_append (p : Word) (s t : List UInt8) :
    countCommonPrefix (hex p ++ s) (hex p ++ t) = p.length + countCommonPrefix s t := by
  induction p with
  | nil => simp
  | cons a p ih =>
    simp only [hex_cons, cons_append, countCommonPrefix, if_true, ih, length_cons]
    omega

theorem skipPrefix_of_data {n e : Nibbles} {s : List UInt8} (h : n.data = e.data ++ s) :
    n.skipPrefix e = some { data := s, alreadyConsumed := n.alreadyConsumed ++ e.data } := by
  rw [Nibbles.skipPrefix, if_pos]
  · simp [h, Nibbles.len]
  · simp [h, Nibbles.len]

/-! ### What the state stands for -/

section

variable (keccak256 : Bytes → H256)

/-- A stack element is an open frame. -/
structure FrameOf (e : StackElement) (f : Frame (Fin 16) Value) : Prop where
  path : e.path.data = hex f.path
  choices : e.choices = fun i => .hash (hashOf keccak256 (f.children i))
  value : e.value = []

/-- The current node is the focus. -/
inductive FocusOf : CenterSide → Focus (Fin 16) Value → Prop where
  | leaf {path : Nibbles} {q : Word} (v : Value) (hpath : path.data = terminated q) :
      FocusOf ⟨path, .leaf v.val⟩ ⟨q, .leaf [] v⟩
  | branch {path : Nibbles} {q : Word} (cs : Fin 16 → MTree) (hpath : path.data = hex q) :
      FocusOf ⟨path, .branch (fun i => .hash (hashOf keccak256 (cs i))) []⟩ ⟨q, .branch cs none⟩

/-- A node of the buffer is a node of the tree at its path; its children are hashes. -/
abbrev EntryOf (e : Nibbles × Node) (o : Word × MTree) : Prop :=
  e.1.data = hex o.1 ∧
    NodeDenotes keccak256 (fun _ _ => False) (fun _ _ => True) (hex o.1) e.2 o.2

/-- The state of the builder and everything it has written so far. -/
structure StateOf (written : List (Nibbles × Node)) (state : BuildState)
    (f : Frame (Fin 16) Value) (fs : List (Frame (Fin 16) Value)) (c : Focus (Fin 16) Value)
    (out : List (Word × MTree)) : Prop where
  parent : FrameOf keccak256 state.currentParent f
  stack : List.Forall₂ (FrameOf keccak256) state.trieStack fs
  node : FocusOf keccak256 state.currentNode c
  out : List.Forall₂ (EntryOf keccak256) (written ++ state.nodesToWrite) out

variable {keccak256} {e : StackElement} {n : CenterSide} {f : Frame (Fin 16) Value}
  {fs : List (Frame (Fin 16) Value)} {c : Focus (Fin 16) Value}

theorem hash_refDenotes (p : List UInt8) (t : MTree) :
    RefDenotes keccak256 (fun _ _ => False) (fun _ _ => True) p
      (.hash (hashOf keccak256 t)) t := by
  by_cases ht : t = .nil
  · subst ht
    rw [hashOf_nil]
    exact .nil p
  · exact .stored ht rfl trivial

theorem branch_denotes (p : List UInt8) (cs : Fin 16 → MTree) :
    NodeDenotes keccak256 (fun _ _ => False) (fun _ _ => True) p
      (.branch (fun i => .hash (hashOf keccak256 (cs i))) []) (.branch cs none) :=
  .branch none fun i => hash_refDenotes _ (cs i)

variable {a : Fin 16} {r : Word} {state : BuildState}

theorem frameOf_attach {node : Node} {p : List UInt8} (he : FrameOf keccak256 e f)
    (hq : c.path = f.path ++ a :: r)
    (hnode : NodeDenotes keccak256 (fun _ _ => False) (fun _ _ => True) p node
      (Tree.prepend r c.tree)) :
    FrameOf keccak256 { e with
      choices := update e.choices a (.hash (node.computeHash keccak256)) }
      (f.attach c) := by
  refine ⟨by simpa using he.path, ?_, he.value⟩
  rw [Frame.attach_children hq, hnode.computeHash_eq]
  funext i
  by_cases hi : i = a
  · subst hi
    simp
  · simp [hi, he.choices]

theorem nodeBelow_refines (hn : FocusOf keccak256 n c) (path : Nibbles) {u : Word}
    (hdata : n.path.data = hex u ++ path.data) (hq : c.path = u ++ r) (p : List UInt8) :
    List.Forall₂ (EntryOf keccak256) (n.nodeBelow keccak256 path).1 (Frame.inner c r) ∧
      NodeDenotes keccak256 (fun _ _ => False) (fun _ _ => True) p
        (n.nodeBelow keccak256 path).2 (Tree.prepend r c.tree) := by
  cases hn with
  | @leaf full q v hpath =>
    obtain rfl : q = u ++ r := hq
    have hr : path.data = terminated r := by
      rw [show full.data = hex u ++ path.data from hdata, terminated_append] at hpath
      exact append_cancel_left hpath
    have hinner : Frame.inner (⟨u ++ r, .leaf [] v⟩ : Focus (Fin 16) Value) r = [] := by
      cases r <;> rfl
    rw [hinner, show Tree.prepend r (.leaf [] v : MTree) = .leaf r v by simp [Tree.prepend]]
    exact ⟨.nil, .leaf v hr⟩
  | @branch full q cs hpath =>
    obtain rfl : q = u ++ r := hq
    have hr : path.data = hex r := by
      rw [show full.data = hex u ++ path.data from hdata, hex_append] at hpath
      exact append_cancel_left hpath
    cases r with
    | nil =>
      have hempty : path.isEmpty = true := by simp [Nibbles.isEmpty, hr]
      simp only [CenterSide.nodeBelow, hempty, if_true, Tree.prepend_nil]
      exact ⟨.nil, branch_denotes p cs⟩
    | cons x r =>
      have hempty : path.isEmpty = false := by simp [Nibbles.isEmpty, hr]
      have hbranch : NodeDenotes keccak256 _ _ _ _ _ := branch_denotes (hex (u ++ x :: r)) cs
      have htree : Tree.prepend (x :: r) (.branch cs none : MTree) =
          .ext (x :: r) (.branch cs none) := by simp [Tree.prepend]
      simp only [CenterSide.nodeBelow, hempty, Bool.false_eq_true, if_false, htree]
      refine ⟨.cons ⟨hpath, hbranch⟩ .nil, .extension hr ?_⟩
      rw [hbranch.computeHash_eq]
      exact hash_refDenotes _ _

theorem add_refines (he : FrameOf keccak256 e f) (hn : FocusOf keccak256 n c)
    (hq : c.path = f.path ++ a :: r) :
    ∃ below node e', (∀ nodes, addCurrentToParentAndWriteQueue keccak256 nodes n e =
        .ok (nodes ++ (below ++ [node]), e')) ∧
      FrameOf keccak256 e' (f.attach c) ∧
      List.Forall₂ (EntryOf keccak256) below (Frame.inner c r) ∧
      EntryOf keccak256 node (f.path ++ [a], Tree.prepend r c.tree) := by
  have hindex : (nibble a).toNat < 16 := by simp
  have hfin : (⟨(nibble a).toNat, hindex⟩ : Fin 16) = a := by simp
  obtain ⟨s, hs⟩ : ∃ s, n.path.data = e.path.data ++ nibble a :: s := by
    cases hn with
    | @leaf path q v hpath =>
      refine ⟨terminated r, ?_⟩
      rw [hpath, show q = f.path ++ a :: r from hq, terminated_append, terminated_cons, he.path]
    | @branch path q cs hpath =>
      refine ⟨hex r, ?_⟩
      rw [hpath, show q = f.path ++ a :: r from hq, hex_append, hex_cons, he.path]
  obtain ⟨hbelow, hnode⟩ := nodeBelow_refines hn
    ⟨s, n.path.alreadyConsumed ++ e.path.data ++ [nibble a]⟩ (u := f.path ++ [a]) (r := r)
    (by rw [hs, he.path]; simp) (by rw [hq]; simp) (hex (f.path ++ [a]))
  refine ⟨_, (e.path.appendNew (nibble a), _), _, fun nodes => ?_, frameOf_attach he hq hnode,
    hbelow, by simp [Nibbles.appendNew, he.path], hnode⟩
  simp only [addCurrentToParentAndWriteQueue, skipPrefix_of_data hs, Option.getD_some, Nibbles.next,
    hindex, dif_pos, hfin]

variable {written nodes : List (Nibbles × Node)} {stack : List StackElement}
  {out : List (Word × MTree)} {m : Word → Option Value} {last k : Word} {next : Nibbles}

theorem isChild_iff (he : FrameOf keccak256 e f) (hnext : next.data = terminated k) :
    isChild next e = true ↔ f.path <+: k := by
  rw [isChild, beq_iff_eq, Nibbles.countPrefix_hex hnext he.path, Nibbles.len, he.path, length_hex,
    lcp_eq_length_iff]

theorem StateOf.add (h : StateOf keccak256 written state f fs c out) {g : Frame (Fin 16) Value}
    (he : FrameOf keccak256 e g) (hq : c.path = g.path ++ a :: r) :
    ∃ nodes e', addCurrentToParentAndWriteQueue keccak256 state.nodesToWrite state.currentNode e =
        .ok (nodes, e') ∧
      FrameOf keccak256 e' (g.attach c) ∧
      List.Forall₂ (EntryOf keccak256) (written ++ nodes) (out ++ g.emit c) := by
  obtain ⟨below, node, e', hrun, he', hbelow, hnode⟩ := add_refines he h.node hq
  refine ⟨_, e', hrun _, he', ?_⟩
  rw [← append_assoc, Frame.emit_eq hq]
  exact rel_append h.out (rel_append hbelow (.cons hnode .nil))

theorem fromStackElement_focusOf (he : FrameOf keccak256 e (f.attach c)) :
    FocusOf keccak256 (.fromStackElement e) (f.close c) := by
  obtain ⟨path, choices, value⟩ := e
  obtain rfl : choices = _ := he.choices
  obtain rfl : value = [] := he.value
  exact .branch _ (by simpa using he.path)

/-- The inner loop closes frames until the innermost one is above the next word. -/
theorem closeParents_refines (hnext : next.data = terminated k)
    (h : StateOf keccak256 written state f fs c out) (hb : Builds (f :: fs) c out m last)
    (hc : ¬c.path <+: k) :
    ∃ state' f' fs' c' out', closeParents keccak256 next state.trieStack state.nodesToWrite
        state.currentParent state.currentNode = .ok state' ∧
      StateOf keccak256 written state' f' fs' c' out' ∧ Builds (f' :: fs') c' out' m last ∧
      f'.path <+: k ∧ ¬c'.path <+: k := by
  obtain ⟨nodes, stack, e, n⟩ := state
  induction stack generalizing nodes e n f fs c out with
  | nil =>
    cases h.stack
    have hchild : isChild next e = true :=
      (isChild_iff h.parent hnext).2 (by rw [hb.finish.1]; exact nil_prefix)
    exact ⟨⟨nodes, [], e, n⟩, f, [], c, out, by simp [closeParents, hchild], h, hb,
      (isChild_iff h.parent hnext).1 hchild, hc⟩
  | cons top stack ih =>
    by_cases hchild : isChild next e = true
    · exact ⟨⟨nodes, top :: stack, e, n⟩, f, fs, c, out, by simp [closeParents, hchild], h, hb,
        (isChild_iff h.parent hnext).1 hchild, hc⟩
    cases hfs : h.stack with
    | @cons _ g _ gs hg hgs =>
      obtain ⟨a, r, hq, -⟩ := hb.hangs
      obtain ⟨nodes', e', hrun, he', hout⟩ := h.add h.parent hq
      obtain ⟨state', f', fs', c', out', hrun', hrest⟩ := ih (hb.close (by simp))
        (fun hpre => hchild ((isChild_iff h.parent hnext).2 hpre)) nodes' top
        (.fromStackElement e') ⟨hg, hgs, fromStackElement_focusOf he', hout⟩
      refine ⟨state', f', fs', c', out', ?_, hrest⟩
      rw [closeParents, if_neg hchild]
      exact (congrArg (· >>= _) hrun).trans hrun'

theorem countPrefix_parent (hn : FocusOf keccak256 n c) (he : FrameOf keccak256 e f)
    (hfc : f.path <+: c.path) : n.path.countPrefix e.path = f.path.length := by
  obtain ⟨s, hs⟩ := hfc
  cases hn with
  | @leaf path q v hpath =>
    rw [Nibbles.countPrefix, hpath, he.path, show q = f.path ++ s from hs.symm, terminated_append,
      ← append_nil (hex f.path), append_assoc, countCommonPrefix_append]
    cases terminated s <;> simp [countCommonPrefix]
  | @branch path q cs hpath =>
    rw [Nibbles.countPrefix, hpath, he.path, show q = f.path ++ s from hs.symm, hex_append,
      ← append_nil (hex f.path), append_assoc, countCommonPrefix_append]
    cases hex s <;> simp [countCommonPrefix]

theorem countPrefix_next (hn : FocusOf keccak256 n c) (hnext : next.data = terminated k)
    {p u : Word} {x y : Fin 16} (hq : c.path = p ++ x :: r) (hk : k = p ++ y :: u) (hxy : x ≠ y) :
    n.path.countPrefix next = p.length ∧ n.path.data.take p.length = hex p := by
  have hlen := length_hex p
  cases hn with
  | @leaf path q v hpath =>
    rw [Nibbles.countPrefix, hpath, hnext, show q = p ++ x :: r from hq, hk, terminated_append,
      terminated_append, countCommonPrefix_append, ← hlen, take_left]
    simp [countCommonPrefix, hxy]
  | @branch path q cs hpath =>
    rw [Nibbles.countPrefix, hpath, hnext, show q = p ++ x :: r from hq, hk, hex_append,
      terminated_append, countCommonPrefix_append, ← hlen, take_left]
    simp [countCommonPrefix, hxy]

theorem processValue_refines (key : H256) (v : Value) (hk : Before last (word key.bytes))
    (h : StateOf keccak256 written state f fs c out) (hb : Builds (f :: fs) c out m last)
    (hc : c.path = last) :
    ∃ state' f' fs' c' out', processValue keccak256 state (key, v.val) = .ok state' ∧
      StateOf keccak256 written state' f' fs' c' out' ∧
      Builds (f' :: fs') c' out' (update m (word key.bytes) (some v)) (word key.bytes) ∧
      c'.path = word key.bytes := by
  have hdata := fromBytes_data key.bytes
  have hvalue : FocusOf keccak256 (.fromValue (key, v.val)) ⟨word key.bytes, .leaf [] v⟩ :=
    .leaf v hdata
  have hnot : ¬c.path <+: word key.bytes := by
    obtain ⟨p, x, y, u, w, hlast, hword, hxy⟩ := hk
    rw [hc, hlast, hword, prefix_append_right_inj, cons_prefix_cons]
    exact fun hp => hxy.ne hp.1
  obtain ⟨state₁, g, gs, d, out₁, hclose, h₁, hb₁, hg, hd⟩ :=
    closeParents_refines hdata h hb hnot
  obtain ⟨p, x, y, r, u, hq, hword, hxy, hgp⟩ := hb₁.split hk hg hd
  have hgd : g.path <+: d.path := by
    rw [hq]
    exact hgp.trans (prefix_append _ _)
  have hparent := countPrefix_parent h₁.node h₁.parent hgd
  obtain ⟨hcount, htake⟩ := countPrefix_next h₁.node hdata hq hword hxy.ne
  simp only [processValue, hclose, Result.ok_bind, hparent, hcount]
  obtain ⟨s, rfl⟩ := hgp
  cases s with
  | nil =>
    rw [append_nil] at hq hword ⊢
    obtain ⟨nodes, e', hrun, he', hout⟩ := h₁.add h₁.parent hq
    rw [if_pos rfl, hrun]
    exact ⟨_, g.attach d, gs, _, _, rfl, ⟨he', h₁.stack, hvalue, hout⟩,
      hb₁.beside hq hword hxy v, rfl⟩
  | cons a s =>
    have hframe : FrameOf keccak256 (createParent state₁.currentNode (Nibbles.fromBytes key.bytes))
        ⟨g.path ++ a :: s, fun _ => .nil⟩ := by
      refine ⟨?_, ?_, rfl⟩
      · simpa [createParent, Nibbles.slice, hcount, Nibbles.fromHex] using htake
      · funext i
        simp [createParent, emptyChoices, NodeRef.default]
    obtain ⟨nodes, e', hrun, he', hout⟩ := h₁.add hframe hq
    rw [if_neg (by simp), hrun]
    exact ⟨_, _, g :: gs, _, _, rfl, ⟨he', .cons h₁.parent h₁.stack, hvalue, hout⟩,
      hb₁.fork rfl hq hword hxy v, rfl⟩

def wordMap (m : Word → Option Value) (entries : List (H256 × Value)) : Word → Option Value :=
  entries.foldl (fun m e => update m (word e.1.bytes) (some e.2)) m

def accounts (entries : List (H256 × Value)) : List (H256 × Bytes) :=
  entries.map fun e => (e.1, e.2.val)

theorem processValues_refines (flush : List (H256 × Bytes) → List (Nibbles × Node) → Bool)
    (entries : List (H256 × Value)) {key : H256}
    (hsorted : (key :: entries.map Prod.fst).Pairwise (· < ·))
    (h : StateOf keccak256 written state f fs c out)
    (hb : Builds (f :: fs) c out m (word key.bytes)) (hc : c.path = word key.bytes) :
    ∃ state' batches f' fs' c' out' last',
      processValues keccak256 flush state (accounts entries) = .ok (state', batches) ∧
      StateOf keccak256 (written ++ batches.flatten) state' f' fs' c' out' ∧
      Builds (f' :: fs') c' out' (wordMap m entries) last' := by
  induction entries generalizing written state key f fs c out m with
  | nil => exact ⟨state, [], f, fs, c, out, _, rfl, by simpa using h, hb⟩
  | cons e entries ih =>
    obtain ⟨key', v⟩ := e
    rw [map_cons, pairwise_cons] at hsorted
    have hk : Before (word key.bytes) (word key'.bytes) :=
      before_key (hsorted.1 key' (by simp))
    by_cases hflush : flush (accounts ((key', v) :: entries)) state.nodesToWrite = true
    · have h' : StateOf keccak256 (written ++ state.nodesToWrite) { state with nodesToWrite := [] }
          f fs c out := ⟨h.parent, h.stack, h.node, by simpa using h.out⟩
      obtain ⟨state₁, f₁, fs₁, c₁, out₁, hrun₁, h₁, hb₁, hc₁⟩ :=
        processValue_refines key' v hk h' hb hc
      obtain ⟨state₂, batches, f₂, fs₂, c₂, out₂, last₂, hrun₂, h₂, hb₂⟩ := ih hsorted.2 h₁ hb₁ hc₁
      refine ⟨state₂, state.nodesToWrite :: batches, f₂, fs₂, c₂, out₂, last₂, ?_,
        by simpa using h₂, hb₂⟩
      simp only [accounts, map_cons] at hflush hrun₂ ⊢
      simp only [processValues, hflush, if_true, hrun₁, hrun₂, Result.ok_bind]
    · obtain ⟨state₁, f₁, fs₁, c₁, out₁, hrun₁, h₁, hb₁, hc₁⟩ :=
        processValue_refines key' v hk h hb hc
      obtain ⟨state₂, batches, f₂, fs₂, c₂, out₂, last₂, hrun₂, h₂, hb₂⟩ := ih hsorted.2 h₁ hb₁ hc₁
      refine ⟨state₂, batches, f₂, fs₂, c₂, out₂, last₂, ?_, h₂, hb₂⟩
      simp only [accounts, map_cons] at hflush hrun₂ ⊢
      simp only [processValues, hflush, Bool.false_eq_true, if_false, hrun₁, hrun₂, Result.ok_bind]

/-- What is known once only the root frame is left: its focus `d` was attached last. -/
structure RootOf (keccak256 : Bytes → H256) (written nodes : List (Nibbles × Node))
    (e : StackElement) (g : Frame (Fin 16) Value) (d : Focus (Fin 16) Value)
    (out : List (Word × MTree)) (a : Fin 16) (r : Word) : Prop where
  path : d.path = a :: r
  root : FrameOf keccak256 e (g.attach d)
  last : ∃ before node, nodes = before ++ [node] ∧
    List.Forall₂ (EntryOf keccak256) (written ++ before) (out ++ Frame.inner d r) ∧
    EntryOf keccak256 node ([a], Tree.prepend r d.tree)

theorem closeStack_refines {node : Nibbles × Node}
    (hstack : List.Forall₂ (FrameOf keccak256) stack fs) (hb : Builds (f :: fs) c out m last)
    (he : FrameOf keccak256 e (f.attach c)) (hq : c.path = f.path ++ a :: r)
    (hout : List.Forall₂ (EntryOf keccak256) (written ++ nodes) (out ++ Frame.inner c r))
    (hnode : EntryOf keccak256 node (f.path ++ [a], Tree.prepend r c.tree)) :
    ∃ nodes' e' g d out' b s, closeStack keccak256 stack (nodes ++ [node]) e = .ok (nodes', e') ∧
      Builds [g] d out' m last ∧ RootOf keccak256 written nodes' e' g d out' b s := by
  induction hstack generalizing nodes node e f c out a r with
  | nil =>
    have hroot := hb.finish.1
    refine ⟨nodes ++ [node], e, f, c, out, a, r, rfl, hb, by simpa [hroot] using hq, he,
      nodes, node, rfl, hout, by simpa [hroot] using hnode⟩
  | @cons top g stack fs hg hstack ih =>
    have hb' := hb.close (by simp)
    have hout' : List.Forall₂ (EntryOf keccak256) (written ++ (nodes ++ [node]))
        (out ++ f.emit c) := by
      rw [← append_assoc, Frame.emit_eq hq, ← append_assoc]
      exact rel_append hout (.cons hnode .nil)
    obtain ⟨b, s, hq', -⟩ := hb'.hangs
    obtain ⟨below, node', e', hrun, he', hbelow, hnode'⟩ :=
      add_refines hg (fromStackElement_focusOf he) hq'
    have hall : List.Forall₂ (EntryOf keccak256) (written ++ (nodes ++ [node] ++ below))
        (out ++ f.emit c ++ Frame.inner (f.close c) s) := by
      rw [← append_assoc]
      exact rel_append hout' hbelow
    obtain ⟨nodes'', e'', g', d, out'', b', s', hrun', hrest⟩ := ih hb' he' hq' hall hnode'
    refine ⟨nodes'', e'', g', d, out'', b', s', ?_, hrest⟩
    rw [closeStack, hrun, Result.ok_bind, ← append_assoc]
    exact hrun'

variable {d : Focus (Fin 16) Value}

theorem RootOf.isValid_iff (h : RootOf keccak256 written nodes e f d out a r) (i : Fin 16) :
    (e.choices i).isValid = true ↔ (f.attach d).children i ≠ .nil := by
  rw [h.root.choices]
  exact isValid_hashOf keccak256 _

theorem finalize_of_denotes {node : Node} {t : MTree} {p : List UInt8}
    (h : NodeDenotes keccak256 (fun _ _ => False) (fun _ _ => True) p node t) :
    (node.computeHash keccak256).finalize keccak256 = rootHashOf keccak256 t := by
  rw [h.computeHash_eq, finalize_hashOf keccak256 h.ne_nil]

theorem mem_append_root_iff {out : List (Word × MTree)} {u : MTree} (hu : u.Proper)
    (hout : ∀ p s, (p, s) ∈ out ↔ ∃ q, (q ≠ [] ∨ u.IsBranch) ∧ p = a :: q ∧ Subtree u q s)
    (p : Word) (s : MTree) :
    (p, s) ∈ out ++ [([], Tree.prepend [a] u)] ↔ Subtree (Tree.prepend [a] u) p s := by
  rw [mem_append, hout, mem_singleton, Prod.mk.injEq, or_comm, subtree_prepend_iff hu]

/-- A root with one child: the last written node becomes the root, or gets an extension when it
is a branch. -/
theorem finishRoot_single {before : List (Nibbles × Node)} {node : Nibbles × Node} {u : MTree}
    (hu : u.Proper) (hchoice : e.choices a = .hash (hashOf keccak256 u))
    (hfilter : (List.finRange 16).filter (fun i => (e.choices i).isValid) = [a])
    (hbefore : List.Forall₂ (EntryOf keccak256) (written ++ before) out)
    (hnode : EntryOf keccak256 node ([a], u))
    (hout : ∀ p s, (p, s) ∈ out ↔ ∃ q, q ≠ [] ∧ p = a :: q ∧ Subtree u q s) :
    ∃ nodes' out', finishRoot keccak256 (before ++ [node]) e =
        .ok (rootHashOf keccak256 (Tree.prepend [a] u), nodes') ∧
      List.Forall₂ (EntryOf keccak256) (written ++ nodes') out' ∧
      ∀ p s, (p, s) ∈ out' ↔ Subtree (Tree.prepend [a] u) p s := by
  obtain ⟨target, node⟩ := node
  obtain ⟨htarget, hden⟩ := hnode
  have hnext : target.next.2.data = hex [] := by
    have hdata : target.data = [nibble a] := htarget
    simp [Nibbles.next, hdata]
  cases hden with
  | @leaf _ q w v hq =>
    have hroot : NodeDenotes keccak256 (fun _ _ => False) (fun _ _ => True) (hex [])
        (.leaf (q.prepend (nibble a)) v.val) (Tree.prepend [a] (.leaf w v)) := by
      refine .leaf v ?_
      simp [Nibbles.prepend, hq]
    refine ⟨before ++ [(target.next.2, .leaf (q.prepend (nibble a)) v.val)],
      out ++ [([], Tree.prepend [a] (.leaf w v))], ?_, ?_, mem_append_root_iff hu ?_⟩
    · simp only [finishRoot, hfilter, getLast?_concat, dropLast_concat,
        finalize_of_denotes hroot]
    · rw [← append_assoc]
      exact rel_append hbefore (.cons ⟨hnext, hroot⟩ .nil)
    · simpa [Tree.IsBranch] using hout
  | @extension _ q w r c hq hr =>
    have hroot : NodeDenotes keccak256 (fun _ _ => False) (fun _ _ => True) (hex [])
        (.extension (q.prepend (nibble a)) r) (Tree.prepend [a] (.ext w c)) := by
      refine .extension ?_ (by simpa using hr)
      simp [Nibbles.prepend, hq]
    refine ⟨before ++ [(target.next.2, .extension (q.prepend (nibble a)) r)],
      out ++ [([], Tree.prepend [a] (.ext w c))], ?_, ?_, mem_append_root_iff hu ?_⟩
    · simp only [finishRoot, hfilter, getLast?_concat, dropLast_concat,
        finalize_of_denotes hroot]
    · rw [← append_assoc]
      exact rel_append hbefore (.cons ⟨hnext, hroot⟩ .nil)
    · simpa [Tree.IsBranch] using hout
  | @branch _ rs cs v hrs =>
    have hroot : NodeDenotes keccak256 (fun _ _ => False) (fun _ _ => True) (hex [])
        (.extension (Nibbles.fromHex [nibble a]) (e.choices a))
        (Tree.prepend [a] (.branch cs v)) := by
      rw [hchoice]
      exact .extension rfl (hash_refDenotes _ _)
    refine ⟨before ++ [(target, .branch rs (valueBytes v))] ++
      [(Nibbles.empty, .extension (Nibbles.fromHex [nibble a]) (e.choices a))],
      out ++ [([a], .branch cs v)] ++ [([], Tree.prepend [a] (.branch cs v))], ?_, ?_,
      mem_append_root_iff hu ?_⟩
    · simp only [finishRoot, hfilter, getLast?_concat, finalize_of_denotes hroot]
    · rw [← append_assoc, ← append_assoc]
      exact rel_append (rel_append hbefore (.cons ⟨htarget, .branch v hrs⟩ .nil))
        (.cons ⟨rfl, hroot⟩ .nil)
    intro p s
    rw [mem_append, hout, mem_singleton, Prod.mk.injEq]
    constructor
    · rintro (⟨q, -, rfl, hs⟩ | ⟨rfl, rfl⟩)
      · exact ⟨q, .inr trivial, rfl, hs⟩
      · exact ⟨[], .inr trivial, rfl, .self (by simp)⟩
    rintro ⟨q, -, rfl, hs⟩
    by_cases hqn : q = []
    · subst hqn
      exact .inr ⟨rfl, hs.unique (.self (by simp)) hu⟩
    · exact .inl ⟨q, hqn, rfl, hs⟩

/-- The root as the function leaves it: its hash is that of the contracted root, and the written
nodes are its nodes. -/
theorem finishRoot_refines (hb : Builds [f] d out m last)
    (h : RootOf keccak256 written nodes e f d out a r) :
    ∃ nodes' out', finishRoot keccak256 nodes e =
        .ok (rootHashOf keccak256 (Tree.contract (f.attach d).children none), nodes') ∧
      List.Forall₂ (EntryOf keccak256) (written ++ nodes') out' ∧
      ∀ p s, (p, s) ∈ out' ↔ Subtree (Tree.contract (f.attach d).children none) p s := by
  obtain ⟨before, node, rfl, hbefore, hnode⟩ := h.last
  have hroot := hb.finish.1
  have hq : d.path = f.path ++ a :: r := by rw [hroot]; exact h.path
  have hchildren := Frame.attach_children hq
  have hchild : (f.attach d).children a ≠ .nil := Frame.attach_child hq hb.proper
  by_cases hone : ∀ b, b ≠ a → (f.attach d).children b = .nil
  · have hfilter : (List.finRange 16).filter (fun i => (e.choices i).isValid) = [a] := by
      have hiff : ∀ i, (e.choices i).isValid = decide (i = a) := fun i => by
        rw [Bool.eq_iff_iff, h.isValid_iff, decide_eq_true_iff]
        exact ⟨fun hi => by_contra fun hne => hi (hone i hne), fun hi => hi ▸ hchild⟩
      simp only [hiff]
      fin_cases a <;> rfl
    have hu : (Tree.prepend r d.tree).Proper := by
      refine hb.proper.canonical.prepend r fun he => hb.proper.ne_nil (Tree.prepend_eq_nil.1 he)
    have hself : (f.attach d).children a = Tree.prepend r d.tree := by
      rw [hchildren, update_self]
    have hnil : ∀ b, b ≠ a → f.children b = .nil := fun b hb => by
      have := hone b hb
      rwa [hchildren, update_of_ne hb] at this
    rw [Tree.contract_single hchild hone, hself]
    refine finishRoot_single hu ?_ hfilter hbefore hnode (hb.finish_single h.path hnil)
    rw [h.root.choices, ← hself]
  · obtain ⟨b, hba, hbne⟩ : ∃ b, b ≠ a ∧ (f.attach d).children b ≠ .nil := by
      simpa using hone
    have htwo : Tree.TwoEntries (f.attach d).children none := .inl ⟨b, a, hba, hbne, hchild⟩
    have hbranch : NodeDenotes keccak256 (fun _ _ => False) (fun _ _ => True) (hex [])
        (.branch e.choices e.value) (Tree.contract (f.attach d).children none) := by
      rw [Tree.contract_branch htwo, h.root.choices, h.root.value]
      exact branch_denotes _ _
    refine ⟨before ++ [node] ++ [(Nibbles.empty, .branch e.choices e.value)], _, ?_, ?_,
      hb.finish_branch htwo⟩
    · have hmem : ∀ i, (f.attach d).children i ≠ .nil →
          i ∈ (List.finRange 16).filter fun i => (e.choices i).isValid := fun i hi => by
        rw [mem_filter]
        exact ⟨mem_finRange i, (h.isValid_iff i).2 hi⟩
      rw [finishRoot]
      split
      · rename_i index hfilter
        have ha := hmem a hchild
        have hb := hmem b hbne
        rw [hfilter, mem_singleton] at ha hb
        exact absurd (hb.trans ha.symm) hba
      · simp only [finalize_of_denotes hbranch]
    · rw [Frame.emit_eq hq, ← append_assoc, ← append_assoc, ← append_assoc]
      refine rel_append (rel_append hbefore (.cons ?_ .nil)) (.cons ⟨rfl, ?_⟩ .nil)
      · rw [hroot]
        exact hnode
      · rw [← Tree.contract_branch htwo]
        exact hbranch

end

/-! ### The trie that insertion leaves -/

abbrev Unhashed {D : Type} (keccak256 : Bytes → H256) (trie : Trie D) (t : MTree) : Prop :=
  TrieDenotes keccak256 (fun _ _ => False) (fun _ _ => False) trie t

section

variable {D : Type} [TrieDB D] {keccak256 : Bytes → H256} {trie : Trie D} {t : MTree}

theorem run_insertions_unhashed (h : Unhashed keccak256 trie t) (hpending : trie.pendingRemoval = [])
    {fuel : Nat} (entries : List (Bytes × Value))
    (hf : ∀ e ∈ entries, 2 * e.1.length + 3 ≤ fuel) :
    ∃ trie' t' outs, run keccak256 fuel trie (insertions entries) = .ok (trie', outs) ∧
      Unhashed keccak256 trie' t' ∧ trie'.pendingRemoval = [] ∧
      ∀ w, t'.lookup w =
        entries.foldl (fun m e => update m (word e.1) (some e.2)) t.lookup w := by
  induction entries generalizing trie t with
  | nil => exact ⟨trie, t, [], rfl, h, hpending, fun _ => rfl⟩
  | cons e entries ih =>
    have hdb : Readable keccak256 (fun _ _ => False) (fun _ _ => False) trie.db :=
      ⟨fun _ _ _ h => h.elim, fun _ _ h => h.elim⟩
    obtain ⟨trie₁, hrun₁, -, hd₁⟩ := h.insert hdb e.1 e.2 (hf e (by simp))
    have hpending₁ : trie₁.pendingRemoval = [] := by
      have hsub := insert_pendingRemoval hrun₁
      rw [hpending] at hsub
      exact subset_nil.1 hsub
    obtain ⟨trie₂, t₂, outs, hrun₂, hd₂, hpending₂, hlookup⟩ :=
      ih hd₁ hpending₁ fun e' he' => hf e' (by simp [he'])
    refine ⟨trie₂, t₂, none :: outs, ?_, hd₂, hpending₂, fun w => ?_⟩
    · rw [insertions] at hrun₂
      simp [insertions, run, Step.run, hrun₁, hrun₂]
    have hstep : (t.insert (word e.1) e.2).lookup =
        update t.lookup (word e.1) (some e.2) := by
      funext w'
      rw [Tree.lookup_insert, update_apply]
    rw [hlookup, hstep, foldl_cons]

omit [TrieDB D] in
theorem Unhashed.mem_commit_iff (h : Unhashed keccak256 trie t) (hpending : trie.pendingRemoval = [])
    (hne : t ≠ .nil → rootHashOf keccak256 t ≠ emptyTrieHash) (path : List UInt8) (data : Bytes) :
    (path.getLast? ≠ some 16 ∧
      ∃ e ∈ (trie.commitWithoutStoring keccak256).1, e.1.data = path ∧ e.2 = data) ↔
    ∃ q s, Subtree t q s ∧ path = hex q ∧ data = encodeOf keccak256 s := by
  obtain ⟨hroot, hcan⟩ := h
  have hhex : ∀ q, (hex q).getLast? ≠ some 16 := fun q hq =>
    terminator_notMem_hex q (mem_of_getLast? hq)
  generalize hr : trie.root = r at hroot
  cases hroot with
  | nil =>
    have hacc : (trie.commitWithoutStoring keccak256).1 = [] := by
      simp [Trie.commitWithoutStoring, hr, NodeRef.isValid, NodeHash.isValid, NodeHash.default,
        NodeRef.computeHash, hpending]
    rw [hacc]
    simp only [not_mem_nil, false_and, exists_false, and_false, false_iff]
    rintro ⟨q, s, hs, -⟩
    exact Subtree.not_nil hs
  | memo _ _ hm => exact hm.elim
  | stored _ hs => exact hs.elim
  | @fresh n _ hn =>
    have href : RefDenotes keccak256 (fun _ _ => False) (fun _ _ => False) [] (.node n none) t :=
      .fresh hn
    have hacc : (trie.commitWithoutStoring keccak256).1 =
        ((NodeRef.node n none).commit keccak256 Nibbles.empty).2.2 := by
      have hhash : ((NodeRef.node n none).commit keccak256 Nibbles.empty).2.1.computeHash keccak256
          ≠ .hashed emptyTrieHash := by
        intro heq
        rw [commit_fresh, NodeRef.computeHash, Node.computeHash,
          hn.encode_commitChildren, ← hashOf_eq keccak256 hn.ne_nil] at heq
        have hfin := finalize_hashOf keccak256 hn.ne_nil
        rw [heq] at hfin
        exact hne hn.ne_nil hfin.symm
      simp [Trie.commitWithoutStoring, hr, NodeRef.isValid, hhash, hpending]
    rw [hacc]
    constructor
    · rintro ⟨hpath, e, he, rfl, rfl⟩
      rcases href.isEntry rfl e he with ⟨q, s, hs, hdata, henc⟩ | ⟨q, w, v, -, hdata, -⟩
      · exact ⟨q, s, hs, by simpa using hdata, henc⟩
      · rw [hdata] at hpath
        simp [terminated] at hpath
    · rintro ⟨q, s, hs, rfl, rfl⟩
      have hemit : Emitted keccak256 (fun _ _ => False)
          ((NodeRef.node n none).commit keccak256 Nibbles.empty).2.2 ([] ++ hex q) s :=
        href.emitted (fun _ _ _ _ hm _ => hm) (fun _ _ _ _ hm _ => hm) rfl hs
      rcases hemit with ⟨e, he, hdata, henc⟩ | hskip
      · exact ⟨hhex q, e, he, by simpa using hdata, henc⟩
      · exact hskip.elim

end

/-! ### Sorted building and insertion agree -/

theorem mem_entries_iff {keccak256 : Bytes → H256} {nodes : List (Nibbles × Node)}
    {out : List (Word × MTree)} (h : List.Forall₂ (EntryOf keccak256) nodes out)
    (path : List UInt8) (data : Bytes) :
    (∃ e ∈ nodes, e.1.data = path ∧ e.2.encode keccak256 = data) ↔
      ∃ q s, (q, s) ∈ out ∧ path = hex q ∧ data = encodeOf keccak256 s := by
  induction h with
  | nil => simp
  | @cons e o nodes out heo _ ih =>
    obtain ⟨q, s⟩ := o
    obtain ⟨hpath, hden⟩ := heo
    have henc := hden.encode_eq
    simp only [mem_cons, exists_eq_or_imp, ih]
    constructor
    · rintro (⟨rfl, rfl⟩ | ⟨q', s', hmem, hrest⟩)
      · exact ⟨q, s, .inl rfl, hpath, henc⟩
      · exact ⟨q', s', .inr hmem, hrest⟩
    rintro ⟨q', s', h | hmem, rfl, rfl⟩
    · cases h
      exact .inl ⟨hpath, henc⟩
    · exact .inr ⟨q', s', hmem, rfl, rfl⟩

/-- The builder ends with the canonical tree of its input and has written the nodes of it. -/
theorem trieFromSortedAccounts_refines (keccak256 : Bytes → H256)
    (flush : List (H256 × Bytes) → List (Nibbles × Node) → Bool) (e : H256 × Value)
    (entries : List (H256 × Value)) (hsorted : ((e :: entries).map Prod.fst).Pairwise (· < ·)) :
    ∃ t batches out,
      trieFromSortedAccounts keccak256 flush (accounts (e :: entries)) =
        .ok (rootHashOf keccak256 t, batches) ∧
      t.Proper ∧ (∀ w, t.lookup w = wordMap (fun _ => none) (e :: entries) w) ∧
      List.Forall₂ (EntryOf keccak256) batches.flatten out ∧
      ∀ p s, (p, s) ∈ out ↔ Subtree t p s := by
  obtain ⟨key, v⟩ := e
  obtain ⟨a, r, hword⟩ : ∃ a r, word key.bytes = a :: r := by
    have hlen := length_word key.bytes
    rw [key.size] at hlen
    cases hw : word key.bytes with
    | nil => simp [hw] at hlen
    | cons a r => exact ⟨a, r, rfl⟩
  have hinit : StateOf keccak256 []
      ⟨[], [], ⟨Nibbles.empty, emptyChoices, []⟩, .fromValue (key, v.val)⟩
      ⟨[], fun _ => .nil⟩ [] ⟨word key.bytes, .leaf [] v⟩ [] := by
    refine ⟨⟨rfl, ?_, rfl⟩, .nil, .leaf v (fromBytes_data key.bytes), .nil⟩
    funext i
    simp [emptyChoices, NodeRef.default]
  have hbuild := builds_singleton a r v
  rw [← hword] at hbuild
  obtain ⟨state, batches, f, fs, c, out, last, hrun, hstate, hb⟩ :=
    processValues_refines flush entries hsorted hinit hbuild rfl
  obtain ⟨a', r', hq, -⟩ := hb.hangs
  obtain ⟨below, node, e', hadd, he', hbelow, hnode⟩ := add_refines hstate.parent hstate.node hq
  have hall : List.Forall₂ (EntryOf keccak256)
      ([] ++ batches.flatten ++ (state.nodesToWrite ++ below)) (out ++ Frame.inner c r') := by
    rw [← append_assoc]
    exact rel_append hstate.out hbelow
  obtain ⟨nodes, root, g, d, out', b, s, hclose, hb', hroot⟩ :=
    closeStack_refines hstate.stack hb he' hq hall hnode
  obtain ⟨nodes', out'', hfinish, hout, hmem⟩ := finishRoot_refines hb' hroot
  obtain ⟨-, hcan, hlookup⟩ := hb'.finish
  refine ⟨_, batches ++ [nodes'], out'', ?_, hcan hb'.finish_ne_nil, fun w => ?_,
    by simpa using hout, hmem⟩
  · simp only [accounts, map_cons] at hrun ⊢
    simp only [trieFromSortedAccounts, hrun, hadd, ← append_assoc, hclose, hfinish,
      Result.ok_bind]
  · rw [hlookup, wordMap, wordMap, foldl_cons, hword]

/-- For increasing keys and nonempty values, `trie_from_sorted_accounts` returns the root hash of
the trie that insertion builds, and what it hands to `put_batch_no_alloc` is, as a set, what
committing that trie emits for its nodes. Only `commit` compares the root with the empty trie, so
its hash must not collide. -/
theorem trieFromSortedAccounts_eq_insertions {D : Type} [TrieDB D] (keccak256 : Bytes → H256)
    (db : D) (flush : List (H256 × Bytes) → List (Nibbles × Node) → Bool)
    (entries : List (H256 × Value)) (hsorted : (entries.map Prod.fst).Pairwise (· < ·))
    (fuel : Nat) (hf : 67 ≤ fuel) :
    ∃ hash batches trie outs,
      trieFromSortedAccounts keccak256 flush (accounts entries) = .ok (hash, batches) ∧
      run keccak256 fuel (Trie.new db) (insertions (entries.map fun e => (e.1.bytes, e.2))) =
        .ok (trie, outs) ∧
      hash = (trie.hashNoCommit keccak256).1 ∧
      ((∀ node memo, trie.root = .node node memo →
          keccak256 (node.encode keccak256) ≠ emptyTrieHash) → ∀ path data,
        (∃ batch ∈ batches, ∃ e ∈ batch, e.1.data = path ∧ e.2.encode keccak256 = data) ↔
          path.getLast? ≠ some 16 ∧
            ∃ e ∈ (trie.commitWithoutStoring keccak256).1, e.1.data = path ∧ e.2 = data) := by
  have hnew : Unhashed keccak256 (Trie.new db) .nil := trieDenotes_new db
  have hfuel : ∀ e ∈ entries.map fun e => (e.1.bytes, e.2), 2 * e.1.length + 3 ≤ fuel := by
    rintro e he
    obtain ⟨e, -, rfl⟩ := mem_map.1 he
    rw [e.1.size]
    omega
  obtain ⟨trie, t, outs, hrun, hd, hpending, hlookup⟩ := run_insertions_unhashed hnew rfl _ hfuel
  cases entries with
  | nil =>
    have ht : t = .nil := hd.canonical.eq_nil fun w => by simpa using hlookup w
    subst ht
    refine ⟨emptyTrieHash, [], trie, outs, rfl, hrun, by rw [hd.hashNoCommit]; rfl, ?_⟩
    intro _ path data
    rw [hd.mem_commit_iff hpending fun h => absurd rfl h]
    refine ⟨by simp, ?_⟩
    rintro ⟨q, s, hs, -⟩
    exact absurd hs Subtree.not_nil
  | cons e entries =>
    obtain ⟨t', batches, out, hbuild, hproper, hmap, hout, hmem⟩ :=
      trieFromSortedAccounts_refines keccak256 flush e entries hsorted
    obtain rfl : t' = t := by
      refine hproper.canonical.ext_lookup hd.canonical fun w => ?_
      have hnil : (.nil : MTree).lookup = fun _ => none := funext Tree.lookup_nil
      rw [hmap, hlookup, wordMap, foldl_map, hnil]
    have hhash := hd.hashNoCommit
    rw [trieHashOf_of_ne_nil hproper.ne_nil] at hhash
    refine ⟨_, batches, trie, outs, hbuild, hrun, hhash.symm, fun hne path data => ?_⟩
    have hroot : rootHashOf keccak256 t' ≠ emptyTrieHash := by
      obtain ⟨node, memo, hnode, henc⟩ := hd.exists_node hproper.ne_nil
      rw [rootHashOf, ← henc]
      exact hne node memo hnode
    rw [hd.mem_commit_iff hpending fun _ => hroot]
    have hflat := mem_entries_iff hout path data
    simp only [mem_flatten, hmem] at hflat
    rw [← hflat]
    constructor
    · rintro ⟨batch, hbatch, e, he, hrest⟩
      exact ⟨e, ⟨batch, hbatch, he⟩, hrest⟩
    · rintro ⟨e, ⟨batch, hbatch, he⟩, hrest⟩
      exact ⟨batch, hbatch, e, he, hrest⟩

/-- Two keys that part at their first nibble, with the buffer handed over at every turn. -/
theorem trieFromSortedAccounts_twoKeys :
    ∃ hash batches trie outs,
      trieFromSortedAccounts twoKeyKeccak (fun _ _ => true)
        (accounts [(.repeatByte 0x11, ⟨[1], by decide⟩), (.repeatByte 0x22, ⟨[2], by decide⟩)]) =
        .ok (hash, batches) ∧
      run twoKeyKeccak 67 (Trie.new InMemoryTrieDB.newEmpty)
        [.insert (H256.repeatByte 0x11).bytes ⟨[1], by decide⟩,
          .insert (H256.repeatByte 0x22).bytes ⟨[2], by decide⟩] = .ok (trie, outs) ∧
      hash = (trie.hashNoCommit twoKeyKeccak).1 ∧
      ∀ path data,
        (∃ batch ∈ batches, ∃ e ∈ batch, e.1.data = path ∧ e.2.encode twoKeyKeccak = data) ↔
          path.getLast? ≠ some 16 ∧
            ∃ e ∈ (trie.commitWithoutStoring twoKeyKeccak).1, e.1.data = path ∧ e.2 = data := by
  obtain ⟨hash, batches, trie, outs, hbuild, hrun, hhash, hset⟩ :=
    trieFromSortedAccounts_eq_insertions twoKeyKeccak InMemoryTrieDB.newEmpty (fun _ _ => true)
      [(.repeatByte 0x11, ⟨[1], by decide⟩), (.repeatByte 0x22, ⟨[2], by decide⟩)]
      (by
        rw [map_cons, map_cons, map_nil, pairwise_pair]
        decide) 67 (by decide)
  exact ⟨hash, batches, trie, outs, hbuild, hrun, hhash, hset fun _ _ _ => twoKeyKeccak_ne _⟩

end Ethrex.Mpt
