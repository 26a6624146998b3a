import Ethrex.Mpt.Denote
import Ethrex.Patricia.Subtree

/-!
# Memoizing and committing

Filling memos changes neither what a node denotes nor its hash. `commit` emits encodings of subtrees
at their paths and flat entries; what is not emitted lies below a memoized or stored subtree.
-/

namespace Ethrex.Mpt

open Patricia Rlp List

/-- The property holds of the tree at path `p` and of every subtree at its own path. -/
def Throughout (P : List UInt8 → MTree → Prop) (p : List UInt8) (t : MTree) : Prop :=
  ∀ q s, Subtree t q s → P (p ++ hex q) s

section Throughout

variable {P : List UInt8 → MTree → Prop} {p : List UInt8} {t : MTree}

theorem Throughout.self (h : Throughout P p t) (ht : t ≠ .nil) : P p t := by
  simpa using h [] t (.self ht)

theorem Throughout.ext {w : Word} (h : Throughout P p (.ext w t)) :
    Throughout P (p ++ hex w) t := fun q s hs => by
  simpa using h (w ++ q) s (.ext hs)

theorem Throughout.branch {cs : Fin 16 → MTree} {v : Option Value}
    (h : Throughout P p (.branch cs v)) (i : Fin 16) :
    Throughout P (p ++ [nibble i]) (cs i) := fun q s hs => by
  simpa using h (i :: q) s (.branch hs)

end Throughout

section Mono

variable {keccak256 : Bytes → H256} {Memo Stored Memo' Stored' : List UInt8 → MTree → Prop}
  {p : List UInt8} {n : Node} {r : NodeRef} {t : MTree}

theorem RefDenotes.mono_of_node (h : RefDenotes keccak256 Memo Stored p r t)
    (hM : t ≠ .nil → Memo p t → Memo' p t) (hS : t ≠ .nil → Stored p t → Stored' p t)
    (hnode : ∀ n, NodeDenotes keccak256 Memo Stored p n t →
      NodeDenotes keccak256 Memo' Stored' p n t) :
    RefDenotes keccak256 Memo' Stored' p r t := by
  cases h with
  | nil => exact .nil p
  | fresh hn => exact .fresh (hnode _ hn)
  | memo hn hh hm => exact .memo (hnode _ hn) hh (hM hn.ne_nil hm)
  | stored ht hh hs => exact .stored ht hh (hS ht hs)

theorem NodeDenotes.mono (h : NodeDenotes keccak256 Memo Stored p n t)
    (hM : Throughout (fun q s => Memo q s → Memo' q s) p t)
    (hS : Throughout (fun q s => Stored q s → Stored' q s) p t) :
    NodeDenotes keccak256 Memo' Stored' p n t := by
  induction t generalizing p n with
  | nil => cases h
  | leaf w v =>
    cases h with
    | leaf _ hq => exact .leaf v hq
  | ext w c ih =>
    cases h with
    | extension hq hr =>
      exact .extension hq (hr.mono_of_node hM.ext.self hS.ext.self fun _ hn => ih hn hM.ext hS.ext)
  | branch cs v ih =>
    cases h with
    | branch _ hrs =>
      exact .branch v fun i => (hrs i).mono_of_node (hM.branch i).self (hS.branch i).self
        fun _ hn => ih i hn (hM.branch i) (hS.branch i)

end Mono

section

variable {keccak256 : Bytes → H256} {Memo Stored : List UInt8 → MTree → Prop}
  {p : List UInt8} {n : Node} {r : NodeRef} {t : MTree}

theorem RefDenotes.memoizeHashes_of_node (h : RefDenotes keccak256 Memo Stored p r t)
    (hM : t ≠ .nil → Memo p t)
    (hnode : ∀ n, NodeDenotes keccak256 Memo Stored p n t →
      NodeDenotes keccak256 Memo Stored p (n.memoizeHashes keccak256) t) :
    RefDenotes keccak256 Memo Stored p (r.memoizeHashes keccak256) t := by
  cases h with
  | nil => exact .nil p
  | fresh hn => exact .memo (hnode _ hn) (hnode _ hn).computeHash_eq (hM hn.ne_nil)
  | memo hn hh hm => exact .memo hn hh hm
  | stored ht hh hs => exact .stored ht hh hs

/-- `Node::memoize_hashes` keeps the denoted tree. -/
theorem NodeDenotes.memoizeHashes (h : NodeDenotes keccak256 Memo Stored p n t)
    (hM : Throughout Memo p t) :
    NodeDenotes keccak256 Memo Stored p (n.memoizeHashes keccak256) t := by
  induction t generalizing p n with
  | nil => cases h
  | leaf w v =>
    cases h with
    | leaf _ hq => exact .leaf v hq
  | ext w c ih =>
    cases h with
    | extension hq hr =>
      exact .extension hq (hr.memoizeHashes_of_node hM.ext.self fun _ hn => ih hn hM.ext)
  | branch cs v ih =>
    cases h with
    | branch _ hrs =>
      exact .branch v fun i => (hrs i).memoizeHashes_of_node (hM.branch i).self
        fun _ hn => ih i hn (hM.branch i)

theorem commit_fresh (n : Node) (path : Nibbles) :
    (NodeRef.node n none).commit keccak256 path =
      (((n.commitChildren keccak256 path).1.computeHash keccak256),
        .node (n.commitChildren keccak256 path).1
          (some ((n.commitChildren keccak256 path).1.computeHash keccak256)),
        (n.commitChildren keccak256 path).2 ++
          (match (n.commitChildren keccak256 path).1 with
            | .leaf partialPath value => [(path.concat partialPath, value)]
            | _ => []) ++ [(path, (n.commitChildren keccak256 path).1.encode keccak256)]) := by
  rw [NodeRef.commit]
  rfl

theorem RefDenotes.commit_of_node (h : RefDenotes keccak256 Memo Stored p r t)
    (hM : t ≠ .nil → Memo p t) (path : Nibbles)
    (hnode : ∀ n, NodeDenotes keccak256 Memo Stored p n t →
      NodeDenotes keccak256 Memo Stored p (n.commitChildren keccak256 path).1 t) :
    RefDenotes keccak256 Memo Stored p (r.commit keccak256 path).2.1 t := by
  cases h with
  | nil => exact .nil p
  | fresh hn =>
    rw [commit_fresh]
    exact .memo (hnode _ hn) (hnode _ hn).computeHash_eq (hM hn.ne_nil)
  | memo hn hh hm =>
    rw [NodeRef.commit]
    exact .memo hn hh hm
  | stored ht hh hs =>
    rw [NodeRef.commit]
    exact .stored ht hh hs

theorem NodeDenotes.commitChildren (h : NodeDenotes keccak256 Memo Stored p n t)
    (hM : Throughout Memo p t) (path : Nibbles) :
    NodeDenotes keccak256 Memo Stored p (n.commitChildren keccak256 path).1 t := by
  induction t generalizing p n path with
  | nil => cases h
  | leaf w v =>
    cases h with
    | leaf _ hq => exact .leaf v hq
  | ext w c ih =>
    cases h with
    | extension hq hr =>
      exact .extension hq (hr.commit_of_node hM.ext.self _ fun _ hn => ih hn hM.ext _)
  | branch cs v ih =>
    cases h with
    | branch _ hrs =>
      exact .branch v fun i => (hrs i).commit_of_node (hM.branch i).self _
        fun _ hn => ih i hn (hM.branch i) _

theorem NodeDenotes.encode_commitChildren (h : NodeDenotes keccak256 Memo Stored p n t)
    (path : Nibbles) :
    (n.commitChildren keccak256 path).1.encode keccak256 = encodeOf keccak256 t := by
  have h' : NodeDenotes keccak256 (fun _ _ => True) Stored p n t :=
    h.mono (fun _ _ _ _ => trivial) fun _ _ _ => id
  exact (h'.commitChildren (fun _ _ _ => trivial) path).encode_eq

/-- An entry of the trie at path `p`: the encoding of a subtree at its path, or the value of a
leaf at its full path. -/
def IsEntry (keccak256 : Bytes → H256) (p : List UInt8) (t : MTree) (e : Nibbles × Bytes) :
    Prop :=
  (∃ q s, Subtree t q s ∧ e.1.data = p ++ hex q ∧ e.2 = encodeOf keccak256 s) ∨
    ∃ q w v, Subtree t q (.leaf w v) ∧ e.1.data = p ++ hex q ++ terminated w ∧ e.2 = v.val

variable {e : Nibbles × Bytes}

theorem IsEntry.ext {w : Word} {c : MTree} (h : IsEntry keccak256 (p ++ hex w) c e) :
    IsEntry keccak256 p (.ext w c) e := by
  rcases h with ⟨q, s, hs, hdata, henc⟩ | ⟨q, u, v, hs, hdata, hv⟩
  · exact .inl ⟨w ++ q, s, .ext hs, by simp [hdata], henc⟩
  · exact .inr ⟨w ++ q, u, v, .ext hs, by simp [hdata], hv⟩

theorem IsEntry.branch {cs : Fin 16 → MTree} {u : Option Value} {i : Fin 16}
    (h : IsEntry keccak256 (p ++ [nibble i]) (cs i) e) : IsEntry keccak256 p (.branch cs u) e := by
  rcases h with ⟨q, s, hs, hdata, henc⟩ | ⟨q, w, v, hs, hdata, hv⟩
  · exact .inl ⟨i :: q, s, .branch hs, by simp [hdata], henc⟩
  · exact .inr ⟨i :: q, w, v, .branch hs, by simp [hdata], hv⟩

theorem RefDenotes.isEntry_of_node (h : RefDenotes keccak256 Memo Stored p r t) {path : Nibbles}
    (hp : path.data = p)
    (hnode : ∀ n, NodeDenotes keccak256 Memo Stored p n t →
      ∀ e ∈ (n.commitChildren keccak256 path).2, IsEntry keccak256 p t e) :
    ∀ e ∈ (r.commit keccak256 path).2.2, IsEntry keccak256 p t e := by
  intro e he
  cases h with
  | nil => simp [NodeRef.commit] at he
  | memo _ _ _ => simp [NodeRef.commit] at he
  | stored _ _ _ => simp [NodeRef.commit] at he
  | @fresh _ n _ hn =>
    rw [commit_fresh, mem_append, mem_append] at he
    rcases he with (he | he) | he
    · exact hnode n hn e he
    · -- the flat entry of a leaf
      cases hn with
      | @leaf _ q w v hq =>
        simp only [Node.commitChildren, mem_singleton] at he
        subst he
        exact .inr ⟨[], w, v, .self (by simp), by simp [Nibbles.concat, hp, hq], rfl⟩
      | extension _ _ => simp [Node.commitChildren] at he
      | branch _ _ => simp [Node.commitChildren] at he
    · rw [mem_singleton] at he
      subst he
      exact .inl ⟨[], t, .self hn.ne_nil, by simp [hp], hn.encode_commitChildren path⟩

theorem NodeDenotes.isEntry (h : NodeDenotes keccak256 Memo Stored p n t) {path : Nibbles}
    (hp : path.data = p) :
    ∀ e ∈ (n.commitChildren keccak256 path).2, IsEntry keccak256 p t e := by
  induction t generalizing p n path with
  | nil => cases h
  | leaf w v =>
    cases h with
    | leaf _ _ => simp [Node.commitChildren]
  | ext w c ih =>
    cases h with
    | extension hq hr =>
      intro e he
      refine IsEntry.ext (hr.isEntry_of_node ?_ (fun _ hn => ih hn ?_) e he)
      · simp [Nibbles.concat, hp, hq]
      · simp [Nibbles.concat, hp, hq]
  | branch cs v ih =>
    cases h with
    | branch _ hrs =>
      intro e he
      simp only [Node.commitChildren, mem_flatMap] at he
      obtain ⟨i, -, he⟩ := he
      refine IsEntry.branch ((hrs i).isEntry_of_node ?_ (fun _ hn => ih i hn ?_) e he)
      · simp [Nibbles.appendNew, hp]
      · simp [Nibbles.appendNew, hp]

theorem RefDenotes.isEntry (h : RefDenotes keccak256 Memo Stored p r t) {path : Nibbles}
    (hp : path.data = p) :
    ∀ e ∈ (r.commit keccak256 path).2.2, IsEntry keccak256 p t e :=
  h.isEntry_of_node hp fun _ hn => hn.isEntry hp

/-- A subtree is emitted, or it is skipped below a memoized or stored reference. -/
def Emitted (keccak256 : Bytes → H256) (Skip : List UInt8 → MTree → Prop)
    (entries : List (Nibbles × Bytes)) (p : List UInt8) (s : MTree) : Prop :=
  (∃ e ∈ entries, e.1.data = p ∧ e.2 = encodeOf keccak256 s) ∨ Skip p s

section Complete

variable {Skip : List UInt8 → MTree → Prop}
  (hmemo : ∀ p t q s, Memo p t → Subtree t q s → Skip (p ++ hex q) s)
  (hstored : ∀ p t q s, Stored p t → Subtree t q s → Skip (p ++ hex q) s)

include hmemo hstored

variable {path : Nibbles} {q : Word} {s : MTree}

theorem RefDenotes.emitted_of_node (h : RefDenotes keccak256 Memo Stored p r t) (hp : path.data = p)
    (hnode : ∀ n, NodeDenotes keccak256 Memo Stored p n t → ∀ q s, Subtree t q s →
      s = t ∧ q = [] ∨ Emitted keccak256 Skip (n.commitChildren keccak256 path).2 (p ++ hex q) s)
    (hs : Subtree t q s) : Emitted keccak256 Skip (r.commit keccak256 path).2.2 (p ++ hex q) s := by
  cases h with
  | nil => exact absurd hs Subtree.not_nil
  | memo _ _ hm => exact .inr (hmemo p t q s hm hs)
  | stored _ _ hm => exact .inr (hstored p t q s hm hs)
  | @fresh _ n _ hn =>
    rw [commit_fresh]
    rcases hnode n hn q s hs with ⟨rfl, rfl⟩ | ⟨e, he, hdata⟩ | hskip
    · exact .inl ⟨_, mem_append_right _ (mem_singleton_self _), by simpa using hp,
        hn.encode_commitChildren path⟩
    · exact .inl ⟨e, by simp [he], hdata⟩
    · exact .inr hskip

/-- Every subtree other than the node itself is emitted or skipped when its node is committed. -/
theorem NodeDenotes.emitted (h : NodeDenotes keccak256 Memo Stored p n t) (hp : path.data = p)
    (q : Word) (s : MTree) (hs : Subtree t q s) :
    s = t ∧ q = [] ∨ Emitted keccak256 Skip (n.commitChildren keccak256 path).2 (p ++ hex q) s := by
  induction t generalizing p n path q s with
  | nil => cases h
  | leaf w v =>
    cases hs with
    | self _ => exact .inl ⟨rfl, rfl⟩
  | ext w c ih =>
    cases h with
    | @extension _ qn _ r _ hq hr =>
      cases hs with
      | self _ => exact .inl ⟨rfl, rfl⟩
      | @ext _ q' _ _ hs =>
        right
        have hp' : (path.concat qn).data = p ++ hex w := by simp [Nibbles.concat, hp, hq]
        rw [hex_append, ← append_assoc]
        exact hr.emitted_of_node hmemo hstored hp' (fun _ hn q s => ih hn hp' q s) hs
  | branch cs v ih =>
    cases h with
    | branch _ hrs =>
      cases hs with
      | self _ => exact .inl ⟨rfl, rfl⟩
      | @branch _ _ i q' _ hs =>
        right
        have hp' : (path.appendNew (nibble i)).data = p ++ [nibble i] := by
          simp [Nibbles.appendNew, hp]
        have hchild := (hrs i).emitted_of_node hmemo hstored hp'
          (fun _ hn q s => ih i hn hp' q s) hs
        rcases hchild with ⟨e, he, hdata⟩ | hskip
        · refine .inl ⟨e, ?_, by simpa using hdata⟩
          simp only [Node.commitChildren, mem_flatMap, mem_finRange, true_and]
          exact ⟨i, he⟩
        · exact .inr (by simpa using hskip)

theorem RefDenotes.emitted (h : RefDenotes keccak256 Memo Stored p r t) (hp : path.data = p)
    (hs : Subtree t q s) : Emitted keccak256 Skip (r.commit keccak256 path).2.2 (p ++ hex q) s :=
  h.emitted_of_node hmemo hstored hp (fun _ hn q s hs => hn.emitted hmemo hstored hp q s hs) hs

end Complete

end

end Ethrex.Mpt
