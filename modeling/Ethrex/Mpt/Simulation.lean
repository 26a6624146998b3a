import Ethrex.Mpt.Denote

/-!
# The node operations on denoted trees

On a node that denotes a canonical tree the operations return without error and do what the abstract
operations do. Stored references have to be readable.
-/

namespace Ethrex.Mpt

open Patricia Rlp List Function
open NodeRef (clearHash getNode getNodeMut hash ofNode)

section

variable {D : Type} [TrieDB D] (keccak256 : Bytes → H256) (Memo Stored : List UInt8 → MTree → Prop)
  (db : D)

/-- Every reference that holds a hash only can be read from the database, where its tree is
also good enough to be memoized. -/
def Resolves : Prop :=
  ∀ p t, t ≠ .nil → Stored p t → Memo p t ∧ ∃ n, NodeDenotes keccak256 Memo Stored p n t ∧
    (hash (hashOf keccak256 t)).getNode db ⟨p, []⟩ = .ok (some n)

variable {keccak256 Memo Stored db} {p : List UInt8} {n : Node} {r : NodeRef} {t : MTree}

theorem getNodeMut_hash (h : NodeHash) (path : Nibbles) :
    (hash h).getNodeMut db path =
      Option.map (·, some h) <$> (hash h).getNode db path := by
  cases h with
  | hashed h =>
    simp only [getNodeMut, getNode]
    cases getStoredNode db path with
    | error e => rfl
    | ok o => cases o <;> rfl
  | inline data =>
    simp only [getNodeMut, getNode]
    cases Node.decode data.val <;> rfl

variable (hres : Resolves keccak256 Memo Stored db) (h : RefDenotes keccak256 Memo Stored p r t)
  (ht : t ≠ .nil)

include hres h ht

theorem RefDenotes.getNode :
    ∃ n, r.getNode db ⟨p, []⟩ = .ok (some n) ∧ NodeDenotes keccak256 Memo Stored p n t := by
  cases h with
  | nil => exact absurd rfl ht
  | fresh hn => exact ⟨_, rfl, hn⟩
  | memo hn _ _ => exact ⟨_, rfl, hn⟩
  | stored _ hh hs =>
    obtain ⟨-, n, hn, hget⟩ := hres p t ht hs
    exact ⟨n, by rw [hh]; exact hget, hn⟩

theorem RefDenotes.getNodeMut :
    ∃ n memo, r.getNodeMut db ⟨p, []⟩ = .ok (some (n, memo)) ∧
      NodeDenotes keccak256 Memo Stored p n t ∧
      RefDenotes keccak256 Memo Stored p (.node n memo) t := by
  cases h with
  | nil => exact absurd rfl ht
  | fresh hn => exact ⟨_, _, rfl, hn, .fresh hn⟩
  | memo hn hh hm => exact ⟨_, _, rfl, hn, .memo hn hh hm⟩
  | stored _ hh hs =>
    obtain ⟨hm, n, hn, hget⟩ := hres p t ht hs
    refine ⟨n, some (hashOf keccak256 t), ?_, hn, .memo hn rfl hm⟩
    rw [hh, getNodeMut_hash, hget]
    rfl

omit hres h ht

theorem refDenotes_emptyChoices (p : List UInt8) (i : Fin 16) :
    RefDenotes keccak256 Memo Stored (p ++ [nibble i]) (emptyChoices i) .nil :=
  .nil _

variable {path q : Nibbles} {rs : Fin 16 → NodeRef} {cs : Fin 16 → MTree} {a : Fin 16} {k w : Word}
  {fuel : Nat}

theorem refDenotes_update
    (h : ∀ i, RefDenotes keccak256 Memo Stored (p ++ [nibble i]) (rs i) (cs i)) {c : MTree}
    (hr : RefDenotes keccak256 Memo Stored (p ++ [nibble a]) r c) (i : Fin 16) :
    RefDenotes keccak256 Memo Stored (p ++ [nibble i]) (update rs a r i)
      (update cs a c i) := by
  by_cases hi : i = a
  · subst hi
    simpa using hr
  · simpa [hi] using h i

theorem setChoice_val (choices : Fin 16 → NodeRef) (i : Fin 16) (ref : NodeRef) :
    setChoice choices i.val ref = .ok (update choices i ref) := by
  simp [setChoice, i.isLt]

theorem NodeDenotes.get (hres : Resolves keccak256 Memo Stored db)
    (h : NodeDenotes keccak256 Memo Stored p n t) (ht : t.Proper) (hk : path.data = terminated k)
    (hp : path.alreadyConsumed = p) (hf : k.length < fuel) :
    n.get keccak256 db fuel path = .ok ((t.lookup k).map Subtype.val) := by
  induction t generalizing p n path k fuel with
  | nil => cases h
  | leaf w v =>
    obtain ⟨fuel, rfl⟩ := Nat.exists_eq_succ_of_ne_zero (Nat.ne_zero_of_lt hf)
    cases h with
    | leaf _ hq =>
      by_cases hkw : k = w
      · simp [Node.get, LeafNode.get, hq, hk, hkw]
      · simp [Node.get, LeafNode.get, hq, hk, hkw, Ne.symm hkw]
  | ext w c ih =>
    obtain ⟨fuel, rfl⟩ := Nat.exists_eq_succ_of_ne_zero (Nat.ne_zero_of_lt hf)
    cases h with
    | @extension _ q _ r _ hq hr =>
      rw [Node.get, ExtensionNode.get]
      by_cases hw : w <+: k
      · obtain ⟨k, rfl⟩ := hw
        rw [Nibbles.skipPrefix_append hk hq]
        obtain ⟨hw0, -, hc⟩ := ht
        obtain ⟨m, hm, hd⟩ := hr.getNode hres hc.ne_nil
        simp only [Nibbles.current, hp, hm, Result.ok_bind, Tree.lookup_ext_append]
        have hlen := length_pos_iff.2 hw0
        rw [length_append] at hf
        exact ih hd hc rfl rfl (by omega)
      · rw [Nibbles.skipPrefix_of_not_isPrefix hk hq hw]
        simp [Tree.lookup_ext, hw]
  | branch cs v ih =>
    obtain ⟨fuel, rfl⟩ := Nat.exists_eq_succ_of_ne_zero (Nat.ne_zero_of_lt hf)
    cases h with
    | @branch _ rs _ _ hrs =>
      rw [Node.get, BranchNode.get]
      cases k with
      | nil =>
        rw [Nibbles.nextChoice_nil hk]
        cases v with
        | none => simp [valueBytes]
        | some v => simp [valueBytes, v.property]
      | cons a k =>
        rw [Nibbles.nextChoice_cons hk]
        simp only [Nibbles.current, hp, Tree.lookup_branch_cons]
        by_cases hca : cs a = .nil
        · have hv : (rs a).isValid = false := by
            simpa [hca] using (hrs a).isValid_iff
          simp [hv, hca]
        rw [if_pos ((hrs a).isValid_iff.2 hca)]
        obtain ⟨m, hm, hd⟩ := (hrs a).getNode hres hca
        rw [hm]
        exact ih a hd (ht.1 a hca) rfl rfl (by simpa using hf)

theorem at?_append {c : Word} (h : path.data = terminated (c ++ k)) :
    path.at? c.length = (terminated k).head?.map UInt8.toNat := by
  rw [Nibbles.at?, h, terminated_append, ← length_hex c, getElem?_append_right le_rfl,
    Nat.sub_self, head?_eq_getElem?]

theorem slice_zero_append {c : Word} {r : List UInt8} (h : path.data = hex c ++ r) :
    path.slice 0 c.length = Nibbles.fromHex (hex c) := by
  rw [Nibbles.slice, h, ← length_hex c, take_left, drop_zero]

theorem offset_succ_data {c : Word} (h : path.data = terminated (c ++ a :: k)) :
    (path.offset (c.length + 1)).data = terminated k := by
  have hc : c.length + 1 = (c ++ [a]).length := by simp
  rw [hc, Nibbles.offset_append (k := k) (by simpa using h)]

theorem leaf_splitBranch {c : Word} (hq : q.data = terminated (c ++ w))
    (hk : path.data = terminated (c ++ k)) (hne : w ≠ k) (u v : Value) :
    ∃ m, LeafNode.splitBranch q u.val path (.value v.val) c.length = .ok m ∧
      NodeDenotes keccak256 Memo Stored p m (Tree.fork w u k v) := by
  rw [LeafNode.splitBranch, at?_append hq, at?_append hk]
  match w, k with
  | [], [] => exact absurd rfl hne
  | [], b :: k =>
    refine ⟨_, ?_, .branch (some u) (refDenotes_update (refDenotes_emptyChoices p)
      (.fresh (.leaf v (offset_succ_data hk))))⟩
    simp [setChoice_val, LeafNode.newChoice, ofNode, valueBytes]
  | a :: w, [] =>
    refine ⟨_, ?_, .branch (some v) (refDenotes_update (refDenotes_emptyChoices p)
      (.fresh (.leaf u (offset_succ_data hq))))⟩
    have ha : a.val ≠ 16 := a.isLt.ne
    simp [setChoice_val, ofNode, valueBytes, ha]
  | a :: w, b :: k =>
    refine ⟨_, ?_, .branch none (refDenotes_update (refDenotes_update (refDenotes_emptyChoices p)
      (.fresh (.leaf v (offset_succ_data hk)))) (.fresh (.leaf u (offset_succ_data hq))))⟩
    have ha : a.val ≠ 16 := a.isLt.ne
    have hb : b.val ≠ 16 := b.isLt.ne
    simp [setChoice_val, LeafNode.newChoice, ofNode, valueBytes, ha, hb]

theorem NodeDenotes.prepend {m : Node} {c : Word} (hq : q.data = hex c) (hb : t.IsBranch)
    (h : NodeDenotes keccak256 Memo Stored (p ++ hex c) m t) :
    NodeDenotes keccak256 Memo Stored p
      (if c.length = 0 then m else .extension q (ofNode m)) (t.prepend c) := by
  cases t with
  | branch cs v =>
    cases c with
    | nil => simpa [Tree.prepend] using h
    | cons a c => exact .extension hq (.fresh h)
  | nil => exact hb.elim
  | leaf _ _ => exact hb.elim
  | ext _ _ => exact hb.elim

theorem isBranch_fork (u v : Value) (h : w ≠ k) : (Tree.fork w u k v).IsBranch := by
  match w, k with
  | [], [] => exact absurd rfl h
  | [], b :: k => trivial
  | a :: w, [] => trivial
  | a :: w, b :: k => trivial

theorem leaf_insert (hq : q.data = terminated w) (hk : path.data = terminated k) (u v : Value) :
    ∃ m, LeafNode.insert q u.val path (.value v.val) = .ok m ∧
      NodeDenotes keccak256 Memo Stored p m ((Tree.leaf w u).insert k v) := by
  by_cases hkw : k = w
  · subst hkw
    exact ⟨.leaf q v.val, by simp [LeafNode.insert, hq, hk], by simpa [Tree.insert] using .leaf v hq⟩
  have hdata : q.data ≠ path.data := by simpa [hq, hk] using Ne.symm hkw
  have hlcp := Nibbles.countPrefix_terminated hk hq hkw
  obtain ⟨c, k, w, rfl, rfl, hlen, -⟩ := lcp_spec k w
  have hne : w ≠ k := fun he => hkw (by rw [he])
  obtain ⟨m, hm, hd⟩ : ∃ m, LeafNode.splitBranch q u.val path (.value v.val) c.length = .ok m ∧
      NodeDenotes keccak256 Memo Stored (p ++ hex c) m (Tree.fork w u k v) :=
    leaf_splitBranch hq hk hne u v
  have hslice := slice_zero_append (hk.trans (terminated_append c k))
  have htree : (Tree.leaf (c ++ w) u).insert (c ++ k) v = (Tree.fork w u k v).prepend c := by
    simp only [Tree.insert, hkw, if_false, hlen, take_left, drop_left]
  rw [htree]
  refine ⟨_, ?_, .prepend (q := path.slice 0 c.length) (by rw [hslice]; rfl)
    (isBranch_fork u v hne) hd⟩
  simp only [LeafNode.insert, hdata, if_false, hlcp, hlen, hm, Result.ok_bind]
  split <;> rfl

theorem ext_rest {c : MTree} (hq : q.data = hex (a :: w)) (hb : c.IsBranch)
    (hr : RefDenotes keccak256 Memo Stored (p ++ hex (a :: w)) r c) :
    RefDenotes keccak256 Memo Stored (p ++ [nibble a])
      (if q.len = 1 then r else ofNode (.extension (q.offset 1) r)) (c.prepend w) := by
  have hlen : q.len = w.length + 1 := by simp [Nibbles.len, hq]
  have hpath : p ++ hex (a :: w) = p ++ [nibble a] ++ hex w := by simp
  cases c with
  | branch cs v =>
    cases w with
    | nil => simpa [hlen, Tree.prepend] using hr
    | cons b w =>
      simp only [hlen, length_cons, Nat.add_eq_right, Nat.add_eq_zero_iff, one_ne_zero,
        and_false, if_false, Tree.prepend, reduceCtorEq]
      exact .fresh (.extension (by simp [Nibbles.offset, hq]) (hpath ▸ hr))
  | nil => exact hb.elim
  | leaf _ _ => exact hb.elim
  | ext _ _ => exact hb.elim

theorem ext_insert_fork (db : D) (path : Nibbles) {c : MTree} (hq : q.data = hex w) (hw : w ≠ [])
    (hb : c.IsBranch) (hr : RefDenotes keccak256 Memo Stored (p ++ hex w) r c)
    (hk : path.data = terminated k) (hkw : ∀ a, k.head? = some a → w.head? ≠ some a) (v : Value)
    (fuel : Nat) :
    ∃ m, (Node.extension q r).insert keccak256 db (fuel + 2) path (.value v.val) = .ok m ∧
      NodeDenotes keccak256 Memo Stored p m (Tree.forkExt w c k v) := by
  cases w with
  | nil => exact absurd rfl hw
  | cons a w =>
    have hrest := ext_rest hq hb hr
    have hcount : path.countPrefix q = 0 := by
      rw [Nibbles.countPrefix_hex hk hq]
      cases k with
      | nil => rfl
      | cons b k =>
        have hba : b ≠ a := fun he => hkw b rfl (by simp [he])
        simp [lcp, hba]
    have ha : a.val ≠ 16 := a.isLt.ne
    have hsplit : ExtensionNode.splitBranch keccak256 db q r path =
        .ok (.branch (update emptyChoices a
          (if q.len = 1 then r else ofNode (.extension (q.offset 1) r))) []) := by
      simp [ExtensionNode.splitBranch, Nibbles.at?, hq, ha, setChoice_val]
    have hlen : q.len ≠ 0 := by simp [Nibbles.len, hq]
    simp only [Node.insert, ExtensionNode.insert, hcount, Ne.symm hlen, if_false, if_true, hsplit,
      Result.ok_bind]
    cases k with
    | nil =>
      refine ⟨_, ?_, .branch (some v) (refDenotes_update (refDenotes_emptyChoices p) hrest)⟩
      simp [BranchNode.insert, Nibbles.nextChoice_nil hk, valueBytes]
    | cons b k =>
      have hba : b ≠ a := fun he => hkw b rfl (by simp [he])
      refine ⟨_, ?_, .branch none (refDenotes_update
        (refDenotes_update (refDenotes_emptyChoices p) hrest)
        (.fresh (.leaf (q := ⟨terminated k, path.alreadyConsumed ++ [nibble b]⟩) v rfl)))⟩
      simp [BranchNode.insert, Nibbles.nextChoice_cons hk, hba, emptyChoices, NodeRef.default,
        NodeRef.isValid, NodeHash.isValid, NodeHash.default, ofNode, valueBytes]

theorem isBranch_forkExt (hw : w ≠ []) (c : MTree) (k : Word) (v : Value) :
    (Tree.forkExt w c k v).IsBranch := by
  match w, k with
  | [], _ => exact absurd rfl hw
  | a :: w, [] => trivial
  | a :: w, b :: k => trivial

theorem NodeDenotes.insert (hres : Resolves keccak256 Memo Stored db)
    (h : NodeDenotes keccak256 Memo Stored p n t) (ht : t.Proper) (path : Nibbles)
    (hk : path.data = terminated k) (hp : path.alreadyConsumed = p) (hf : k.length + 3 ≤ fuel)
    (v : Value) :
    ∃ m, n.insert keccak256 db fuel path (.value v.val) = .ok m ∧
      NodeDenotes keccak256 Memo Stored p m (t.insert k v) := by
  induction t generalizing p n path k fuel with
  | nil => cases h
  | leaf w u =>
    obtain ⟨fuel, rfl⟩ := Nat.exists_eq_add_of_lt (show 0 < fuel by omega)
    cases h with
    | leaf _ hq => simpa [Node.insert] using leaf_insert hq hk u v
  | ext w c ih =>
    obtain ⟨hw, hb, hc⟩ := ht
    cases h with
    | @extension _ q _ r _ hq hr =>
      have hcount := Nibbles.countPrefix_hex hk hq
      have hqlen : q.len = w.length := by simp [Nibbles.len, hq]
      obtain ⟨d, k, w, rfl, rfl, hlen, hkw⟩ := lcp_spec k w
      rw [hlen] at hcount
      by_cases hw' : w = []
      · -- the whole prefix matches
        subst hw'
        rw [append_nil] at hw hqlen hlen hq hr
        obtain ⟨fuel, rfl⟩ := Nat.exists_eq_add_of_lt (show 0 < fuel by omega)
        obtain ⟨m, memo, hm, hd, -⟩ := hr.getNodeMut hres hc.ne_nil
        have hdlen := length_pos_iff.2 hw
        rw [length_append] at hf
        obtain ⟨m', hm', hd'⟩ := ih hd hc ⟨terminated k, p ++ hex d⟩ rfl rfl
          (show k.length + 3 ≤ 0 + fuel by omega)
        refine ⟨.extension q (.node m' none), ?_, ?_⟩
        · simp only [Node.insert, ExtensionNode.insert, hcount, hqlen, if_true,
            Nibbles.offset_append hk, Nibbles.current, hp, hm, Result.ok_bind, hm',
            clearHash]
        · simp only [Tree.insert, hlen, append_nil, if_true, drop_left]
          exact .extension hq (.fresh hd')
      · have hlt : d.length ≠ (d ++ w).length := by simpa using hw'
        have htree : (Tree.ext (d ++ w) c).insert (d ++ k) v = (Tree.forkExt w c k v).prepend d := by
          simp only [Tree.insert, hlen, hlt, if_false, take_left, drop_left]
        rw [htree]
        obtain ⟨fuel, rfl⟩ := Nat.exists_eq_add_of_le' (show 3 ≤ fuel by omega)
        rw [hex_append, ← append_assoc] at hr
        by_cases hd : d = []
        · -- nothing matches
          subst hd
          simp only [nil_append, hex_nil, append_nil] at hq hr hk
          simpa using ext_insert_fork db path hq hw' hb hr hk hkw v (fuel + 1)
        · -- the prefix is cut where the path leaves it
          have hoff : (q.offset d.length).data = hex w := by
            rw [Nibbles.offset, hq, hex_append, ← length_hex d, drop_left]
          obtain ⟨m, hm, hd'⟩ := ext_insert_fork db ⟨terminated k, p ++ hex d⟩ hoff hw' hb hr
            rfl hkw v fuel
          have hslice := slice_zero_append (hq.trans (hex_append d w))
          have hcut := NodeDenotes.prepend (q := q.slice 0 d.length) (by rw [hslice]; rfl)
            (isBranch_forkExt hw' c k v) hd'
          rw [if_neg (by simpa using hd)] at hcut
          refine ⟨_, ?_, hcut⟩
          rw [Node.insert]
          simp only [ExtensionNode.insert, hcount, hqlen, hlt, if_false, length_eq_zero_iff,
            hd, Nibbles.offset_append hk, hp, hm, Result.ok_bind]
  | branch cs u ih =>
    obtain ⟨fuel, rfl⟩ := Nat.exists_eq_add_of_lt (show 0 < fuel by omega)
    cases h with
    | @branch _ rs _ _ hrs =>
      cases k with
      | nil =>
        refine ⟨_, ?_, .branch (some v) hrs⟩
        simp only [Node.insert, BranchNode.insert, Nibbles.nextChoice_nil hk, valueBytes]
      | cons a k =>
        simp only [Node.insert, BranchNode.insert, Nibbles.nextChoice_cons hk]
        by_cases hca : cs a = .nil
        · have hv : (rs a).isValid = false := by
            simpa [hca] using (hrs a).isValid_iff
          have hleaf : (cs a).insert k v = .leaf k v := by rw [hca]; rfl
          simp only [hv, Bool.false_eq_true, if_false, Tree.insert, hleaf]
          exact ⟨_, rfl, .branch u (refDenotes_update hrs (.fresh (.leaf v rfl)))⟩
        · obtain ⟨m, memo, hm, hd, -⟩ := (hrs a).getNodeMut hres hca
          obtain ⟨m', hm', hd'⟩ := ih a hd (ht.1 a hca)
            ⟨terminated k, p ++ [nibble a]⟩ rfl rfl
            (show k.length + 3 ≤ 0 + fuel by simp at hf; omega)
          refine ⟨_, ?_, .branch u (refDenotes_update hrs (.fresh hd'))⟩
          simp only [(hrs a).isValid_iff.2 hca, if_true, BranchNode.insertChild, Nibbles.current,
            hp, hm, Result.ok_bind, hm', clearHash]

/-- What is left of a node denotes the tree; nothing is left of the empty tree. -/
def LeftDenotes (keccak256 : Bytes → H256) (Memo Stored : List UInt8 → MTree → Prop)
    (p : List UInt8) (o : Option Node) (t : MTree) : Prop :=
  match o with
  | none => t = .nil
  | some n => NodeDenotes keccak256 Memo Stored p n t

variable {o : Option Node}

theorem LeftDenotes.removedChoice (h : LeftDenotes keccak256 Memo Stored p o t)
    (memo : Option NodeHash) :
    RefDenotes keccak256 Memo Stored p (BranchNode.removedChoice memo o).clearHash t := by
  cases o with
  | none =>
    obtain rfl : t = .nil := h
    exact .nil p
  | some n => exact .fresh h

theorem filter_eq_singleton (f : Fin 16 → Bool) (a : Fin 16) (h : ∀ i, f i = true ↔ i = a) :
    (List.finRange 16).filter f = [a] := by
  have hf : f = fun i => decide (i = a) :=
    funext fun i => Bool.eq_iff_iff.2 ((h i).trans decide_eq_true_iff.symm)
  rw [hf]
  clear h hf f
  revert a
  decide

theorem mem_children {i : Fin 16} : i ∈ BranchNode.children rs ↔ (rs i).isValid = true := by
  simp [BranchNode.children]

theorem restructure_single (hres : Resolves keccak256 Memo Stored db) {c : MTree}
    (hr : RefDenotes keccak256 Memo Stored (p ++ [nibble a]) (rs a) c) (hc : c ≠ .nil)
    (hchildren : BranchNode.children rs = [a]) (hp : path.alreadyConsumed = p) :
    ∃ m, BranchNode.restructure keccak256 db rs [] path = .ok m ∧
      NodeDenotes keccak256 Memo Stored p m (c.prepend [a]) := by
  obtain ⟨m, memo, hm, hd, hrm⟩ := hr.getNodeMut hres hc
  have hcur : path.current.appendNew (nibble a) = ⟨p ++ [nibble a], []⟩ := by
    simp [Nibbles.current, Nibbles.appendNew, hp]
  simp only [BranchNode.restructure, hchildren, isEmpty_nil, hcur, hm, Result.ok_bind]
  cases hd with
  | leaf v hq => exact ⟨_, rfl, .leaf v (by simp [Nibbles.prepend, hq])⟩
  | @extension _ q w _ _ hq hr' =>
    refine ⟨_, rfl, .extension (w := a :: w) (by simp [Nibbles.prepend, hq]) ?_⟩
    simpa using hr'
  | branch v hrs => exact ⟨_, rfl, .extension (w := [a]) rfl hrm⟩

/-- The second step of `BranchNode::remove` contracts the branch. -/
theorem restructure_denotes (hres : Resolves keccak256 Memo Stored db) {v : Option Value}
    (hrs : ∀ i, RefDenotes keccak256 Memo Stored (p ++ [nibble i]) (rs i) (cs i))
    (hne : ¬((∀ i, cs i = .nil) ∧ v = none)) (hp : path.alreadyConsumed = p) :
    ∃ m, BranchNode.restructure keccak256 db rs (valueBytes v) path = .ok m ∧
      NodeDenotes keccak256 Memo Stored p m (Tree.contract cs v) := by
  have hmem : ∀ i, i ∈ BranchNode.children rs ↔ cs i ≠ .nil := fun i =>
    mem_children.trans (hrs i).isValid_iff
  rcases Tree.entries_cases cs v with hn | ⟨hn, w, rfl⟩ | ⟨rfl, a, ha, hb⟩ | htwo
  · exact absurd hn hne
  · have hchildren : BranchNode.children rs = [] :=
      eq_nil_iff_forall_not_mem.2 fun i hi => (hmem i).1 hi (hn i)
    rw [Tree.contract_value hn]
    refine ⟨.leaf (Nibbles.fromHex [16]) w.val, ?_, .leaf w rfl⟩
    have hw : w.val.isEmpty = false := by simpa using w.property
    simp [BranchNode.restructure, hchildren, valueBytes, hw]
  · have hchildren : BranchNode.children rs = [a] := by
      refine filter_eq_singleton _ a fun i => (hrs i).isValid_iff.trans ?_
      refine ⟨fun hi => by_contra fun hia => hi (hb i hia), ?_⟩
      rintro rfl
      exact ha
    rw [Tree.contract_single ha hb]
    exact restructure_single hres (hrs a) ha hchildren hp
  · rw [Tree.contract_branch htwo]
    refine ⟨.branch rs (valueBytes v), ?_, .branch v hrs⟩
    rw [BranchNode.restructure]
    split
    · rename_i hchildren _
      have hn : ∀ i, cs i = .nil := fun i => by
        by_contra hi
        simpa [hchildren] using (hmem i).2 hi
      rcases htwo with ⟨a, _, _, ha, _⟩ | ⟨_, a, ha⟩
      · exact absurd (hn a) ha
      · exact absurd (hn a) ha
    · rename_i c hchildren hempty
      have hone : ∀ i, cs i ≠ .nil → i = c := fun i hi => by
        simpa [hchildren] using (hmem i).2 hi
      rcases htwo with ⟨a, b, hab, ha, hb⟩ | ⟨hv, _⟩
      · exact absurd ((hone a ha).trans (hone b hb).symm) hab
      · rw [valueBytes_isEmpty, Option.isNone_iff_eq_none] at hempty
        exact absurd hempty hv
    · rfl

theorem exists_entry_update {u : Option Value} (htwo : Tree.TwoEntries cs u) (a : Fin 16)
    (c : MTree) : ¬((∀ i, update cs a c i = .nil) ∧ u = none) := by
  rintro ⟨hn, hu⟩
  rcases htwo with ⟨b, d, hbd, hb, hd⟩ | ⟨hu', -⟩
  · by_cases hba : b = a
    · have hda : d ≠ a := fun he => hbd (hba.trans he.symm)
      exact hd (by simpa [hda] using hn d)
    · exact hb (by simpa [hba] using hn b)
  · exact hu' hu

theorem removeValue_denotes (hres : Resolves keccak256 Memo Stored db)
    {rec : Node → Nibbles → Result (Option Node × Option Bytes)} {u : Option Value}
    (hrs : ∀ i, RefDenotes keccak256 Memo Stored (p ++ [nibble i]) (rs i) (cs i))
    (htwo : Tree.TwoEntries cs u) (hk : path.data = terminated k) (hp : path.alreadyConsumed = p)
    (hrec : ∀ a k' m, cs a ≠ .nil → k = a :: k' →
      NodeDenotes keccak256 Memo Stored (p ++ [nibble a]) m (cs a) →
      ∃ o, rec m ⟨terminated k', p ++ [nibble a]⟩ =
          .ok (o, ((cs a).lookup k').map Subtype.val) ∧
        LeftDenotes keccak256 Memo Stored (p ++ [nibble a]) o ((cs a).remove k')) :
    ∃ rs' cs' u', BranchNode.removeValue keccak256 db rec rs (valueBytes u) path =
        .ok (rs', valueBytes u', ((Tree.branch cs u).lookup k).map Subtype.val) ∧
      (∀ i, RefDenotes keccak256 Memo Stored (p ++ [nibble i]) (rs' i) (cs' i)) ∧
      (Tree.branch cs u).remove k = Tree.contract cs' u' ∧
      ¬((∀ i, cs' i = .nil) ∧ u' = none) := by
  cases k with
  | nil =>
    refine ⟨rs, cs, none, ?_, hrs, by simp [Tree.remove], ?_⟩
    · rw [BranchNode.removeValue, Nibbles.nextChoice_nil hk]
      cases u with
      | none => simp [valueBytes]
      | some u => simp [valueBytes, u.property]
    · rintro ⟨hn, -⟩
      rcases htwo with ⟨a, _, _, ha, _⟩ | ⟨_, a, ha⟩
      · exact ha (hn a)
      · exact ha (hn a)
  | cons a k =>
    by_cases hca : cs a = .nil
    · have hv : (rs a).isValid = false := by
        simpa [hca] using (hrs a).isValid_iff
      have hself : (cs a).remove k = cs a := by rw [hca]; rfl
      refine ⟨rs, cs, u, ?_, hrs, ?_, ?_⟩
      · simp [BranchNode.removeValue, Nibbles.nextChoice_cons hk, hv, hca]
      · rw [Tree.remove, hself, update_eq_self]
      · have hne := exists_entry_update htwo a (cs a)
        rwa [update_eq_self] at hne
    · obtain ⟨m, memo, hm, hd, -⟩ := (hrs a).getNodeMut hres hca
      obtain ⟨o, ho, hleft⟩ := hrec a k m hca rfl hd
      refine ⟨_, _, u, ?_, refDenotes_update hrs (hleft.removedChoice memo), by simp [Tree.remove],
        exists_entry_update htwo a _⟩
      simp only [BranchNode.removeValue, Nibbles.nextChoice_cons hk, (hrs a).isValid_iff.2 hca,
        if_true, Nibbles.current, hp, hm, Result.ok_bind, ho, Tree.lookup_branch_cons]

theorem left_prepend (hq : q.data = hex w) (hw : w ≠ [])
    (h : LeftDenotes keccak256 Memo Stored (p ++ hex w) o t) :
    LeftDenotes keccak256 Memo Stored p
      (match o with
        | none => none
        | some (.branch choices value) =>
          some (.extension q (ofNode (.branch choices value)))
        | some (.extension childPrefix child) => some (.extension (q.extend childPrefix) child)
        | some (.leaf partialPath value) => some (.leaf (q.extend partialPath) value))
      (t.prepend w) := by
  cases o with
  | none =>
    obtain rfl : t = .nil := h
    rfl
  | some m =>
    cases h with
    | leaf v hq' =>
      exact .leaf v (by simp [Nibbles.extend, hq, hq', terminated])
    | extension hq' hr =>
      exact .extension (by simp [Nibbles.extend, hq, hq']) (by simpa using hr)
    | branch v hrs =>
      simp only [Tree.prepend, hw, if_false]
      exact .extension hq (.fresh (.branch v hrs))

theorem NodeDenotes.remove (hres : Resolves keccak256 Memo Stored db)
    (h : NodeDenotes keccak256 Memo Stored p n t) (ht : t.Proper) (path : Nibbles)
    (hk : path.data = terminated k) (hp : path.alreadyConsumed = p) (hf : k.length < fuel) :
    ∃ o, n.remove keccak256 db fuel path = .ok (o, (t.lookup k).map Subtype.val) ∧
      LeftDenotes keccak256 Memo Stored p o (t.remove k) := by
  induction t generalizing p n path k fuel with
  | nil => cases h
  | leaf w u =>
    obtain ⟨fuel, rfl⟩ := Nat.exists_eq_succ_of_ne_zero (Nat.ne_zero_of_lt hf)
    cases h with
    | @leaf _ q _ _ hq =>
      by_cases hkw : k = w
      · exact ⟨none, by simp [Node.remove, LeafNode.remove, hq, hk, hkw],
          by simp [LeftDenotes, Tree.remove, hkw]⟩
      · exact ⟨some (.leaf q u.val), by simp [Node.remove, LeafNode.remove, hq, hk, hkw, Ne.symm hkw],
          by simpa [LeftDenotes, Tree.remove, hkw] using .leaf u hq⟩
  | ext w c ih =>
    obtain ⟨fuel, rfl⟩ := Nat.exists_eq_succ_of_ne_zero (Nat.ne_zero_of_lt hf)
    obtain ⟨hw, hb, hc⟩ := ht
    cases h with
    | @extension _ q _ r _ hq hr =>
      by_cases hwk : w <+: k
      · obtain ⟨k, rfl⟩ := hwk
        obtain ⟨m, memo, hm, hd, -⟩ := hr.getNodeMut hres hc.ne_nil
        have hlen := length_pos_iff.2 hw
        rw [length_append] at hf
        obtain ⟨o, ho, hleft⟩ := ih hd hc ⟨terminated k, p ++ hex w⟩ rfl rfl
          (show k.length < fuel by omega)
        have hres := left_prepend hq hw hleft
        simp only [Node.remove, ExtensionNode.remove, Nibbles.skipPrefix_append hk hq,
          Nibbles.current, hp, hm, Result.ok_bind, ho, Tree.remove, prefix_append, if_true,
          drop_left, Tree.lookup_ext_append]
        refine ⟨_, ?_, hres⟩
        cases o with
        | none => rfl
        | some m => cases m <;> rfl
      · refine ⟨some (.extension q r), ?_, ?_⟩
        · simp [Node.remove, ExtensionNode.remove, Nibbles.skipPrefix_of_not_isPrefix hk hq hwk,
            Tree.lookup_ext, hwk]
        · simpa [LeftDenotes, Tree.remove, hwk] using .extension hq hr
  | branch cs u ih =>
    obtain ⟨fuel, rfl⟩ := Nat.exists_eq_succ_of_ne_zero (Nat.ne_zero_of_lt hf)
    cases h with
    | @branch _ rs _ _ hrs =>
      obtain ⟨rs', cs', u', hvalue, hrs', hremove, hne⟩ :=
        removeValue_denotes hres hrs ht.2 hk hp fun a k m hca hka hd =>
          ih a hd (ht.1 a hca) ⟨terminated k, p ++ [nibble a]⟩ rfl rfl (by
            rw [hka] at hf
            simpa using hf)
      obtain ⟨m, hm, hd⟩ := restructure_denotes hres hrs' hne hp
      exact ⟨some m, by simp [Node.remove, BranchNode.remove, hvalue, hm], by rwa [hremove]⟩

end

end Ethrex.Mpt
