import Ethrex.Mpt.Decode
import Ethrex.Mpt.Simulation
import Ethrex.Patricia.Graft

/-!
# Inserting hashes

`Node::insert` of a hash over the null database, as grafting of the tree with that hash.
-/

namespace Ethrex.Mpt

open Patricia Rlp List

/-! ### Paths with or without terminator -/

/-- What follows the nibbles of a path: nothing or the terminator. -/
abbrev IsEnd (e : List UInt8) : Prop := e = [] ∨ e = [16]

namespace Nibbles

variable {path q : Nibbles} {k w c : Word} {e : List UInt8}

theorem IsEnd.le_head (he : IsEnd e) : ∀ x ∈ e.head?, 16 ≤ x.toNat := by
  rcases he with rfl | rfl <;> simp

theorem nextChoice_hex {a : Fin 16} (h : path.data = hex (a :: k) ++ e) :
    path.nextChoice = (some a, ⟨hex k ++ e, path.alreadyConsumed ++ [nibble a]⟩) := by
  rw [hex_cons, cons_append] at h
  simp [nextChoice, next, h]

theorem nextChoice_end (he : IsEnd e) (h : path.data = e) :
    ∃ rest, path.nextChoice = (none, rest) := by
  rcases he with rfl | rfl
  · simp [nextChoice, next, h]
  · simp [nextChoice, next, h]

theorem offset_hex (h : path.data = hex (c ++ k) ++ e) :
    path.offset c.length = ⟨hex k ++ e, path.alreadyConsumed ++ hex c⟩ := by
  have hlen : c.length = (hex c).length := (length_hex c).symm
  rw [hex_append, append_assoc] at h
  simp only [offset, h, hlen, take_left, drop_left]

theorem at?_hex (h : path.data = hex (c ++ k) ++ e) :
    path.at? c.length = (hex k ++ e).head?.map UInt8.toNat := by
  rw [at?, h, hex_append, append_assoc, ← length_hex c,
    getElem?_append_right le_rfl, Nat.sub_self, head?_eq_getElem?]

theorem countPrefix_leaf (he : IsEnd e) (hk : path.data = hex k ++ e) (hq : q.data = terminated w)
    (hne : q.data ≠ path.data) : path.countPrefix q = lcp k w := by
  rcases he with rfl | rfl
  · rw [countPrefix, hk, hq, append_nil]
    clear hk hq hne
    induction k generalizing w with
    | nil => cases w <;> rfl
    | cons a k ih =>
      cases w with
      | nil => simp [countCommonPrefix, lcp]
      | cons b w => by_cases hab : a = b <;> simp [countCommonPrefix, lcp, hab, ih]
  · have hkw : k ≠ w := by
      rintro rfl
      exact hne (by rw [hq, hk, terminated])
    exact countPrefix_terminated hk hq hkw

end Nibbles

section

variable {keccak256 : Bytes → H256} {Memo Stored : List UInt8 → MTree → Prop}
  {p : List UInt8} {n : Node} {r : NodeRef} {t c : MTree} {k : Word} {e : List UInt8}

/-- The trees of stored references are proper and the references below them count as stored. -/
def Opens (Stored : List UInt8 → MTree → Prop) : Prop :=
  ∀ p t, Stored p t → t.Proper ∧ ∀ q s, Subtree t q s → q ≠ [] → Stored (p ++ hex q) s

theorem RefDenotes.getNodeMut_null (hr : RefDenotes keccak256 Memo Stored p r t) (ht : t ≠ .nil)
    (hS : Opens Stored) {db : NullTrieDB} {path : Nibbles} {memo : Option NodeHash}
    (hn : r.getNodeMut db path = .ok (some (n,
      memo))) : NodeDenotes keccak256 Memo Stored p n t := by
  cases hr with
  | nil => exact absurd rfl ht
  | fresh hd => cases hn; exact hd
  | memo hd _ _ => cases hn; exact hd
  | stored _ hh hs =>
    obtain ⟨hproper, hbelow⟩ := hS _ _ hs
    rw [hashOf_eq keccak256 ht, NodeHash.fromEncoded] at hh
    split at hh
    · rename_i hlen
      have hfit : Fits keccak256 t := by
        have hmax := maxRlpBytes_eq
        rw [encodeOf_eq ht, encodeList, length_append] at hlen
        rw [Fits]
        omega
      rw [hh, NodeRef.getNodeMut, decode_encodeOf hproper hfit] at hn
      cases hn
      exact shallowNode_denotes hproper hbelow
    · rw [hh] at hn
      cases hn

theorem RefDenotes.ofHash (hc : c ≠ .nil) (hs : Stored p c) :
    RefDenotes keccak256 Memo Stored p (.hash (hashOf keccak256 c)) c :=
  .stored hc rfl hs

variable {q : Nibbles} {w : Word} {m : Node}

theorem leaf_splitBranch_hash {path : Nibbles} {d : Word} (he : IsEnd e)
    (hq : q.data = terminated (d ++ w)) (hk : path.data = hex (d ++ k) ++ e)
    (hne : q.data ≠ path.data) (hc : c ≠ .nil) (u : Value)
    (hnew : ∀ l, Stored l c)
    (hm : LeafNode.splitBranch q u.val path (.hash (hashOf keccak256 c)) d.length = .ok m) :
    ∃ s, Tree.graftLeaf w u k c = some s ∧ s.IsBranch ∧ NodeDenotes keccak256 Memo Stored p m s := by
  rw [LeafNode.splitBranch, at?_append hq, Nibbles.at?_hex hk] at hm
  cases w with
  | nil =>
    cases k with
    | nil =>
      rcases he with rfl | rfl
      · cases hm
      · exact absurd (by rw [hq, hk, terminated]) hne
    | cons b k =>
      simp [setChoice_val, LeafNode.newChoice] at hm
      subst hm
      exact ⟨_, rfl, trivial, .branch (some u) (refDenotes_update (refDenotes_emptyChoices p)
        (.ofHash hc (hnew _)))⟩
  | cons a w =>
    have ha : a.val ≠ 16 := a.isLt.ne
    cases k with
    | nil =>
      rcases he with rfl | rfl
      · cases hm
      · simp [setChoice_val, ha] at hm
    | cons b k =>
      have hb : b.val ≠ 16 := b.isLt.ne
      simp [setChoice_val, LeafNode.newChoice, NodeRef.ofNode, ha, hb] at hm
      subst hm
      exact ⟨_, rfl, trivial, .branch none (refDenotes_update (refDenotes_update
        (refDenotes_emptyChoices p) (.ofHash hc (hnew _)))
        (.fresh (.leaf u (offset_succ_data hq))))⟩

theorem leaf_insert_hash {path : Nibbles} (he : IsEnd e) (hq : q.data = terminated w)
    (hk : path.data = hex k ++ e) (hc : c ≠ .nil) (u : Value)
    (hnew : ∀ l, Stored l c)
    (hm : LeafNode.insert q u.val path (.hash (hashOf keccak256 c)) = .ok m) :
    ∃ s, (Tree.leaf w u).graft k c = some s ∧ NodeDenotes keccak256 Memo Stored p m s := by
  by_cases hdata : q.data = path.data
  · rw [LeafNode.insert, if_pos hdata] at hm
    cases hm
  have hlcp := Nibbles.countPrefix_leaf he hk hq hdata
  obtain ⟨d, k, w, rfl, rfl, hlen, hhead⟩ := lcp_spec k w
  have hslice : path.slice 0 d.length = Nibbles.fromHex (hex d) :=
    slice_zero_append (by rw [hk, hex_append, append_assoc])
  simp only [LeafNode.insert, if_neg hdata, hlcp, hlen] at hm
  obtain ⟨n, hn, hm⟩ := bind_eq_ok.1 hm
  obtain ⟨s, hs, hbr, hd⟩ : ∃ s, _ ∧ _ ∧ NodeDenotes keccak256 Memo Stored (p ++ hex d) n s :=
    leaf_splitBranch_hash he hq hk hdata hc u hnew hn
  refine ⟨s.prepend d, by simp [Tree.graft, hlen, hs], ?_⟩
  have := NodeDenotes.prepend (q := path.slice 0 d.length) (by rw [hslice]; rfl) hbr hd
  split at hm <;> cases hm <;> simpa [*] using this

theorem ext_insert_hash_fork {db : NullTrieDB} {path : Nibbles} {d : MTree} (he : IsEnd e)
    (hq : q.data = hex w) (hw : w ≠ []) (hb : d.IsBranch) (hc : c ≠ .nil)
    (hr : RefDenotes keccak256 Memo Stored (p ++ hex w) r d) (hk : path.data = hex k ++ e)
    (hkw : ∀ a, k.head? = some a → w.head? ≠ some a)
    (hnew : ∀ l, Stored l c) {fuel : Nat}
    (hm : (Node.extension q r).insert keccak256 db fuel path (.hash (hashOf keccak256 c)) = .ok m) :
    ∃ s, Tree.graftExt w d k c = some s ∧ s.IsBranch ∧ NodeDenotes keccak256 Memo Stored p m s := by
  cases w with
  | nil => exact absurd rfl hw
  | cons a w =>
    have hrest := ext_rest hq hb hr
    have hcount : path.countPrefix q = 0 := by
      rw [Nibbles.countPrefix, hk, hq, Nibbles.countCommonPrefix_hex _ _ _ (Nibbles.IsEnd.le_head he)]
      cases k with
      | nil => rfl
      | cons b k =>
        have hba : b ≠ a := fun he => hkw b rfl (by simp [he])
        simp [lcp, hba]
    have ha : a.val ≠ 16 := a.isLt.ne
    have hsplit : ExtensionNode.splitBranch keccak256 db q r path =
        .ok (.branch (Function.update emptyChoices a
          (if q.len = 1 then r else NodeRef.ofNode (.extension (q.offset 1) r))) []) := by
      simp [ExtensionNode.splitBranch, Nibbles.at?, hq, ha, setChoice_val]
    have hlen : q.len ≠ 0 := by simp [Nibbles.len, hq]
    obtain _ | fuel := fuel
    · cases hm
    simp only [Node.insert, ExtensionNode.insert, hcount, Ne.symm hlen, if_false, if_true, hsplit,
      Result.ok_bind] at hm
    obtain _ | fuel := fuel
    · cases hm
    rw [Node.insert] at hm
    cases k with
    | nil =>
      obtain ⟨rest, hnone⟩ := Nibbles.nextChoice_end he hk
      simp only [BranchNode.insert, hnone, reduceCtorEq] at hm
    | cons b k =>
      have hba : b ≠ a := fun he => hkw b rfl (by simp [he])
      simp [BranchNode.insert, Nibbles.nextChoice_hex hk, hba, emptyChoices, NodeRef.default,
        NodeRef.isValid, NodeHash.isValid, NodeHash.default] at hm
      subst hm
      exact ⟨_, rfl, trivial, .branch none (refDenotes_update
        (refDenotes_update (refDenotes_emptyChoices p) hrest) (.ofHash hc (hnew _)))⟩

theorem NodeDenotes.insert_hash {db : NullTrieDB} (h : NodeDenotes keccak256 Memo Stored p n t)
    (ht : t.Proper) {path : Nibbles} (he : IsEnd e) (hk : path.data = hex k ++ e)
    (hS : Opens Stored) (hc : c ≠ .nil)
    (hnew : ∀ l,
      Stored l c) {fuel : Nat} (hm : n.insert keccak256 db fuel path (.hash (hashOf keccak256 c)) = .ok m) :
    ∃ s, t.graft k c = some s ∧ NodeDenotes keccak256 Memo Stored p m s := by
  induction t generalizing p n path k fuel m with
  | nil => cases h
  | leaf w u =>
    cases fuel with
    | zero => cases hm
    | succ fuel =>
      cases h with
      | leaf _ hq => exact leaf_insert_hash he hq hk hc u hnew hm
  | ext w d ih =>
    obtain ⟨hw, hb, hd⟩ := ht
    cases fuel with
    | zero => cases hm
    | succ fuel =>
      cases h with
      | @extension _ q _ r _ hq hr =>
        have hqlen : q.len = w.length := by simp [Nibbles.len, hq]
        have hcount : path.countPrefix q = lcp k w := by
          rw [Nibbles.countPrefix, hk, hq,
            Nibbles.countCommonPrefix_hex _ _ _ (Nibbles.IsEnd.le_head he)]
        obtain ⟨l, k, w, rfl, rfl, hlen, hkw⟩ := lcp_spec k w
        rw [hlen] at hcount
        by_cases hw' : w = []
        · -- the whole prefix matches
          subst hw'
          rw [append_nil] at hw hqlen hlen hq hr
          simp only [Node.insert, ExtensionNode.insert, hcount, hqlen, if_true,
            Nibbles.offset_hex hk] at hm
          obtain ⟨found, hfound, hm⟩ := bind_eq_ok.1 hm
          obtain _ | ⟨child, memo⟩ := found
          · cases hm
          obtain ⟨m', hm', hm⟩ := bind_eq_ok.1 hm
          cases hm
          obtain ⟨s, hs, hden'⟩ := ih (hr.getNodeMut_null hd.ne_nil hS hfound) hd rfl hm'
          exact ⟨.ext l s, by simp [Tree.graft, hlen, hs], .extension hq (.fresh hden')⟩
        have hlt : l.length ≠ (l ++ w).length := by simpa using hw'
        have hgraft : (Tree.ext (l ++ w) d).graft (l ++ k) c =
            (Tree.graftExt w d k c).map (Tree.prepend l) := by
          simp only [Tree.graft, hlen, hlt, if_false, take_left, drop_left]
        rw [hex_append, ← append_assoc] at hr
        rw [hgraft]
        by_cases hl : l = []
        · -- nothing matches
          subst hl
          simp only [nil_append, hex_nil, append_nil] at hq hr hk
          obtain ⟨s, hs, -, hden⟩ := ext_insert_hash_fork he hq hw' hb hc hr hk hkw hnew hm
          exact ⟨s, by simp [hs], hden⟩
        -- the prefix is cut where the path leaves it
        have hoff : (q.offset l.length).data = hex w := by
          rw [Nibbles.offset, hq, hex_append, ← length_hex l, drop_left]
        have hslice := slice_zero_append (hq.trans (hex_append l w))
        simp only [Node.insert, ExtensionNode.insert, hcount, hqlen, hlt, if_false,
          length_eq_zero_iff, hl, Nibbles.offset_hex hk] at hm
        obtain ⟨m', hm', hm⟩ := bind_eq_ok.1 hm
        cases hm
        obtain ⟨s, hs, hbr, hden⟩ := ext_insert_hash_fork he hoff hw' hb hc hr rfl hkw hnew hm'
        have hcut := NodeDenotes.prepend (q := q.slice 0 l.length) (by rw [hslice]; rfl) hbr hden
        rw [if_neg (by simpa using hl)] at hcut
        exact ⟨_, by rw [hs]; rfl, hcut⟩
  | branch cs v ih =>
    cases fuel with
    | zero => cases hm
    | succ fuel =>
      cases h with
      | @branch _ rs _ _ hrs =>
        cases k with
        | nil =>
          obtain ⟨rest, hnone⟩ := Nibbles.nextChoice_end he hk
          simp only [Node.insert, BranchNode.insert, hnone, reduceCtorEq] at hm
        | cons a k =>
          simp only [Node.insert, BranchNode.insert, Nibbles.nextChoice_hex hk] at hm
          by_cases hca : cs a = .nil
          · have hv : (rs a).isValid = false := by simpa [hca] using (hrs a).isValid_iff
            simp [hv] at hm
            subst hm
            exact ⟨.branch (Function.update cs a c) v, by simp [Tree.graft, hca],
              .branch v (refDenotes_update hrs (.ofHash hc (hnew _)))⟩
          simp only [(hrs a).isValid_iff.2 hca, Bool.not_true, Bool.false_eq_true, if_false] at hm
          split at hm
          · cases hm
          obtain ⟨found, hfound, hm⟩ := bind_eq_ok.1 hm
          obtain _ | ⟨child, memo⟩ := found
          · cases hm
          obtain ⟨m', hm', hm⟩ := bind_eq_ok.1 hm
          cases hm
          obtain ⟨s, hs, hden'⟩ :=
            ih a ((hrs a).getNodeMut_null hca hS hfound) (ht.1 a hca) rfl hm'
          exact ⟨.branch (Function.update cs a s) v, by rw [Tree.graft, hs]; rfl,
            .branch v (refDenotes_update hrs (.fresh hden'))⟩

end

end Ethrex.Mpt
