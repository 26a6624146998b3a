import Ethrex.Mpt.Decode
import Ethrex.Rlp.Length

/-!
# Encodings tell trees apart

Two canonical trees over short words with the same encoding are equal, as long as the hash does not
collide on their nodes. Values may be longer than `Node::decode` accepts.
-/

namespace Ethrex.Mpt

open Patricia Rlp List

variable {data : Bytes}

theorem singleton_ne_header {b : UInt8} (hb : b.toNat < 0x80) :
    [b] ≠ encodeHeader rlpNull 0xb7 data.length ++ data := by
  intro h
  cases data with
  | nil =>
    have hb' : b = rlpNull := by simpa [encodeHeader] using h
    rw [hb', rlpNull] at hb
    exact absurd hb (by decide)
  | cons c data =>
    have hlen := congrArg List.length h
    have hpos := length_pos_iff.2 (encodeHeader_ne_nil rlpNull 0xb7 (c :: data).length)
    simp only [length_append, length_cons, length_nil] at hlen hpos
    omega

theorem encodeBytes_injective : Function.Injective encodeBytes := by
  intro a b h
  rcases encodeBytes_cases a with ⟨x, rfl, hx, ha⟩ | ⟨-, ha⟩
  · rcases encodeBytes_cases b with ⟨y, rfl, -, hb⟩ | ⟨-, hb⟩
    · rw [← ha, ← hb, h]
    · exact absurd (ha.symm.trans (h.trans hb)) (singleton_ne_header hx)
  · rcases encodeBytes_cases b with ⟨y, rfl, hy, hb⟩ | ⟨-, hb⟩
    · exact absurd (hb.symm.trans (h.symm.trans ha)) (singleton_ne_header hy)
    · exact header_append_inj rlpNull 0xb7 (ha.symm.trans (h.trans hb))

/-! ### Items in a row -/

def Unsplit (item : Bytes) : Prop :=
  item ≠ [] ∧ ∀ first rest, getItemWithPrefix item = .ok (first, rest) → rest = []

theorem IsItem.unsplit {item : Bytes} (h : IsItem item) : Unsplit item := by
  refine ⟨h.1, fun first rest hget => ?_⟩
  have hself := h.2 []
  rw [append_nil, hget] at hself
  cases hself
  rfl

theorem getItemWithPrefix_encodeBytes_of_gt (h : maxRlpBytes < data.length)
    (hlt : data.length < 256 ^ 8) :
    getItemWithPrefix (encodeBytes data) = .error .invalidLength := by
  have hmax := maxRlpBytes_eq
  rcases encodeBytes_head hlt with ⟨b, rfl, -, -⟩ | ⟨hs, -, -⟩ | ⟨hl, b, hb, hpos, hle, he⟩
  · simp only [length_cons, length_nil] at h
    omega
  · omega
  simp only [he, getItemWithPrefix, hb]
  rw [if_neg (by omega), if_neg (by omega), if_pos (by omega), Nat.add_sub_cancel_left,
    getItemWithPrefix.longItem, if_neg (by simp only [length_cons, length_append]; omega)]
  simp only [drop_succ_cons, drop_zero, take_left,
    leftPad_toBeBytes hlt, bind, Except.bind]
  rw [if_pos (.inl h)]

theorem unsplit_encodeBytes (hlt : data.length < 256 ^ 8) : Unsplit (encodeBytes data) := by
  rcases Nat.lt_or_ge maxRlpBytes data.length with h | h
  · refine ⟨encodeBytes_ne_nil data, fun first rest hget => ?_⟩
    rw [getItemWithPrefix_encodeBytes_of_gt h hlt] at hget
    cases hget
  · exact (isItem_encodeBytes h).unsplit

/-- Items in a row are determined by their concatenation; the last one on each side need only be
unsplittable. -/
theorem items_inj {xs ys : List Bytes} {x y : Bytes} (hxs : ∀ item ∈ xs, IsItem item)
    (hys : ∀ item ∈ ys, IsItem item) (hx : Unsplit x) (hy : Unsplit y)
    (h : (xs ++ [x]).flatten = (ys ++ [y]).flatten) : xs = ys ∧ x = y := by
  induction xs generalizing ys with
  | nil =>
    cases ys with
    | nil => exact ⟨rfl, by simpa using h⟩
    | cons item ys =>
      have hx' : x = item ++ (ys ++ [y]).flatten := by simpa using h
      have hrest := hx.2 item _ (by rw [hx']; exact (hys item (by simp)).2 _)
      exact absurd hrest (by simp [hy.1])
  | cons item xs ih =>
    cases ys with
    | nil =>
      have hy' : item ++ (xs ++ [x]).flatten = y := by simpa using h
      have hrest := hy.2 item _ (by rw [← hy']; exact (hxs item (by simp)).2 _)
      exact absurd hrest (by simp [hx.1])
    | cons item' ys =>
      have hcons : item ++ (xs ++ [x]).flatten = item' ++ (ys ++ [y]).flatten := by simpa using h
      have hget := (hxs item (by simp)).2 (xs ++ [x]).flatten
      rw [hcons, (hys item' (by simp)).2] at hget
      obtain ⟨rfl, hrest⟩ : item' = item ∧ (ys ++ [y]).flatten = (xs ++ [x]).flatten := by
        simpa using hget
      obtain ⟨rfl, rfl⟩ := ih (fun i hi => hxs i (by simp [hi])) (fun i hi => hys i (by simp [hi]))
        hrest.symm
      exact ⟨rfl, rfl⟩

section

variable {keccak256 : Bytes → H256} {s t : MTree}

/-- No word of the tree is longer than the nibbles of two keys. -/
def Short (t : MTree) : Prop := ∀ w, t.lookup w ≠ none → w.length ≤ 128

theorem Short.subtree {q : Word} (h : Short t) (hs : Subtree t q s) : Short s := by
  intro w hw
  have hlen := h (q ++ w) (by rwa [hs.lookup_append])
  rw [length_append] at hlen
  omega

variable {w : Word} {S : Set Bytes}

theorem Short.leaf {v : Value} (h : Short (.leaf w v)) : w.length ≤ 128 :=
  h w (by simp)

theorem Short.ext {c : MTree} (h : Short (.ext w c)) (hc : c.Proper) : w.length ≤ 128 := by
  obtain ⟨k, hk⟩ := hc.exists_lookup
  have hlen := h (w ++ k) (by simpa using hk)
  rw [length_append] at hlen
  omega

theorem isItem_compactOf (leaf : Bool) (h : w.length ≤ 128) :
    IsItem (encodeBytes (compactOf leaf w)) := by
  have hmax := maxRlpBytes_eq
  exact isItem_encodeBytes (by rw [length_compactOf]; omega)

theorem exists_items (ht : t.Proper) (hshort : Short t)
    (hlen : (itemsOf keccak256 t).flatten.length < 256 ^ 8) :
    ∃ xs x, itemsOf keccak256 t = xs ++ [x] ∧ (∀ item ∈ xs, IsItem item) ∧ Unsplit x := by
  have hstring : ∀ data, encodeBytes data ∈ itemsOf keccak256 t → Unsplit (encodeBytes data) :=
    fun data hmem => unsplit_encodeBytes (lt_of_le_of_lt
      ((length_le_length_encodeBytes data).trans (length_le_of_mem_flatten hmem)) hlen)
  cases t with
  | nil => exact absurd ht id
  | leaf w v =>
    refine ⟨[encodeBytes (compactOf true w)], _, rfl, ?_, hstring _ (by simp [itemsOf])⟩
    simpa using isItem_compactOf true hshort.leaf
  | ext w c =>
    refine ⟨[encodeBytes (compactOf false w)], _, rfl, ?_, ?_⟩
    · simpa using isItem_compactOf false (hshort.ext ht.2.2)
    · rw [(isRef_hashOf ht.2.2.ne_nil).encode_eq]
      exact (NodeHash.isItem_encodeChoice (default_or_isRef _ c)).unsplit
  | branch cs v =>
    refine ⟨_, _, rfl, ?_, hstring _ (by simp [itemsOf])⟩
    intro item hitem
    obtain ⟨i, -, rfl⟩ := mem_map.1 hitem
    exact NodeHash.isItem_encodeChoice (default_or_isRef _ (cs i))

theorem itemsOf_eq_of_encodeOf_eq (hs : s.Proper) (ht : t.Proper) (hss : Short s) (hst : Short t)
    (hlen : (itemsOf keccak256 s).flatten.length < 256 ^ 8)
    (h : encodeOf keccak256 s = encodeOf keccak256 t) :
    itemsOf keccak256 s = itemsOf keccak256 t := by
  rw [encodeOf_eq hs.ne_nil, encodeOf_eq ht.ne_nil] at h
  have hflat := encodeList_injective h
  obtain ⟨xs, x, hx, hxs, hxu⟩ := exists_items hs hss hlen
  obtain ⟨ys, y, hy, hys, hyu⟩ := exists_items ht hst (hflat ▸ hlen)
  rw [hx, hy] at hflat
  obtain ⟨rfl, rfl⟩ := items_inj hxs hys hxu hyu hflat
  rw [hx, hy]

theorem hashOf_eq_of_encodeChoice_eq
    (h : (hashOf keccak256 s).encodeChoice = (hashOf keccak256 t).encodeChoice) :
    hashOf keccak256 s = hashOf keccak256 t := by
  have hs := NodeHash.decodeChild_encodeChoice (default_or_isRef keccak256 s)
  rw [h, NodeHash.decodeChild_encodeChoice (default_or_isRef keccak256 t)] at hs
  exact (Except.ok.inj hs).symm

theorem encodeOf_eq_of_hashOf_eq (hinj : Set.InjOn keccak256 S) (hs : encodeOf keccak256 s ∈ S)
    (ht : encodeOf keccak256 t ∈ S) (hsn : s ≠ .nil) (htn : t ≠ .nil)
    (h : hashOf keccak256 s = hashOf keccak256 t) :
    encodeOf keccak256 s = encodeOf keccak256 t := by
  rw [hashOf_eq keccak256 hsn, hashOf_eq keccak256 htn, NodeHash.fromEncoded,
    NodeHash.fromEncoded] at h
  split at h
  · split at h
    · simpa using h
    · cases h
  · split at h
    · cases h
    · exact hinj hs ht (by simpa using h)

theorem eq_nil_of_hashOf_eq (h : hashOf keccak256 s = hashOf keccak256 t) :
    s = .nil ↔ t = .nil := by
  have hs := isValid_hashOf keccak256 s
  rw [h, isValid_hashOf] at hs
  exact (not_iff_not.1 hs).symm

theorem compactOf_inj {leaf leaf' : Bool} {w' : Word} (h : compactOf leaf w = compactOf leaf' w') :
    leaf = leaf' ∧ w = w' := by
  have hhex := congrArg Nibbles.compactToHex h
  rw [compactToHex_compactOf, compactToHex_compactOf] at hhex
  cases leaf with
  | false =>
    cases leaf' with
    | false => exact ⟨rfl, by simpa using hhex⟩
    | true => exact absurd (by simpa [terminated] using hhex) (hex_ne_terminated w w')
  | true =>
    cases leaf' with
    | false => exact absurd (by simpa [terminated] using hhex.symm) (hex_ne_terminated w' w)
    | true => exact ⟨rfl, by simpa using hhex⟩

/-- A value is no longer than a `Vec` can be. -/
def Addressable (v : Value) : Prop := v.val.length < 2 ^ 63

theorem length_items_lt (hs : s.Proper) (hshort : Short s)
    (hv : ∀ w v, s.lookup w = some v → Addressable v) :
    (itemsOf keccak256 s).flatten.length < 256 ^ 8 := by
  have hbytes : ∀ v : Value, Addressable v → (encodeBytes v.val).length ≤ v.val.length + 9 :=
    fun v hv => length_encodeBytes_le (k := 8) v.val (by rw [Addressable] at hv; omega)
  cases s with
  | nil => exact absurd hs id
  | leaf w v =>
    have hpath := length_encodeBytes_le (k := 1) (compactOf true w)
      (by rw [length_compactOf]; have := hshort.leaf; omega)
    have hlen := hshort.leaf
    have hadd := hv w v (by simp)
    have hvalue := hbytes v hadd
    rw [Addressable] at hadd
    rw [length_compactOf] at hpath
    simp only [itemsOf, flatten_cons, flatten_nil, append_nil, length_append]
    omega
  | ext w c =>
    have hfit := @fits_ext keccak256 _ _ (hshort.ext hs.2.2) hs.2.2.ne_nil
    exact lt_of_le_maxRlpBytes hfit
  | branch cs v =>
    have hfit := @fits_branch keccak256 cs
    have hmax := maxRlpBytes_eq
    have hadd : (encodeBytes (valueBytes v)).length ≤ 2 ^ 63 + 9 := by
      cases v with
      | none => simp [valueBytes, encodeBytes_nil]
      | some v =>
        have hadd := hv [] v (by simp)
        have := hbytes v hadd
        rw [Addressable] at hadd
        rw [valueBytes]
        omega
    simp only [Fits, itemsOf, flatten_append, length_append, flatten_cons,
      flatten_nil, append_nil] at hfit ⊢
    omega

/-- Trees with the same encoding are equal unless the hash collides on the encodings of their
nodes. -/
theorem encodeOf_inj (hs : s.Proper) (ht : t.Proper) (hss : Short s) (hst : Short t)
    (hv : ∀ w v, s.lookup w = some v → Addressable v) (hinj : Set.InjOn keccak256 S)
    (hsS : ∀ q u, Subtree s q u → encodeOf keccak256 u ∈ S)
    (htS : ∀ q u, Subtree t q u → encodeOf keccak256 u ∈ S)
    (h : encodeOf keccak256 s = encodeOf keccak256 t) : s = t := by
  -- only the encodings themselves change along the induction, the collision-free set stays
  induction s generalizing t with
  | nil => exact absurd hs id
  | leaf w v =>
    have heq := itemsOf_eq_of_encodeOf_eq hs ht hss hst (length_items_lt hs hss hv) h
    cases t with
    | nil => exact absurd ht id
    | leaf w' v' =>
      simp only [itemsOf, List.cons.injEq, and_true] at heq
      obtain ⟨-, rfl⟩ := compactOf_inj (encodeBytes_injective heq.1)
      rw [Subtype.ext (encodeBytes_injective heq.2)]
    | ext w' c' =>
      simp only [itemsOf, List.cons.injEq, and_true] at heq
      exact absurd (compactOf_inj (encodeBytes_injective heq.1)).1 (by simp)
    | branch cs' v' => exact absurd (congrArg List.length heq) (by simp [itemsOf])
  | ext w c ih =>
    have heq := itemsOf_eq_of_encodeOf_eq hs ht hss hst (length_items_lt hs hss hv) h
    cases t with
    | nil => exact absurd ht id
    | leaf w' v' =>
      simp only [itemsOf, List.cons.injEq, and_true] at heq
      exact absurd (compactOf_inj (encodeBytes_injective heq.1)).1 (by simp)
    | ext w' c' =>
      obtain ⟨-, -, hc⟩ := hs
      obtain ⟨-, -, hc'⟩ := ht
      simp only [itemsOf, List.cons.injEq, and_true, (isRef_hashOf hc.ne_nil).encode_eq,
        (isRef_hashOf hc'.ne_nil).encode_eq] at heq
      obtain ⟨-, rfl⟩ := compactOf_inj (encodeBytes_injective heq.1)
      have hsub : Subtree (.ext w c) (w ++ []) c := .ext (.self hc.ne_nil)
      have hsub' : Subtree (.ext w c') (w ++ []) c' := .ext (.self hc'.ne_nil)
      have henc := encodeOf_eq_of_hashOf_eq hinj (hsS _ _ hsub) (htS _ _ hsub') hc.ne_nil
        hc'.ne_nil (hashOf_eq_of_encodeChoice_eq heq.2)
      have hvc : ∀ k v, c.lookup k = some v → Addressable v := fun k v hk =>
        hv (w ++ k) v (by simpa using hk)
      rw [ih hc hc' (hss.subtree hsub) (hst.subtree hsub') hvc
        (fun q u hu => hsS _ u (hsub.trans hu)) (fun q u hu => htS _ u (hsub'.trans hu)) henc]
    | branch cs' v' => exact absurd (congrArg List.length heq) (by simp [itemsOf])
  | branch cs v ih =>
    have heq := itemsOf_eq_of_encodeOf_eq hs ht hss hst (length_items_lt hs hss hv) h
    cases t with
    | nil => exact absurd ht id
    | leaf w' v' => exact absurd (congrArg List.length heq) (by simp [itemsOf])
    | ext w' c' => exact absurd (congrArg List.length heq) (by simp [itemsOf])
    | branch cs' v' =>
      simp only [itemsOf] at heq
      obtain ⟨hchoices, hvalue⟩ := append_inj heq (by simp)
      have hval : v = v' := by
        have hbytes := encodeBytes_injective (List.cons.inj hvalue).1
        cases v with
        | none =>
          cases v' with
          | none => rfl
          | some v' => exact absurd hbytes.symm v'.property
        | some v =>
          cases v' with
          | none => exact absurd hbytes v.property
          | some v' => rw [Subtype.ext hbytes]
      have hchild : ∀ i, cs i = cs' i := by
        intro i
        have hhash := @hashOf_eq_of_encodeChoice_eq keccak256 _ _
          (map_inj_left.1 hchoices i (by simp))
        by_cases hi : cs i = .nil
        · rw [hi, (eq_nil_of_hashOf_eq hhash).1 hi]
        have hi' : cs' i ≠ .nil := fun he => hi ((eq_nil_of_hashOf_eq hhash).2 he)
        have hsub : Subtree (.branch cs v) [i] (cs i) := .branch (.self hi)
        have hsub' : Subtree (.branch cs' v') [i] (cs' i) := .branch (.self hi')
        have henc := encodeOf_eq_of_hashOf_eq hinj (hsS _ _ hsub) (htS _ _ hsub') hi hi' hhash
        have hvc : ∀ k v, (cs i).lookup k = some v → Addressable v := fun k v hk =>
          hv (i :: k) v (by simpa using hk)
        exact ih i (hs.1 i hi) (ht.1 i hi') (hss.subtree hsub) (hst.subtree hsub') hvc
          (fun q u hu => hsS _ u (hsub.trans hu)) (fun q u hu => htS _ u (hsub'.trans hu)) henc
      rw [hval, funext hchild]

end

end Ethrex.Mpt
