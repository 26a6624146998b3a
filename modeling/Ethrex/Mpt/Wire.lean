import Ethrex.Mpt.Decode
import Ethrex.Rlp.Canonical

/-!
# Nodes on the wire

The wire form of a node has no tags. The encoder is undone by the decoder up to the decoder's limit,
and the decoder panics on items that only a malformed node has in the place of a child.
-/

namespace Ethrex.Mpt

open Rlp List

/-! ### The encoders of a branch -/

/-- `<NodeHash as RLPEncode>::length`. -/
def NodeHash.length : NodeHash → Nat
  | .hashed _ => 33
  | .inline data => if data.val.isEmpty then 1 else data.val.length

namespace BranchNode

variable (keccak256 : Bytes → H256) (choices : Fin 16 → NodeRef) (value : Bytes)

def hashes : List NodeHash := (List.finRange 16).map fun i => (choices i).computeHash keccak256

/-- The bytes the three encoders write after they have computed the length of the payload. -/
def write (payloadLen : Nat) : Bytes :=
  encodeLength payloadLen ++ (hashes keccak256 choices).flatMap NodeHash.encodeChoice
    ++ encodeBytes value

/-- `<BranchNode as RLPEncode>::encode`. -/
def encode : Bytes :=
  write keccak256 choices value
    ((hashes keccak256 choices).foldl (fun acc hash => acc + hash.length) (sliceLength value))

/-- `<BranchNode as RLPEncode>::encode_to_vec`. -/
def encodeToVec : Bytes :=
  let valueLen := sliceLength value
  let choicesLen := (hashes keccak256 choices).foldl (fun acc hash => acc + hash.length) 0
  write keccak256 choices value (choicesLen + valueLen)

/-- `BranchNode::encode_into_vec`, on an empty buffer. -/
def encodeIntoVec : Bytes :=
  write keccak256 choices value
    ((hashes keccak256 choices).foldl (fun acc hash => acc + hash.length) (sliceLength value))

end BranchNode

theorem NodeHash.length_eq (hash : NodeHash) : hash.length = hash.encodeChoice.length := by
  cases hash with
  | hashed d => exact (length_encodeH256 d).symm
  | inline data =>
    rw [NodeHash.length, NodeHash.encodeChoice]
    split <;> rfl

theorem foldl_length (hashes : List NodeHash) (start : Nat) :
    hashes.foldl (fun acc hash => acc + hash.length) start =
      (hashes.flatMap NodeHash.encodeChoice).length + start := by
  induction hashes generalizing start with
  | nil => simp
  | cons hash hashes ih =>
    rw [foldl_cons, ih, flatMap_cons, length_append, hash.length_eq]
    omega

theorem BranchNode.encode_eq (keccak256 : Bytes → H256) (choices : Fin 16 → NodeRef)
    (value : Bytes) :
    BranchNode.encode keccak256 choices value = (Node.branch choices value).encode keccak256 := by
  simp only [BranchNode.encode, write, foldl_length, sliceLength_eq, Node.encode, encodeList, hashes,
    length_append, flatMap_map, append_assoc]

/-- A node whose items fit is decoded to itself with its children by their hashes, and a larger one is
refused; the three encoders of a branch write the same bytes. -/
theorem Node.codec_exact (keccak256 : Bytes → H256) :
    (∀ n : Node, n.WellFormed keccak256 →
      ((n.items keccak256).flatten.length ≤ maxRlpBytes →
        Node.decode (n.encode keccak256) = .ok (n.hashOnly keccak256)) ∧
      (maxRlpBytes < (n.items keccak256).flatten.length →
        (n.items keccak256).flatten.length < 2 ^ 64 →
        Node.decode (n.encode keccak256) = .error (.error (.rlpDecode .invalidLength)))) ∧
    (∀ (choices : Fin 16 → NodeRef) (value : Bytes),
      BranchNode.encode keccak256 choices value = (Node.branch choices value).encode keccak256 ∧
      BranchNode.encodeToVec keccak256 choices value =
        BranchNode.encode keccak256 choices value ∧
      BranchNode.encodeIntoVec keccak256 choices value =
        BranchNode.encode keccak256 choices value) := by
  refine ⟨fun n hn => ⟨hn.decode_encode, fun hgt hlt => ?_⟩, fun choices value => ⟨?_, ?_, rfl⟩⟩
  · rw [n.encode_eq]
    exact Node.decode_of_gt hgt hlt
  · exact BranchNode.encode_eq keccak256 choices value
  · simp only [BranchNode.encodeToVec, BranchNode.encode, foldl_length, Nat.add_zero]

theorem Node.codec_exact_extension :
    let n : Node := .extension ⟨[1], []⟩ (.hash (.hashed (.ofNat 7)))
    Node.decode (n.encode fun _ => .ofNat 0) = .ok n :=
  ((Node.codec_exact fun _ => .ofNat 0).1 (.extension ⟨[1], []⟩ (.hash (.hashed (.ofNat 7))))
    ⟨⟨[1], rfl⟩, trivial⟩).1 (by decide +kernel)

theorem Node.decode_encode_leaf_of_gt (keccak256 : Bytes → H256) {value : Bytes}
    (h : maxRlpBytes < value.length) (hlt : value.length < 256 ^ 4) :
    Node.decode (Node.encode keccak256 (.leaf ⟨[16], []⟩ value)) =
      .error (.error (.rlpDecode .invalidLength)) := by
  have hle := length_le_length_encodeBytes value
  have hle' := length_encodeBytes_le value hlt
  have hpath : (encodeBytes (Nibbles.encodeCompact ⟨[16], []⟩)).length = 1 := rfl
  rw [Node.encode_eq]
  apply Node.decode_of_gt
  · simp only [Node.items, flatten_cons, flatten_nil, append_nil, length_append]
    omega
  · simp only [Node.items, flatten_cons, flatten_nil, append_nil, length_append]
    omega

/-- A leaf with a value over the limit is encoded, and its encoding is refused. -/
theorem Node.decode_encode_largeLeaf :
    Node.WellFormed (fun _ => .ofNat 0) (.leaf ⟨[16], []⟩ (replicate (maxRlpBytes + 1) 0)) ∧
    Node.decode (Node.encode (fun _ => .ofNat 0)
        (.leaf ⟨[16], []⟩ (replicate (maxRlpBytes + 1) 0))) =
      .error (.error (.rlpDecode .invalidLength)) := by
  have hmax := maxRlpBytes_eq
  exact ⟨⟨[], rfl⟩, Node.decode_encode_leaf_of_gt _ (by rw [length_replicate]; omega)
    (by rw [length_replicate]; omega)⟩

/-! ### Panics -/

/-- The call returns `Ok` or `Err`. -/
def Result.Returns {α : Type} (r : Result α) : Prop := ∀ failure, r = .error failure →
  ∃ e, failure = .error e

/-- An item that is no digest and does not fit in place of one. -/
def Overlong (item : Bytes) : Prop :=
  32 < item.length ∧ ∀ hash : Bytes, hash.length = 32 → item ≠ encodeBytes hash

/-- A child among the items of a node is overlong. -/
def HasOverlongChild (items : List Bytes) : Prop :=
  (∃ pathItem item path rest, items = [pathItem, item] ∧
    decodeBytes pathItem = .ok (path, rest) ∧ (Nibbles.decodeCompact path).isLeaf = false ∧
    Overlong item) ∨
  (items.length = 17 ∧ ∃ item ∈ items.take 16, Overlong item)

namespace Result

variable {α β : Type}

@[simp] theorem returns_ok (a : α) : Returns (.ok a) := nofun

@[simp] theorem returns_error (e : TrieError) : Returns (.error (.error e) : Result α) := by
  rintro failure ⟨⟩
  exact ⟨e, rfl⟩

@[simp] theorem returns_ofRlp (r : Except RLPDecodeError α) : (ofRlp r).Returns := by
  cases r <;> simp [ofRlp]

theorem not_returns_panic : ¬ Returns (.error .panic : Result α) := fun h => by
  obtain ⟨e, he⟩ := h _ rfl
  cases he

theorem returns_bind {r : Result α} {f : α → Result β} :
    (r >>= f).Returns ↔ r.Returns ∧ ∀ a, r = .ok a → (f a).Returns := by
  cases r with
  | ok a => simp
  | error failure => simp [Returns, bind, Except.bind]

end Result

open Result

theorem decodeChild_cases (item : Bytes) :
    (Overlong item ∧ decodeChild item = .error .panic) ∨
      (¬ Overlong item ∧ ∃ hash, decodeChild item = .ok hash) := by
  have hmax := maxRlpBytes_eq
  by_cases hdigest : ∃ hash : Bytes, hash.length = 32 ∧ item = encodeBytes hash
  · obtain ⟨hash, hlen, rfl⟩ := hdigest
    refine .inr ⟨fun h => h.2 hash hlen rfl, ?_⟩
    simp [decodeChild, decodeBytes_encodeBytes_self hash (by omega), NodeHash.fromSlice, hlen]
  have hother : item = encodeBytes [] ∨ decodeChild item = NodeHash.fromSlice item := by
    unfold decodeChild
    split
    · rename_i hash h
      have hitem := (decodeBytes_eq_ok.1 h).2
      rw [append_nil] at hitem
      split
      · exact absurd ⟨hash, ‹_›, hitem⟩ hdigest
      · split
        · subst hash
          exact .inl hitem
        · exact .inr rfl
    · exact .inr rfl
  rcases hother with rfl | hslice
  · exact .inr ⟨fun h => absurd h.1 (by decide), _, by
      simp [decodeChild, decodeBytes_encodeBytes_self []]; rfl⟩
  rw [hslice, NodeHash.fromSlice]
  split
  · exact .inr ⟨fun h => by have := h.1; omega, _, rfl⟩
  split
  · exact .inr ⟨fun h => by have := h.1; omega, _, rfl⟩
  · exact .inl ⟨⟨by omega, fun hash hlen heq => hdigest ⟨hash, hlen, heq⟩⟩, rfl⟩

theorem returns_mapM_decodeChild (items : List Bytes) :
    (items.mapM decodeChild).Returns ↔ ∀ item ∈ items, ¬ Overlong item := by
  induction items with
  | nil => simp
  | cons item items ih =>
    rw [mapM_cons, returns_bind, forall_mem_cons, ← ih]
    rcases decodeChild_cases item with ⟨hover, h⟩ | ⟨hover, hash, h⟩
    · simp [h, hover, not_returns_panic]
    · simp [h, hover, returns_bind]

theorem returns_ofItems (items : List Bytes) :
    (Node.ofItems items).Returns ↔ ¬ HasOverlongChild items := by
  unfold Node.ofItems
  split
  · rename_i pathItem item
    rcases hdec : decodeBytes pathItem with e | ⟨path, rest⟩
    · simp [returns_bind, HasOverlongChild, hdec, Result.ofRlp]
    cases hleaf : (Nibbles.decodeCompact path).isLeaf with
    | true => simp [returns_bind, HasOverlongChild, hdec, hleaf]
    | false =>
      rcases decodeChild_cases item with ⟨hover, h⟩ | ⟨hover, hash, h⟩
      · simp [returns_bind, HasOverlongChild, hdec, hleaf, h, hover, not_returns_panic]
      · simp [HasOverlongChild, hleaf, h, hover]
  · rename_i hne
    have hne : ∀ pathItem item, items ≠ [pathItem, item] := hne
    by_cases hlen : items.length = 17
    · rw [if_pos hlen]
      simp [returns_bind, returns_mapM_decodeChild, HasOverlongChild, hne, hlen]
    · rw [if_neg hlen]
      simp [HasOverlongChild, hne, hlen]

/-! ### The items of a list -/

theorem shortItem_eq_ok {data item rest : Bytes} {length : Nat}
    (h : getItemWithPrefix.shortItem data length = .ok (item, rest)) :
    data = item ++ rest ∧ 0 < item.length ∧ ∀ rest',
      getItemWithPrefix.shortItem (item ++ rest') length = .ok (item, rest') := by
  rw [getItemWithPrefix.shortItem] at h
  split at h
  · cases h
  rename_i hfits
  cases h
  have hlen : (data.take (length + 1)).length = length + 1 := by
    rw [length_take]
    omega
  refine ⟨(take_append_drop _ _).symm, by omega, fun rest' => ?_⟩
  rw [getItemWithPrefix.shortItem, if_neg (by rw [length_append]; omega), take_left' hlen,
    drop_left' hlen]

theorem longItem_eq_ok {data item rest : Bytes} {lengthOfLength : Nat}
    (h : getItemWithPrefix.longItem data lengthOfLength = .ok (item, rest)) :
    data = item ++ rest ∧ 0 < item.length ∧ ∀ rest',
      getItemWithPrefix.longItem (item ++ rest') lengthOfLength = .ok (item, rest') := by
  rw [getItemWithPrefix.longItem] at h
  split at h
  · cases h
  obtain ⟨length, hlength, h⟩ := bind_eq_ok.1 h
  split at h
  · cases h
  rename_i hfits
  cases h
  have hlen : (data.take (lengthOfLength + length + 1)).length = lengthOfLength + length + 1 := by
    rw [length_take]
    omega
  refine ⟨(take_append_drop _ _).symm, by omega, fun rest' => ?_⟩
  -- the bytes of the length are within the item
  have hbytes : ((data.take (lengthOfLength + length + 1) ++ rest').drop 1).take lengthOfLength =
      (data.drop 1).take lengthOfLength := by
    rw [drop_append_of_le_length (by omega), take_append_of_le_length (by rw [length_drop]; omega),
      drop_take, take_take, min_eq_left (by omega)]
  rw [getItemWithPrefix.longItem, if_neg (by rw [length_append]; omega), hbytes, hlength]
  simp only [bind, Except.bind]
  rw [if_neg (by rw [length_append]; omega), take_left' hlen, drop_left' hlen]

theorem isItem_of_getItemWithPrefix {data item rest : Bytes}
    (h : getItemWithPrefix data = .ok (item, rest)) : data = item ++ rest ∧ IsItem item := by
  obtain - | ⟨b, bytes⟩ := data
  · cases h
  -- the first byte of the item is that of the data, so that the same arm takes it again
  have harm : ∀ arm : Bytes → Except RLPDecodeError (Bytes × Bytes),
      (∀ bs, getItemWithPrefix (b :: bs) = arm (b :: bs)) →
      (b :: bytes = item ++ rest ∧ 0 < item.length ∧ ∀ rest', arm (item ++ rest') =
        .ok (item, rest')) → b :: bytes = item ++ rest ∧ IsItem item := by
    rintro arm harm ⟨hdata, hpos, hitem⟩
    refine ⟨hdata, ne_nil_of_length_pos hpos, fun rest' => ?_⟩
    obtain ⟨c, item, rfl⟩ := exists_cons_of_length_pos hpos
    obtain rfl := (cons.inj hdata).1
    rw [← hitem rest', cons_append, harm]
  rw [getItemWithPrefix] at h
  split_ifs at h with hbyte hshort hlong hlist
  · cases h
    exact harm (fun data => .ok (data.take 1, data.drop 1))
      (fun bs => by rw [getItemWithPrefix, if_pos hbyte]) ⟨rfl, Nat.one_pos, fun _ => rfl⟩
  · have hitem := shortItem_eq_ok h
    exact harm (getItemWithPrefix.shortItem · _)
      (fun bs => by simp only [getItemWithPrefix, hbyte, hshort, if_true, if_false]) hitem
  · have hitem := longItem_eq_ok h
    exact harm (getItemWithPrefix.longItem · _)
      (fun bs => by simp only [getItemWithPrefix, hbyte, hshort, hlong, if_true, if_false]) hitem
  · have hitem := shortItem_eq_ok h
    exact harm (getItemWithPrefix.shortItem · _)
      (fun bs => by simp only [getItemWithPrefix, hbyte, hshort, hlong, hlist, if_true, if_false])
      hitem
  · have hitem := longItem_eq_ok h
    exact harm (getItemWithPrefix.longItem · _)
      (fun bs => by simp only [getItemWithPrefix, hbyte, hshort, hlong, hlist, if_false]) hitem

theorem items_of_decodeItems {n : Nat} {decoder done : Decoder} {items : List Bytes}
    (h : decodeItems n decoder = .ok (items, done)) (hdone : done.isDone) :
    decoder.payload = items.flatten ∧ ∀ item ∈ items, IsItem item := by
  induction n generalizing decoder items with
  | zero =>
    cases h
    exact ⟨isEmpty_iff.1 hdone, nofun⟩
  | succ n ih =>
    rw [decodeItems] at h
    split at h
    · cases h
      exact ⟨isEmpty_iff.1 hdone, nofun⟩
    obtain ⟨⟨item, next⟩, hitem, h⟩ := bind_eq_ok.1 h
    obtain ⟨⟨items, last⟩, hitems, h⟩ := bind_eq_ok.1 h
    cases h
    obtain ⟨⟨_, rest⟩, hget, hnext⟩ := bind_eq_ok.1 hitem
    cases hnext
    obtain ⟨hpayload, hitem⟩ := isItem_of_getItemWithPrefix hget
    obtain ⟨hrest, hall⟩ := ih hitems
    exact ⟨by rw [hpayload, flatten_cons, ← hrest], forall_mem_cons.2 ⟨hitem, hall⟩⟩

/-- `Node::decode` returns exactly when its input does not start with a list that has an overlong
child among its items. -/
theorem Node.decode_returns_iff (rlp : Bytes) :
    (Node.decode rlp).Returns ↔ ∀ items rest, rlp = encodeList items.flatten ++ rest →
      items.flatten.length ≤ maxRlpBytes → (∀ item ∈ items, IsItem item) →
        ¬ HasOverlongChild items := by
  have hrest (node : Node) (rest : Bytes) : Result.Returns (if rest = [] then .ok node
      else .error (.error (.rlpDecode .invalidLength))) := by
    split <;> simp
  constructor
  · rintro hreturns items rest rfl hfits hall hchild
    have hlen : items.length ≤ 17 := by
      rcases hchild with ⟨_, _, _, _, rfl, -⟩ | ⟨hlen, -⟩
      · simp
      · exact hlen.le
    have hpanic := (returns_ofItems items).not.2 (not_not.2 hchild)
    simp [Node.decode, Node.decodeUnfinished, Decoder.new, decodeRlpItem_encodeList rest hfits,
      decodeItems_flatten hall hlen, Decoder.isDone, Result.ofRlp, returns_bind, hpanic] at hreturns
  · intro h
    rcases hnew : Decoder.new rlp with e | decoder
    · simp [Node.decode, Node.decodeUnfinished, hnew, Result.ofRlp, returns_bind]
    rcases hitems : decodeItems 17 decoder with e | ⟨items, done⟩
    · simp [Node.decode, Node.decodeUnfinished, hnew, hitems, Result.ofRlp, returns_bind]
    cases hdone : done.isDone with
    | false => simp [Node.decode, Node.decodeUnfinished, hnew, hitems, hdone, returns_bind]
    | true =>
      obtain ⟨hpayload, hall⟩ := items_of_decodeItems hitems hdone
      obtain ⟨⟨isList, payload, rest⟩, hitem, hdecoder⟩ := bind_eq_ok.1 hnew
      cases isList with
      | false => cases hdecoder
      | true =>
        cases hdecoder
        obtain ⟨hfits, rfl⟩ := decodeRlpItem_eq_ok.1 hitem
        obtain rfl : payload = items.flatten := hpayload
        have hchild := h items rest rfl hfits hall
        simp [Node.decode, Node.decodeUnfinished, hnew, hitems, hdone, returns_bind,
          returns_ofItems, hrest, hchild]

/-- A branch or extension whose child is a list of 33 bytes. -/
theorem Node.decode_overlong :
    Node.decode (0xe2 :: 0x00 :: 0xe0 :: replicate 32 1) = .error .panic := by
  rfl

end Ethrex.Mpt
