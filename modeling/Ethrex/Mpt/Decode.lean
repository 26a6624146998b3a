import Ethrex.Mpt.Denote
import Ethrex.Patricia.Subtree
import Ethrex.Rlp.RoundTrip

/-!
# Decoding what was encoded

`Node::decode` reads the encoding of a tree back as a node whose children are hashes, up to the
decoder's bound on the payload of a list.
-/

namespace Ethrex.Mpt

open Patricia Rlp List
open Nibbles (compactToHex decodeCompact encodeCompact fromHex isLeaf)

theorem pack_hi : ∀ a b : Fin 16, ((nibble a <<< 4) ||| nibble b) >>> 4 = nibble a := by
  decide

theorem pack_lo : ∀ a b : Fin 16, ((nibble a <<< 4) ||| nibble b) &&& 0x0F = nibble b := by
  decide

theorem expandBytesToNibbles_cons (b : UInt8) (bytes : Bytes) :
    expandBytesToNibbles (b :: bytes) = (b >>> 4) :: (b &&& 0x0F) :: expandBytesToNibbles bytes :=
  rfl

theorem expandBytesToNibbles_packNibblePairs :
    ∀ w : Word, w.length % 2 = 0 → expandBytesToNibbles (packNibblePairs (hex w)) = hex w
  | [], _ => rfl
  | [_], h => absurd h (by simp)
  | a :: b :: w, h => by
    have ih := expandBytesToNibbles_packNibblePairs w (by simp only [length_cons] at h; omega)
    rw [hex_cons, hex_cons, packNibblePairs, expandBytesToNibbles_cons, pack_hi, pack_lo, ih]

theorem length_packNibblePairs :
    ∀ nibbles : List UInt8, (packNibblePairs nibbles).length = nibbles.length / 2
  | [] => rfl
  | [_] => by simp [packNibblePairs]
  | _ :: _ :: nibbles => by
    simp only [packNibblePairs, length_cons, length_packNibblePairs nibbles]
    omega

variable (leaf : Bool) (w : Word)

theorem isLeaf_terminated : (fromHex (terminated w)).isLeaf = true := by
  simp [isLeaf, fromHex, terminated]

theorem isLeaf_hex : (fromHex (hex w)).isLeaf = false := by
  rw [isLeaf, fromHex, beq_eq_false_iff_ne]
  exact fun h => terminator_notMem_hex w (mem_of_getLast? h)

/-- The compact form of a word: a flag nibble for leaf and parity, then the nibbles. -/
def compactOf (leaf : Bool) (w : Word) : Bytes :=
  let leafFlag : UInt8 := if leaf then 0x20 else 0x00
  if w.length % 2 = 1 then
    (0x10 + (hex w).headD 0 + leafFlag) :: packNibblePairs (hex w).tail
  else
    (0x00 + leafFlag) :: packNibblePairs (hex w)

theorem encodeCompact_terminated :
    (fromHex (terminated w)).encodeCompact = compactOf true w := by
  rw [encodeCompact, isLeaf_terminated, compactOf]
  simp [fromHex, terminated]

theorem encodeCompact_hex : (fromHex (hex w)).encodeCompact = compactOf false w := by
  rw [encodeCompact, isLeaf_hex, compactOf]
  simp [fromHex]

theorem length_compactOf : (compactOf leaf w).length = w.length / 2 + 1 := by
  rw [compactOf]
  split
  · rename_i hodd
    simp only [length_cons, length_packNibblePairs, length_tail, length_hex]
    omega
  · simp [length_packNibblePairs]

theorem flag_nibbles : ∀ a : Fin 16, ∀ leaf : Bool,
    let odd := 0x10 + nibble a + if leaf then (0x20 : UInt8) else 0x00
    let even := (0x00 : UInt8) + if leaf then (0x20 : UInt8) else 0x00
    odd >>> 4 = (if leaf then 3 else 1) ∧ odd &&& 0x0F = nibble a ∧
      even >>> 4 = (if leaf then 2 else 0) ∧ even &&& 0x0F = 0 := by
  decide

theorem compactToHex_compactOf :
    compactToHex (compactOf leaf w) = hex w ++ if leaf then [16] else [] := by
  rw [compactOf]
  split
  · -- odd length: the first nibble shares its byte with the flag
    rename_i hodd
    cases w with
    | nil => simp at hodd
    | cons a w =>
      have heven : w.length % 2 = 0 := by
        rw [length_cons] at hodd
        omega
      obtain ⟨hflag, hnib, -, -⟩ := flag_nibbles a leaf
      simp only [compactToHex, hex_cons, headD_cons, tail_cons,
        expandBytesToNibbles_cons, expandBytesToNibbles_packNibblePairs w heven, hflag, hnib]
      cases leaf with
      | false => simp
      | true => simp
  · rename_i heven
    obtain ⟨-, -, hflag, hnib⟩ := flag_nibbles 0 leaf
    simp only [compactToHex, expandBytesToNibbles_cons,
      expandBytesToNibbles_packNibblePairs w (by omega), hflag, hnib]
    cases leaf with
    | false => simp
    | true => simp

theorem decodeCompact_compactOf :
    decodeCompact (compactOf leaf w) =
      fromHex (hex w ++ if leaf then [16] else []) := by
  rw [decodeCompact, compactToHex_compactOf]

def IsItem (item : Bytes) : Prop :=
  item ≠ [] ∧ ∀ rest, getItemWithPrefix (item ++ rest) = .ok (item, rest)

theorem encodeHeader_ne_nil (shortBase longBase : UInt8) (n : Nat) :
    encodeHeader shortBase longBase n ≠ [] := by
  rcases encodeHeader_cases shortBase longBase n with ⟨-, h⟩ | ⟨-, h⟩ <;> simp [h]

theorem encodeBytes_ne_nil (data : Bytes) : encodeBytes data ≠ [] := by
  rcases encodeBytes_cases data with ⟨b, rfl, -, h⟩ | ⟨-, h⟩
  · simp [h]
  · simp [h, encodeHeader_ne_nil]

theorem length_le_length_encodeBytes (data : Bytes) : data.length ≤ (encodeBytes data).length := by
  rcases encodeBytes_cases data with ⟨b, rfl, -, h⟩ | ⟨-, h⟩
  · simp [h]
  · simp [h]

theorem isItem_encodeBytes {data : Bytes} (h : data.length ≤ maxRlpBytes) :
    IsItem (encodeBytes data) :=
  ⟨encodeBytes_ne_nil data, fun rest => getItemWithPrefix_encodeBytes rest h⟩

theorem isItem_encodeList {fields : Bytes} (h : fields.length ≤ maxRlpBytes) :
    IsItem (encodeList fields) :=
  ⟨encodeList_ne_nil fields, fun rest => getItemWithPrefix_encodeList rest h⟩

theorem encodeBytes_nil : encodeBytes [] = [rlpNull] := rfl

theorem decodeItems_flatten {items : List Bytes} (h : ∀ item ∈ items, IsItem item) {n : Nat}
    (hn : items.length ≤ n) (rest : Bytes) :
    decodeItems n ⟨items.flatten, rest⟩ = .ok (items, ⟨[], rest⟩) := by
  induction items generalizing n with
  | nil => cases n <;> simp [decodeItems, Decoder.isDone]
  | cons item items ih =>
    obtain ⟨hne, hget⟩ := h item (by simp)
    cases n with
    | zero => simp at hn
    | succ n =>
      have htail := ih (fun i hi => h i (by simp [hi])) (n := n) (by simpa using hn)
      simp [decodeItems, Decoder.isDone, hne, Decoder.getEncodedItemRef, hget, htail, bind,
        Except.bind]

/-! ### Nodes -/

/-- How a node may refer to another: by its digest, or by its encoding when that is a short list. -/
def NodeHash.IsRef : NodeHash → Prop
  | .hashed _ => True
  | .inline data => ∃ fields, data.val = encodeList fields

section

variable (keccak256 : Bytes → H256)

/-- The items of the list that encodes a node. -/
def Node.items : Node → List Bytes
  | .branch choices value =>
    (List.finRange 16).map (fun i => ((choices i).computeHash keccak256).encodeChoice)
      ++ [encodeBytes value]
  | .extension prefixPath child =>
    [encodeBytes prefixPath.encodeCompact, (child.computeHash keccak256).encode]
  | .leaf partialPath value => [encodeBytes partialPath.encodeCompact, encodeBytes value]

def Node.WellFormed : Node → Prop
  | .branch choices _ => ∀ i, (choices i).computeHash keccak256 = NodeHash.default ∨
      ((choices i).computeHash keccak256).IsRef
  | .extension prefixPath child =>
    (∃ w, prefixPath.data = hex w) ∧ (child.computeHash keccak256).IsRef
  | .leaf partialPath _ => ∃ w, partialPath.data = terminated w

/-- The node with hashes for children.  Equality of paths ignores the consumed part. -/
def Node.hashOnly : Node → Node
  | .branch choices value => .branch (fun i => .hash ((choices i).computeHash keccak256)) value
  | .extension prefixPath child =>
    .extension (fromHex prefixPath.data) (.hash (child.computeHash keccak256))
  | .leaf partialPath value => .leaf (fromHex partialPath.data) value

variable {keccak256} {hash : NodeHash} {n : Node} {items : List Bytes} {data : Bytes}

theorem Node.encode_eq (n : Node) : n.encode keccak256 = encodeList (n.items keccak256).flatten := by
  cases n <;> simp [Node.encode, Node.items, flatMap_def]

theorem NodeHash.IsRef.encode_eq (h : hash.IsRef) : hash.encode = hash.encodeChoice := by
  cases hash with
  | hashed d => rfl
  | inline data =>
    obtain ⟨fields, hdata⟩ := h
    simp [NodeHash.encode, NodeHash.encodeChoice, hdata, encodeList_ne_nil]

/-- How a parent writes a child: the empty string, the child itself or its digest. -/
theorem NodeHash.encodeChoice_cases (h : hash = NodeHash.default ∨ hash.IsRef) :
    (hash = NodeHash.default ∧ hash.encodeChoice = encodeBytes []) ∨
    (∃ fields h, fields.length < 32 ∧ hash = .inline ⟨encodeList fields, h⟩ ∧
      hash.encodeChoice = encodeList fields) ∨
    (∃ d, hash = .hashed d ∧ hash.encodeChoice = encodeBytes d.bytes) := by
  rcases h with rfl | h
  · exact .inl ⟨rfl, rfl⟩
  cases hash with
  | hashed d => exact .inr (.inr ⟨d, rfl, rfl⟩)
  | inline data =>
    obtain ⟨data, hlen⟩ := data
    obtain ⟨fields, rfl⟩ := h
    have hlen' := hlen
    rw [encodeList, length_append] at hlen'
    exact .inr (.inl ⟨fields, hlen, by omega, rfl,
      by simp [NodeHash.encodeChoice, encodeList_ne_nil]⟩)

theorem NodeHash.isItem_encodeChoice (h : hash = NodeHash.default ∨ hash.IsRef) :
    IsItem hash.encodeChoice := by
  have hmax := maxRlpBytes_eq
  rcases NodeHash.encodeChoice_cases h with ⟨-, h⟩ | ⟨fields, -, hlen, -, h⟩ | ⟨d, -, h⟩
  · rw [h]
    exact isItem_encodeBytes (by simp)
  · rw [h]
    exact isItem_encodeList (by omega)
  · rw [h]
    exact isItem_encodeBytes (by rw [d.size]; omega)

theorem NodeHash.decodeChild_encodeChoice (h : hash = NodeHash.default ∨ hash.IsRef) :
    decodeChild hash.encodeChoice = .ok hash := by
  have hmax := maxRlpBytes_eq
  rcases NodeHash.encodeChoice_cases h with ⟨rfl, h⟩ | ⟨fields, hlt, hlen, rfl, h⟩ | ⟨d, rfl, h⟩
  · rw [h]
    simp [decodeChild, decodeBytes_encodeBytes_self []]
  · have hdec := decodeRlpItem_encodeList_self fields (by omega)
    rw [h]
    simp [decodeChild, decodeBytes, hdec, bind, Except.bind, NodeHash.fromSlice, hlt]
  · have hdec := decodeBytes_encodeBytes_self d.bytes (by rw [d.size]; omega)
    rw [h]
    simp [decodeChild, hdec, NodeHash.fromSlice, d.size]

theorem length_le_of_mem_flatten {item : Bytes} (h : item ∈ items) :
    item.length ≤ items.flatten.length := by
  rw [length_flatten]
  exact single_le_sum (by simp) _ (mem_map_of_mem h)

theorem length_le_of_encodeBytes_mem (h : encodeBytes data ∈ items) :
    data.length ≤ items.flatten.length :=
  (length_le_length_encodeBytes data).trans (length_le_of_mem_flatten h)

theorem Node.WellFormed.isItem (h : n.WellFormed keccak256)
    (hfit : (n.items keccak256).flatten.length ≤ maxRlpBytes) :
    ∀ item ∈ n.items keccak256, IsItem item := by
  have hstring : ∀ data, encodeBytes data ∈ n.items keccak256 → IsItem (encodeBytes data) :=
    fun data hmem => isItem_encodeBytes ((length_le_of_encodeBytes_mem hmem).trans hfit)
  intro item hitem
  cases n with
  | leaf path value =>
    have hitem' := hitem
    simp only [Node.items, mem_cons, not_mem_nil, or_false] at hitem'
    rcases hitem' with rfl | rfl
    · exact hstring _ hitem
    · exact hstring _ hitem
  | extension path child =>
    have hitem' := hitem
    simp only [Node.items, mem_cons, not_mem_nil, or_false] at hitem'
    rcases hitem' with rfl | rfl
    · exact hstring _ hitem
    · rw [h.2.encode_eq]
      exact NodeHash.isItem_encodeChoice (.inr h.2)
  | branch choices value =>
    have hitem' := hitem
    simp only [Node.items, mem_append, mem_map, mem_singleton] at hitem'
    rcases hitem' with ⟨i, -, rfl⟩ | rfl
    · exact NodeHash.isItem_encodeChoice (h i)
    · exact hstring _ hitem

theorem mapM_decodeChild {hashes : Fin 16 → NodeHash}
    (h : ∀ i, hashes i = NodeHash.default ∨ (hashes i).IsRef) (is : List (Fin 16)) :
    (is.map fun i => (hashes i).encodeChoice).mapM decodeChild = .ok (is.map hashes) := by
  induction is with
  | nil => rfl
  | cons i is ih => simp [NodeHash.decodeChild_encodeChoice (h i), ih]

theorem ofItems_of_length (h : items.length = 17) :
    Node.ofItems items = (do
      let hashes ← (items.take 16).mapM decodeChild
      let (value, _) ← Result.ofRlp (decodeBytes (items.getD 16 []))
      .ok (.branch (fun i => .hash (hashes.getD i NodeHash.default)) value)) := by
  unfold Node.ofItems
  split
  · simp at h
  · rw [if_pos h]

theorem decodeCompact_encodeCompact {path : Nibbles}
    (h : path.data = hex w ∨ path.data = terminated w) :
    decodeCompact path.encodeCompact = fromHex path.data := by
  show decodeCompact (fromHex path.data).encodeCompact = _
  rcases h with h | h
  · simp [h, encodeCompact_hex, decodeCompact_compactOf]
  · rw [h, encodeCompact_terminated, decodeCompact_compactOf]
    rfl

theorem Node.WellFormed.ofItems (h : n.WellFormed keccak256)
    (hfit : (n.items keccak256).flatten.length ≤ maxRlpBytes) :
    Node.ofItems (n.items keccak256) = .ok (n.hashOnly keccak256) := by
  have hstring : ∀ data, encodeBytes data ∈ n.items keccak256 →
      decodeBytes (encodeBytes data) = .ok (data, []) := fun data hmem =>
    decodeBytes_encodeBytes_self data ((length_le_of_encodeBytes_mem hmem).trans hfit)
  cases n with
  | leaf path value =>
    obtain ⟨w, hw⟩ := h
    have hpath := hstring path.encodeCompact (by simp [Node.items])
    have hvalue := hstring value (by simp [Node.items])
    have hleaf : (fromHex path.data).isLeaf = true := hw ▸ isLeaf_terminated w
    simp [Node.ofItems, Node.items, hpath, hvalue, decodeCompact_encodeCompact w (.inr hw), hleaf,
      Node.hashOnly]
  | extension path child =>
    obtain ⟨⟨w, hw⟩, href⟩ := h
    have hpath := hstring path.encodeCompact (by simp [Node.items])
    have hchild := NodeHash.decodeChild_encodeChoice (.inr href)
    rw [← href.encode_eq] at hchild
    have hleaf : (fromHex path.data).isLeaf = false := hw ▸ isLeaf_hex w
    simp [Node.ofItems, Node.items, hpath, hchild, decodeCompact_encodeCompact w (.inl hw), hleaf,
      Node.hashOnly]
  | branch choices value =>
    have hvalue := hstring value (by simp [Node.items])
    have hlen : (Node.items keccak256 (.branch choices value)).length = 17 := by simp [Node.items]
    have htake : (Node.items keccak256 (.branch choices value)).take 16 =
        (List.finRange 16).map fun i => ((choices i).computeHash keccak256).encodeChoice :=
      take_left' (by simp)
    have hlast : (Node.items keccak256 (.branch choices value)).getD 16 [] = encodeBytes value := by
      simp [Node.items]
    rw [ofItems_of_length hlen, htake, hlast, mapM_decodeChild h, hvalue]
    simp [Node.hashOnly]

/-- `Node::decode` reads the encoding of a node back, with hashes for children. -/
theorem Node.WellFormed.decode_encode (h : n.WellFormed keccak256)
    (hfit : (n.items keccak256).flatten.length ≤ maxRlpBytes) :
    Node.decode (n.encode keccak256) = .ok (n.hashOnly keccak256) := by
  have hle : (n.items keccak256).length ≤ 17 := by cases n <;> simp [Node.items]
  have hlist := decodeRlpItem_encodeList_self _ hfit
  have hitems := decodeItems_flatten (h.isItem hfit) hle []
  simp [n.encode_eq, Node.decode, Node.decodeUnfinished, Decoder.new, hlist, bind,
    Except.bind, hitems, Decoder.isDone, Decoder.finish, h.ofItems hfit]

theorem Node.decode_of_gt (h : maxRlpBytes < items.flatten.length)
    (hlt : items.flatten.length < 256 ^ 8) :
    Node.decode (encodeList items.flatten) = .error (.error (.rlpDecode .invalidLength)) := by
  simp [Node.decode, Node.decodeUnfinished, Decoder.new, decodeRlpItem_encodeList_of_gt h hlt,
    bind, Except.bind, Result.ofRlp]

end

/-! ### Trees -/

section

variable (keccak256 : Bytes → H256)

def itemsOf : MTree → List Bytes
  | .nil => []
  | .leaf w v => [encodeBytes (compactOf true w), encodeBytes v.val]
  | .ext w c => [encodeBytes (compactOf false w), (hashOf keccak256 c).encode]
  | .branch cs v =>
    (List.finRange 16).map (fun i => (hashOf keccak256 (cs i)).encodeChoice)
      ++ [encodeBytes (valueBytes v)]

def Fits (t : MTree) : Prop := (itemsOf keccak256 t).flatten.length ≤ maxRlpBytes

/-- The node that is read back from the encoding of a tree: its children are hashes. -/
def shallowNode : MTree → Node
  | .nil => .branch emptyChoices []
  | .leaf w v => .leaf (fromHex (terminated w)) v.val
  | .ext w c => .extension (fromHex (hex w)) (.hash (hashOf keccak256 c))
  | .branch cs v => .branch (fun i => .hash (hashOf keccak256 (cs i))) (valueBytes v)

variable {keccak256} {t : MTree}

theorem items_shallowNode (ht : t ≠ .nil) :
    (shallowNode keccak256 t).items keccak256 = itemsOf keccak256 t := by
  cases t with
  | nil => exact absurd rfl ht
  | leaf w v => simp [shallowNode, Node.items, itemsOf, encodeCompact_terminated]
  | ext w c => simp [shallowNode, Node.items, itemsOf, encodeCompact_hex, NodeRef.computeHash]
  | branch cs v => simp [shallowNode, Node.items, itemsOf, NodeRef.computeHash]

theorem encodeOf_eq (ht : t ≠ .nil) :
    encodeOf keccak256 t = encodeList (itemsOf keccak256 t).flatten := by
  cases t with
  | nil => exact absurd rfl ht
  | leaf w v => simp [encodeOf, itemsOf, encodeCompact_terminated]
  | ext w c => simp [encodeOf, itemsOf, encodeCompact_hex]
  | branch cs v => simp [encodeOf, itemsOf, flatMap_def]

theorem isRef_hashOf (ht : t ≠ .nil) : (hashOf keccak256 t).IsRef := by
  rw [hashOf_eq keccak256 ht, encodeOf_eq ht, NodeHash.fromEncoded]
  split
  · exact ⟨_, rfl⟩
  · trivial

theorem default_or_isRef (keccak256 : Bytes → H256) (t : MTree) :
    hashOf keccak256 t = NodeHash.default ∨ (hashOf keccak256 t).IsRef := by
  by_cases ht : t = .nil
  · exact .inl (by rw [ht, hashOf_nil])
  · exact .inr (isRef_hashOf ht)

theorem wellFormed_shallowNode (ht : t.Proper) : (shallowNode keccak256 t).WellFormed keccak256 := by
  cases t with
  | nil => exact absurd ht id
  | leaf w v => exact ⟨w, rfl⟩
  | ext w c => exact ⟨⟨w, rfl⟩, by simpa [NodeRef.computeHash] using isRef_hashOf ht.2.2.ne_nil⟩
  | branch cs v => exact fun i => by simpa [NodeRef.computeHash] using default_or_isRef _ (cs i)

/-- `Node::decode` reads the encoding of a tree back. -/
theorem decode_encodeOf (ht : t.Proper) (hfit : Fits keccak256 t) :
    Node.decode (encodeOf keccak256 t) = .ok (shallowNode keccak256 t) := by
  rw [Fits, ← items_shallowNode ht.ne_nil] at hfit
  rw [encodeOf_eq ht.ne_nil, ← items_shallowNode ht.ne_nil, ← Node.encode_eq,
    (wellFormed_shallowNode ht).decode_encode hfit]
  cases t with
  | nil => exact absurd ht id
  | leaf | ext | branch => simp [shallowNode, Node.hashOnly, NodeRef.computeHash, fromHex]

/-- `Node::decode` rejects the encoding of a tree whose payload is over the limit. -/
theorem decode_encodeOf_of_gt (ht : t ≠ .nil)
    (h : maxRlpBytes < (itemsOf keccak256 t).flatten.length)
    (hlt : (itemsOf keccak256 t).flatten.length < 256 ^ 8) :
    Node.decode (encodeOf keccak256 t) = .error (.error (.rlpDecode .invalidLength)) := by
  rw [encodeOf_eq ht, Node.decode_of_gt h hlt]

theorem shallowNode_denotes {Memo Stored : List UInt8 → MTree → Prop} {p : List UInt8}
    (ht : t.Proper) (hS : ∀ q s, Subtree t q s → q ≠ [] → Stored (p ++ hex q) s) :
    NodeDenotes keccak256 Memo Stored p (shallowNode keccak256 t) t := by
  cases t with
  | nil => exact absurd ht id
  | leaf w v => exact .leaf v rfl
  | ext w c =>
    have hc := ht.2.2.ne_nil
    refine .extension rfl (.stored hc rfl ?_)
    have := hS (w ++ []) c (.ext (.self hc)) (by simpa using ht.1)
    simpa using this
  | branch cs v =>
    refine .branch v fun i => ?_
    by_cases hc : cs i = .nil
    · rw [hc, hashOf_nil]
      exact .nil _
    · exact .stored hc rfl (hS [i] (cs i) (.branch (.self hc)) (by simp))

/-! ### Nodes within the limit -/

theorem length_encodeHeader_le (shortBase longBase : UInt8) {n : Nat} (h : n < 256 ^ k) :
    (encodeHeader shortBase longBase n).length ≤ k + 1 := by
  rcases encodeHeader_cases shortBase longBase n with ⟨-, he⟩ | ⟨-, he⟩
  · simp [he]
  · rw [he, length_cons]
    have := toBeBytes_length_le.2 h
    omega

theorem length_encodeBytes_le (data : Bytes) (h : data.length < 256 ^ k) :
    (encodeBytes data).length ≤ data.length + (k + 1) := by
  rcases encodeBytes_cases data with ⟨b, rfl, -, he⟩ | ⟨-, he⟩
  · simp [he]
  · rw [he, length_append]
    have := length_encodeHeader_le rlpNull 0xb7 h
    omega

theorem length_encodeBytes_short (data : Bytes) (h : data.length < 56) :
    (encodeBytes data).length ≤ data.length + 1 := by
  rcases encodeBytes_cases data with ⟨b, rfl, -, he⟩ | ⟨-, he⟩
  · simp [he]
  · simp [he, encodeHeader, h]

theorem length_encodeChoice_le (keccak256 : Bytes → H256) (t : MTree) :
    (hashOf keccak256 t).encodeChoice.length ≤ 33 := by
  rcases NodeHash.encodeChoice_cases (default_or_isRef keccak256 t) with
    ⟨-, h⟩ | ⟨fields, hlt, -, -, h⟩ | ⟨d, -, h⟩
  · simp [h, encodeBytes_nil]
  · rw [h]
    omega
  rw [h]
  have := length_encodeBytes_short d.bytes (by rw [d.size]; omega)
  rw [d.size] at this
  exact this

variable {w : Word} {v : Value}

theorem length_leaf_payload (keccak256 : Bytes → H256) (hw : w.length ≤ 64)
    (hv : v.val.length < 256 ^ 4) :
    v.val.length < (itemsOf keccak256 (.leaf w v)).flatten.length ∧
      (itemsOf keccak256 (.leaf w v)).flatten.length ≤ v.val.length + 39 := by
  have hpath := length_encodeBytes_short (compactOf true w) (by rw [length_compactOf]; omega)
  have hpos := length_pos_iff.2 (encodeBytes_ne_nil (compactOf true w))
  have hvalue := length_encodeBytes_le v.val hv
  have hvalue' := length_le_length_encodeBytes v.val
  rw [length_compactOf] at hpath
  simp only [itemsOf, flatten_cons, flatten_nil, append_nil, length_append]
  omega

def maxValueBytes : Nat := maxRlpBytes - 39

theorem fits_leaf (hw : w.length ≤ 64) (hv : v.val.length ≤ maxValueBytes) :
    Fits keccak256 (.leaf w v) := by
  have hmax := maxRlpBytes_eq
  rw [maxValueBytes] at hv
  have hpayload := (length_leaf_payload keccak256 hw (v := v) (by omega)).2
  rw [Fits]
  omega

theorem fits_ext {c : MTree} (hw : w.length ≤ 128) (hc : c ≠ .nil) : Fits keccak256 (.ext w c) := by
  have hmax := maxRlpBytes_eq
  have hpath := length_encodeBytes_le (k := 1) (compactOf false w)
    (by rw [length_compactOf]; omega)
  have hchild := length_encodeChoice_le keccak256 c
  rw [length_compactOf] at hpath
  simp only [Fits, itemsOf, (isRef_hashOf hc).encode_eq, flatten_cons, flatten_nil,
    append_nil, length_append]
  omega

theorem fits_branch (cs : Fin 16 → MTree) : Fits keccak256 (.branch cs none) := by
  have hmax := maxRlpBytes_eq
  have hsum : (((List.finRange 16).map fun i =>
      (hashOf keccak256 (cs i)).encodeChoice).map List.length).sum ≤ 16 * 33 := by
    have := sum_le_card_nsmul (((List.finRange 16).map fun i =>
      (hashOf keccak256 (cs i)).encodeChoice).map List.length) 33 (by
        intro n hn
        simp only [map_map, mem_map, Function.comp_apply] at hn
        obtain ⟨i, -, rfl⟩ := hn
        exact length_encodeChoice_le keccak256 (cs i))
    simpa using this
  simp only [Fits, itemsOf, flatten_append, length_append, length_flatten,
    valueBytes, encodeBytes_nil, map_cons, map_nil, sum_cons, sum_nil,
    length_cons, length_nil]
  omega

theorem fits_of_subtree {q : Word} {s : MTree} (ht : t.Proper) (huni : t.Uniform 64)
    (hval : ∀ w v, t.lookup w = some v → v.val.length ≤ maxValueBytes) (hs : Subtree t q s) :
    Fits keccak256 s := by
  obtain ⟨k, hk⟩ := (hs.proper ht).exists_lookup
  have hlen := huni.subtree hs hk
  cases s with
  | nil => exact absurd rfl hs.ne_nil
  | leaf w v =>
    have hkw : k = w := by
      by_contra hne
      simp [hne] at hk
    subst hkw
    refine fits_leaf (by omega) (hval (q ++ k) v ?_)
    rw [hs.lookup_append]
    simp
  | ext w c =>
    obtain ⟨k', rfl, -⟩ := Tree.lookup_ext_ne_none hk
    rw [length_append] at hlen
    exact fits_ext (by omega) (hs.proper ht).2.2.ne_nil
  | branch cs v =>
    rw [huni.branch_value ht hs]
    exact fits_branch cs

end

end Ethrex.Mpt
