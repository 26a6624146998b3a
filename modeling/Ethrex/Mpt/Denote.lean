import Ethrex.Mpt.Path
import Ethrex.Mpt.Trie

/-!
# What a node stands for

A reference denotes a Patricia tree over the sixteen choices, and a memo or stored hash in it must
be the hash of that tree. `Memo` must hold wherever a hash is memoized and `Stored` wherever a
reference holds a hash only.
-/

namespace Ethrex.Mpt

open Patricia Rlp

abbrev Value := { v : Bytes // v ≠ [] }

abbrev MTree := Tree (Fin 16) Value

def valueBytes : Option Value → Bytes
  | some v => v.val
  | none => []

@[simp] theorem valueBytes_isEmpty (v : Option Value) : (valueBytes v).isEmpty = v.isNone := by
  cases v with
  | none => rfl
  | some v => simpa [valueBytes] using v.property

/-! ### The hash of a tree -/

/-- A reference to a tree without memos and without stored hashes. -/
def refOf : MTree → NodeRef
  | .nil => NodeRef.default
  | .leaf w v => NodeRef.ofNode (.leaf (Nibbles.fromHex (terminated w)) v.val)
  | .ext w c => NodeRef.ofNode (.extension (Nibbles.fromHex (hex w)) (refOf c))
  | .branch cs v => NodeRef.ofNode (.branch (fun i => refOf (cs i)) (valueBytes v))

section Hash

variable (keccak256 : Bytes → H256)

def hashOf (t : MTree) : NodeHash := (refOf t).computeHash keccak256

def encodeOf : MTree → Bytes
  | .nil => [rlpNull]
  | .leaf w v =>
    encodeList (encodeBytes (Nibbles.fromHex (terminated w)).encodeCompact ++ encodeBytes v.val)
  | .ext w c =>
    encodeList (encodeBytes (Nibbles.fromHex (hex w)).encodeCompact
      ++ (hashOf keccak256 c).encode)
  | .branch cs v =>
    encodeList ((List.finRange 16).flatMap (fun i => (hashOf keccak256 (cs i)).encodeChoice)
      ++ encodeBytes (valueBytes v))

/-- `hash_no_commit` of a trie that denotes the tree. -/
def rootHashOf (t : MTree) : H256 := keccak256 (encodeOf keccak256 t)

@[simp] theorem hashOf_nil : hashOf keccak256 .nil = NodeHash.default := by
  simp [hashOf, refOf, NodeRef.default, NodeRef.computeHash]

theorem hashOf_eq {t : MTree} (h : t ≠ .nil) :
    hashOf keccak256 t = NodeHash.fromEncoded keccak256 (encodeOf keccak256 t) := by
  cases t with
  | nil => exact absurd rfl h
  | leaf w v => simp [hashOf, refOf, NodeRef.ofNode, NodeRef.computeHash, encodeOf, Node.encode]
  | ext w c =>
    simp [hashOf, refOf, NodeRef.ofNode, NodeRef.computeHash, encodeOf, Node.encode]
  | branch cs v =>
    simp [hashOf, refOf, NodeRef.ofNode, NodeRef.computeHash, encodeOf, Node.encode]

theorem encodeList_ne_nil (fields : Bytes) : encodeList fields ≠ [] := by
  rw [encodeList, encodeLength, encodeHeader]
  split <;> simp

theorem encodeOf_ne_nil (t : MTree) : encodeOf keccak256 t ≠ [] := by
  cases t with
  | nil => simp [encodeOf]
  | leaf w v => exact encodeList_ne_nil _
  | ext w c => exact encodeList_ne_nil _
  | branch cs v => exact encodeList_ne_nil _

theorem isValid_fromEncoded {encoded : Bytes} (h : encoded ≠ []) :
    (NodeHash.fromEncoded keccak256 encoded).isValid = true := by
  rw [NodeHash.fromEncoded]
  split
  · simpa [NodeHash.isValid] using h
  · rfl

theorem isValid_hashOf (t : MTree) :
    (hashOf keccak256 t).isValid = true ↔ t ≠ .nil := by
  by_cases h : t = .nil
  · subst h
    simp [NodeHash.default, NodeHash.isValid]
  · simp [h, hashOf_eq keccak256 h, isValid_fromEncoded keccak256 (encodeOf_ne_nil keccak256 t)]

theorem finalize_hashOf {t : MTree} (h : t ≠ .nil) :
    (hashOf keccak256 t).finalize keccak256 = rootHashOf keccak256 t := by
  rw [hashOf_eq keccak256 h, NodeHash.fromEncoded, rootHashOf]
  split <;> rfl

end Hash

theorem encodeCompact_of_data {n : Nibbles} {data : List UInt8} (h : n.data = data) :
    n.encodeCompact = (Nibbles.fromHex data).encodeCompact := by
  simp [Nibbles.encodeCompact, Nibbles.isLeaf, Nibbles.fromHex, h]

section Denote

variable (keccak256 : Bytes → H256) (Memo Stored : List UInt8 → MTree → Prop)

mutual

/-- The reference at path `p` denotes the tree. -/
inductive RefDenotes : List UInt8 → NodeRef → MTree → Prop where
  | nil (p : List UInt8) : RefDenotes p (.hash NodeHash.default) .nil
  | fresh {p : List UInt8} {n : Node} {t : MTree} (hn : NodeDenotes p n t) :
      RefDenotes p (.node n none) t
  | memo {p : List UInt8} {n : Node} {t : MTree} {h : NodeHash} (hn : NodeDenotes p n t)
      (hh : h = hashOf keccak256 t) (hm : Memo p t) : RefDenotes p (.node n (some h)) t
  | stored {p : List UInt8} {t : MTree} {h : NodeHash} (ht : t ≠ .nil)
      (hh : h = hashOf keccak256 t) (hs : Stored p t) : RefDenotes p (.hash h) t

/-- The node at path `p` denotes the tree. -/
inductive NodeDenotes : List UInt8 → Node → MTree → Prop where
  | leaf {p : List UInt8} {q : Nibbles} {w : Word} (v : Value) (hq : q.data = terminated w) :
      NodeDenotes p (.leaf q v.val) (.leaf w v)
  | extension {p : List UInt8} {q : Nibbles} {w : Word} {r : NodeRef} {c : MTree}
      (hq : q.data = hex w) (hr : RefDenotes (p ++ hex w) r c) :
      NodeDenotes p (.extension q r) (.ext w c)
  | branch {p : List UInt8} {rs : Fin 16 → NodeRef} {cs : Fin 16 → MTree} (v : Option Value)
      (hrs : ∀ i, RefDenotes (p ++ [nibble i]) (rs i) (cs i)) :
      NodeDenotes p (.branch rs (valueBytes v)) (.branch cs v)

end

variable {keccak256 Memo Stored} {p : List UInt8} {n : Node} {r : NodeRef} {t : MTree}

theorem NodeDenotes.ne_nil (h : NodeDenotes keccak256 Memo Stored p n t) : t ≠ .nil := by
  rintro rfl
  cases h

theorem RefDenotes.isValid_iff (h : RefDenotes keccak256 Memo Stored p r t) :
    r.isValid = true ↔ t ≠ .nil := by
  cases h with
  | nil => simp [NodeRef.isValid, NodeHash.isValid, NodeHash.default]
  | fresh hn => simpa [NodeRef.isValid] using hn.ne_nil
  | memo hn _ _ => simpa [NodeRef.isValid] using hn.ne_nil
  | stored ht hh _ =>
    rw [NodeRef.isValid, hh]
    exact isValid_hashOf keccak256 t

theorem RefDenotes.computeHash_of_encode (h : RefDenotes keccak256 Memo Stored p r t)
    (henc : ∀ n, NodeDenotes keccak256 Memo Stored p n t →
      n.encode keccak256 = encodeOf keccak256 t) :
    r.computeHash keccak256 = hashOf keccak256 t := by
  cases h with
  | nil => simp [NodeRef.computeHash]
  | fresh hn => simp [NodeRef.computeHash, henc _ hn, hashOf_eq keccak256 hn.ne_nil]
  | memo hn hh _ => simp [NodeRef.computeHash, hh]
  | stored _ hh _ => simp [NodeRef.computeHash, hh]

theorem NodeDenotes.encode_eq (h : NodeDenotes keccak256 Memo Stored p n t) :
    n.encode keccak256 = encodeOf keccak256 t := by
  induction t generalizing p n with
  | nil => cases h
  | leaf w v =>
    cases h with
    | leaf _ hq =>
      rw [Node.encode, encodeOf, encodeCompact_of_data hq]
  | ext w c ih =>
    cases h with
    | extension hq hr =>
      rw [Node.encode, encodeOf, encodeCompact_of_data hq,
        hr.computeHash_of_encode fun _ => ih]
  | branch cs v ih =>
    cases h with
    | branch _ hrs =>
      rw [Node.encode, encodeOf]
      congr 2
      exact List.flatMap_congr fun i _ => by
        rw [(hrs i).computeHash_of_encode fun _ => ih i]

theorem NodeDenotes.computeHash_eq (h : NodeDenotes keccak256 Memo Stored p n t) :
    n.computeHash keccak256 = hashOf keccak256 t := by
  rw [Node.computeHash, h.encode_eq, hashOf_eq keccak256 h.ne_nil]

end Denote

end Ethrex.Mpt
