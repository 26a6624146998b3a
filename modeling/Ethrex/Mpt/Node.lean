import Ethrex.Mpt.Error

/-!
# Trie nodes

A reference embeds a node with the hash memoized for it, or names a node by its hash. The memo is a
`OnceLock`; here `memoizeHashes` is that effect and `computeHash` the value.
-/

namespace Ethrex.Mpt

open Rlp

namespace NodeHash

def default : NodeHash := .inline ⟨[], by decide⟩

/-- `NodeHash::from_slice`; `H256::from_slice` panics above 32 bytes. -/
def fromSlice (slice : Bytes) : Result NodeHash :=
  if h : slice.length < 32 then .ok (.inline ⟨slice, h⟩)
  else if h : slice.length = 32 then .ok (.hashed ⟨slice, h⟩)
  else .error .panic

def fromEncoded (keccak256 : Bytes → H256) (encoded : Bytes) : NodeHash :=
  if h : encoded.length < 32 then .inline ⟨encoded, h⟩ else .hashed (keccak256 encoded)

def finalize (keccak256 : Bytes → H256) : NodeHash → H256
  | .hashed hash => hash
  | .inline data => keccak256 data.val

def isValid : NodeHash → Bool
  | .hashed _ => true
  | .inline data => !data.val.isEmpty

def encodeChoice : NodeHash → Bytes
  | .hashed hash => encodeBytes hash.bytes
  | .inline data => if data.val.isEmpty then [rlpNull] else data.val

/-- `NodeHash::encode`: a child as an extension node writes it. -/
def encode : NodeHash → Bytes
  | .hashed hash => encodeBytes hash.bytes
  | .inline data => data.val

end NodeHash

mutual

inductive NodeRef where
  | node (node : Node) (hash : Option NodeHash)
  | hash (hash : NodeHash)

/-- `Node`: `BranchNode`, `ExtensionNode` and `LeafNode`. -/
inductive Node where
  | branch (choices : Fin 16 → NodeRef) (value : Bytes)
  | extension (prefixPath : Nibbles) (child : NodeRef)
  | leaf (partialPath : Nibbles) (value : Bytes)

end

namespace NodeRef

def default : NodeRef := .hash NodeHash.default

def ofNode (node : Node) : NodeRef := .node node none

def isValid : NodeRef → Bool
  | .node _ _ => true
  | .hash h => h.isValid

def clearHash : NodeRef → NodeRef
  | .node n _ => .node n none
  | .hash h => .hash h

end NodeRef

def emptyChoices : Fin 16 → NodeRef := fun _ => NodeRef.default

def nibble (i : Fin 16) : UInt8 := UInt8.ofNat i.val

section Hash

variable (keccak256 : Bytes → H256)

mutual

/-- `NodeRef::compute_hash`: the memo when there is one. -/
def NodeRef.computeHash : NodeRef → NodeHash
  | .node _ (some h) => h
  | .node n none => NodeHash.fromEncoded keccak256 n.encode
  | .hash h => h

def Node.encode : Node → Bytes
  | .branch choices value =>
    encodeList ((List.finRange 16).flatMap (fun i => (choices i).computeHash.encodeChoice)
      ++ encodeBytes value)
  | .extension prefixPath child =>
    encodeList (encodeBytes prefixPath.encodeCompact ++ child.computeHash.encode)
  | .leaf partialPath value =>
    encodeList (encodeBytes partialPath.encodeCompact ++ encodeBytes value)

end

def Node.computeHash (node : Node) : NodeHash :=
  NodeHash.fromEncoded keccak256 (node.encode keccak256)

mutual

def NodeRef.memoizeHashes : NodeRef → NodeRef
  | .node n (some h) => .node n (some h)
  | .node n none =>
    let n := n.memoizeHashes
    .node n (some (n.computeHash keccak256))
  | .hash h => .hash h

def Node.memoizeHashes : Node → Node
  | .branch choices value => .branch (fun i => (choices i).memoizeHashes) value
  | .extension prefixPath child => .extension prefixPath child.memoizeHashes
  | .leaf partialPath value => .leaf partialPath value

end

mutual

/-- `NodeRef::commit`: the hash, the reference with its memos filled, and the entries pushed. A
memoized subtree is skipped. -/
def NodeRef.commit : NodeRef → Nibbles → NodeHash × NodeRef × List (Nibbles × Bytes)
  | .node n (some h), _ => (h, .node n (some h), [])
  | .node n none, path =>
    let (n, acc) := n.commitChildren path
    let buf := n.encode keccak256
    let h := NodeHash.fromEncoded keccak256 buf
    let leafEntry := match n with
      | .leaf partialPath value => [(path.concat partialPath, value)]
      | _ => []
    (h, .node n (some h), acc ++ leafEntry ++ [(path, buf)])
  | .hash h, _ => (h, .hash h, [])

/-- The descent of `NodeRef::commit` into the children of a node. -/
def Node.commitChildren : Node → Nibbles → Node × List (Nibbles × Bytes)
  | .branch choices value, path =>
    (.branch (fun i => ((choices i).commit (path.appendNew (nibble i))).2.1) value,
      (List.finRange 16).flatMap fun i => ((choices i).commit (path.appendNew (nibble i))).2.2)
  | .extension prefixPath child, path =>
    let (_, child, acc) := child.commit (path.concat prefixPath)
    (.extension prefixPath child, acc)
  | .leaf partialPath value, _ => (.leaf partialPath value, [])

end

end Hash

def decodeChild (rlp : Bytes) : Result NodeHash :=
  match decodeBytes rlp with
  | .ok (hash, []) =>
    if hash.length = 32 then NodeHash.fromSlice hash
    else if hash = [] then .ok NodeHash.default
    else NodeHash.fromSlice rlp
  | _ => NodeHash.fromSlice rlp

/-- The loop of `Node::decode_unfinished` that splits the list into at most `n` items. -/
def decodeItems : Nat → Decoder → Except RLPDecodeError (List Bytes × Decoder)
  | 0, decoder => .ok ([], decoder)
  | n + 1, decoder =>
    if decoder.isDone then .ok ([], decoder)
    else do
      let (item, decoder) ← decoder.getEncodedItemRef
      let (items, decoder) ← decodeItems n decoder
      .ok (item :: items, decoder)

def Node.ofItems (items : List Bytes) : Result Node :=
  match items with
  | [pathItem, item] => do
    let (path, _) ← Result.ofRlp (decodeBytes pathItem)
    let path := Nibbles.decodeCompact path
    if path.isLeaf then do
      let (value, _) ← Result.ofRlp (decodeBytes item)
      .ok (.leaf path value)
    else do
      let child ← decodeChild item
      .ok (.extension path (.hash child))
  | _ =>
    if items.length = 17 then do
      let hashes ← (items.take 16).mapM decodeChild
      let (value, _) ← Result.ofRlp (decodeBytes (items.getD 16 []))
      .ok (.branch (fun i => .hash (hashes.getD i NodeHash.default)) value)
    else
      let n := items.length
      .error (.error (.rlpDecode
        (.custom s!"Invalid arg count for Node, expected 2 or 17, got {n}")))

def Node.decodeUnfinished (rlp : Bytes) : Result (Node × Bytes) := do
  let decoder ← Result.ofRlp (Decoder.new rlp)
  let (items, decoder) ← Result.ofRlp (decodeItems 17 decoder)
  if !decoder.isDone then
    .error (.error (.rlpDecode
      (.custom "Invalid arg count for Node, expected 2 or 17, got more than 17")))
  else do
    let node ← Node.ofItems items
    let rest ← Result.ofRlp decoder.finish
    .ok (node, rest)

def Node.decode (rlp : Bytes) : Result Node := do
  let (node, rest) ← Node.decodeUnfinished rlp
  if rest.isEmpty then .ok node else .error (.error (.rlpDecode .invalidLength))

end Ethrex.Mpt
