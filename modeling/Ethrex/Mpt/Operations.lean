import Ethrex.Mpt.Node

/-!
# Operations on nodes

Each function of a node kind takes the recursive call as an argument; those of `Node` tie the knot
with fuel, one unit per node.
-/

namespace Ethrex.Mpt

/-- The trait `TrieDB`: reads by path and batched writes. -/
class TrieDB (D : Type) where
  get : D → Nibbles → Result (Option Bytes)
  putBatch : D → List (Nibbles × Bytes) → Result D
  flatkeyvalueComputed : D → Nibbles → Bool := fun _ _ => false

inductive ValueOrHash where
  | value (value : Bytes)
  | hash (hash : NodeHash)

section

variable {D : Type} [TrieDB D] (keccak256 : Bytes → H256) (db : D)

/-- The node stored at a path; an empty entry counts as absent. -/
def getStoredNode (path : Nibbles) : Result (Option Node) := do
  match ← TrieDB.get db path with
  | some rlp => if rlp.isEmpty then .ok none else some <$> Node.decode rlp
  | none => .ok none

def NodeRef.getNode (ref : NodeRef) (path : Nibbles) : Result (Option Node) :=
  match ref with
  | .node n _ => .ok (some n)
  | .hash (.inline data) => some <$> Node.decode data.val
  | .hash (.hashed _) => getStoredNode db path

/-- `NodeRef::get_node_mut`: the resolved node and the memo its reference then carries. -/
def NodeRef.getNodeMut (ref : NodeRef) (path : Nibbles) :
    Result (Option (Node × Option NodeHash)) :=
  match ref with
  | .node n memo => .ok (some (n, memo))
  | .hash (.inline data) => do
    let n ← Node.decode data.val
    .ok (some (n, some (.inline data)))
  | .hash (.hashed h) => do
    match ← getStoredNode db path with
    | some n => .ok (some (n, some (.hashed h)))
    | none => .ok none

def nodeNotFoundOnBranchNode (child : NodeRef) (branch : Node) (path : Nibbles) : Failure :=
  .error (.inconsistentTree (.nodeNotFoundOnBranchNode
    ((child.computeHash keccak256).finalize keccak256)
    ((branch.computeHash keccak256).finalize keccak256) path))

def extensionNodeErrorData (child : NodeRef) (prefixPath : Nibbles) (ext : Node)
    (path : Nibbles) : ExtensionNodeErrorData where
  nodeHash := (child.computeHash keccak256).finalize keccak256
  extensionNodeHash := (ext.computeHash keccak256).finalize keccak256
  extensionNodePrefix := prefixPath
  nodePath := path

def extensionNodeChildNotFound (child : NodeRef) (prefixPath : Nibbles) (ext : Node)
    (path : Nibbles) : Failure :=
  .error (.inconsistentTree (.extensionNodeChildNotFound
    (extensionNodeErrorData keccak256 child prefixPath ext path)))

/-- Writing a choice; an index that is no choice panics. -/
def setChoice (choices : Fin 16 → NodeRef) (i : Nat) (ref : NodeRef) :
    Result (Fin 16 → NodeRef) :=
  if h : i < 16 then .ok (Function.update choices ⟨i, h⟩ ref) else .error .panic

variable (rec : Node → Nibbles → Result (Option Node × Option Bytes))

namespace BranchNode

def get (rec : Node → Nibbles → Result (Option Bytes)) (choices : Fin 16 → NodeRef)
    (value : Bytes) (path : Nibbles) : Result (Option Bytes) :=
  match path.nextChoice with
  | (some choice, path) =>
    let childRef := choices choice
    if childRef.isValid then do
      match ← childRef.getNode db path.current with
      | some childNode => rec childNode path
      | none =>
        .error (nodeNotFoundOnBranchNode keccak256 childRef (.branch choices value) path.current)
    else .ok none
  | (none, _) => .ok (if value.isEmpty then none else some value)

/-- The arm of `BranchNode::insert` that delegates to an existing child. -/
def insertChild (rec : Node → Nibbles → ValueOrHash → Result Node)
    (choices : Fin 16 → NodeRef) (value : Bytes) (choice : Fin 16) (path : Nibbles)
    (new : ValueOrHash) : Result Node := do
  match ← (choices choice).getNodeMut db path.current with
  | some (choiceNode, memo) =>
    let choiceNode ← rec choiceNode path new
    .ok (.branch (Function.update choices choice (NodeRef.node choiceNode memo).clearHash) value)
  | none =>
    .error (nodeNotFoundOnBranchNode keccak256 (choices choice) (.branch choices value)
      path.current)

/-- `BranchNode::insert`.  A hash at the end of the path is a `todo!` of the source. -/
def insert (rec : Node → Nibbles → ValueOrHash → Result Node) (choices : Fin 16 → NodeRef)
    (value : Bytes) (path : Nibbles) (new : ValueOrHash) : Result Node :=
  match path.nextChoice, new with
  | (some choice, path), .value v =>
    if (choices choice).isValid then
      insertChild keccak256 db rec choices value choice path (.value v)
    else
      .ok (.branch (Function.update choices choice (NodeRef.ofNode (.leaf path v))) value)
  | (some choice, path), .hash h =>
    if !(choices choice).isValid then
      .ok (.branch (Function.update choices choice (.hash h)) value)
    else if path.isEmpty then
      .error (.error (.verify .overrideProofNode))
    else insertChild keccak256 db rec choices value choice path (.hash h)
  | (none, _), .value v => .ok (.branch choices v)
  | (none, _), .hash _ => .error .panic

/-- The choice of a child after a removal: the default reference once its subtrie is empty. -/
def removedChoice (memo : Option NodeHash) : Option Node → NodeRef
  | some childNode => .node childNode memo
  | none => NodeRef.default

variable (choices : Fin 16 → NodeRef)

def children : List (Fin 16) :=
  (List.finRange 16).filter fun i => (choices i).isValid

/-- The first step of `BranchNode::remove`: the removal itself. -/
def removeValue
    (value : Bytes) (path : Nibbles) :
    Result ((Fin 16 → NodeRef) × Bytes × Option Bytes) :=
  match path.nextChoice with
  | (some choice, path) =>
    if (choices choice).isValid then do
      match ← (choices choice).getNodeMut db path.current with
      | some (childNode, memo) =>
        let (newChild, oldValue) ← rec childNode path
        let ref := (removedChoice memo newChild).clearHash
        .ok (Function.update choices choice ref, value, oldValue)
      | none =>
        .error (nodeNotFoundOnBranchNode keccak256 (choices choice) (.branch choices value)
          path.current)
    else .ok (choices, value, none)
  | (none, _) =>
    if value.isEmpty then .ok (choices, value, none) else .ok (choices, [], some value)

/-- The second step of `BranchNode::remove`: the branch is replaced when it has one entry left. -/
def restructure (value : Bytes) (basePath : Nibbles) :
    Result Node :=
  match children choices, value.isEmpty with
  | [], false => .ok (.leaf (Nibbles.fromHex [16]) value)
  | [choice], true => do
    match ← (choices choice).getNodeMut db (basePath.current.appendNew (nibble choice)) with
    | some (child, memo) =>
      match child with
      | .branch _ _ => .ok (.extension (Nibbles.fromHex [nibble choice]) (.node child memo))
      | .extension prefixPath child => .ok (.extension (prefixPath.prepend (nibble choice)) child)
      | .leaf partialPath value => .ok (.leaf (partialPath.prepend (nibble choice)) value)
    | none =>
      .error (nodeNotFoundOnBranchNode keccak256 (choices choice) (.branch choices value)
        basePath.current)
  | _, _ => .ok (.branch choices value)

def remove
    (value : Bytes) (path : Nibbles) :
    Result (Option Node × Option Bytes) := do
  let (choices, value, oldValue) ← removeValue keccak256 db rec choices value path
  let node ← restructure keccak256 db choices value path
  .ok (some node, oldValue)

end BranchNode

namespace ExtensionNode

def get (rec : Node → Nibbles → Result (Option Bytes)) (prefixPath : Nibbles) (child : NodeRef)
    (path : Nibbles) : Result (Option Bytes) :=
  match path.skipPrefix prefixPath with
  | some path => do
    match ← child.getNode db path.current with
    | some childNode => rec childNode path
    | none =>
      .error (extensionNodeChildNotFound keccak256 child prefixPath (.extension prefixPath child)
        path.current)
  | none => .ok none

/-- The branch node that replaces an extension node whose prefix shares nothing with the path. -/
def splitBranch (prefixPath : Nibbles) (child : NodeRef) (path : Nibbles) : Result Node := do
  let newNode :=
    if prefixPath.len = 1 then child
    else NodeRef.ofNode (.extension (prefixPath.offset 1) child)
  match prefixPath.at? 0 with
  | none => .error .panic
  | some first =>
    if first = 16 then
      match ← newNode.getNodeMut db path.current with
      | some (.leaf _ value, _) => .ok (.branch emptyChoices value)
      | some _ =>
        .error (.error (.inconsistentTree (.extensionNodeChildDiffers
          (extensionNodeErrorData keccak256 newNode prefixPath (.extension prefixPath child)
            path.current))))
      | none =>
        .error (extensionNodeChildNotFound keccak256 newNode prefixPath
          (.extension prefixPath child) path.current)
    else do
      let choices ← setChoice emptyChoices first newNode
      .ok (.branch choices [])

def insert (rec : Node → Nibbles → ValueOrHash → Result Node) (prefixPath : Nibbles)
    (child : NodeRef) (path : Nibbles) (new : ValueOrHash) : Result Node :=
  let matchIndex := path.countPrefix prefixPath
  if matchIndex = prefixPath.len then
    let path := path.offset matchIndex
    do
    match ← child.getNodeMut db path.current with
    | some (childNode, memo) =>
      let childNode ← rec childNode path new
      .ok (.extension prefixPath (NodeRef.node childNode memo).clearHash)
    | none =>
      .error (extensionNodeChildNotFound keccak256 child prefixPath (.extension prefixPath child)
        path.current)
  else if matchIndex = 0 then do
    let branchNode ← splitBranch keccak256 db prefixPath child path
    rec branchNode path new
  else do
    let newExtension := Node.extension (prefixPath.offset matchIndex) child
    let newNode ← rec newExtension (path.offset matchIndex) new
    .ok (.extension (prefixPath.slice 0 matchIndex) (NodeRef.ofNode newNode))

def remove (prefixPath : Nibbles)
    (child : NodeRef) (path : Nibbles) : Result (Option Node × Option Bytes) :=
  match path.skipPrefix prefixPath with
  | some path => do
    match ← child.getNodeMut db path.current with
    | some (childNode, _) =>
      let (newChild, oldValue) ← rec childNode path
      match newChild with
      | none => .ok (none, oldValue)
      | some (.branch choices value) =>
        .ok (some (.extension prefixPath (NodeRef.ofNode (.branch choices value))), oldValue)
      | some (.extension childPrefix child) =>
        .ok (some (.extension (prefixPath.extend childPrefix) child), oldValue)
      | some (.leaf partialPath value) =>
        .ok (some (.leaf (prefixPath.extend partialPath) value), oldValue)
    | none =>
      .error (extensionNodeChildNotFound keccak256 child prefixPath (.extension prefixPath child)
        path.current)
  | none => .ok (some (.extension prefixPath child), none)

end ExtensionNode

namespace LeafNode

variable (partialPath : Nibbles) (value : Bytes) (path : Nibbles)

def get : Option Bytes :=
  if partialPath.data = path.data then some value else none

def newChoice (new : ValueOrHash) : NodeRef :=
  match new with
  | .value v => NodeRef.ofNode (.leaf path v)
  | .hash h => .hash h

/-- The branch node of `LeafNode::insert` at the index where the two paths part.  A hash at the
end of the path is a `todo!` of the source. -/
def splitBranch (new : ValueOrHash)
    (matchIndex : Nat) : Result Node :=
  match partialPath.at? matchIndex, path.at? matchIndex with
  | some selfChoiceIdx, some newLeafChoiceIdx =>
    let self := NodeRef.ofNode (.leaf (partialPath.offset (matchIndex + 1)) value)
    let newRef := newChoice (path.offset (matchIndex + 1)) new
    if selfChoiceIdx = 16 then do
      let choices ← setChoice emptyChoices newLeafChoiceIdx newRef
      .ok (.branch choices value)
    else if newLeafChoiceIdx = 16 then do
      let choices ← setChoice emptyChoices selfChoiceIdx self
      match new with
      | .value v => .ok (.branch choices v)
      | .hash _ => .error .panic
    else do
      let choices ← setChoice emptyChoices newLeafChoiceIdx newRef
      let choices ← setChoice choices selfChoiceIdx self
      .ok (.branch choices [])
  | _, _ => .error .panic

def insert (new : ValueOrHash) :
    Result Node :=
  if partialPath.data = path.data then
    match new with
    | .value v => .ok (.leaf partialPath v)
    | .hash _ => .error (.error (.verify .overrideProofNode))
  else do
    let matchIndex := path.countPrefix partialPath
    let branchNode ← splitBranch partialPath value path new matchIndex
    if matchIndex = 0 then .ok branchNode
    else .ok (.extension (path.slice 0 matchIndex) (NodeRef.ofNode branchNode))

def remove :
    Option Node × Option Bytes :=
  if partialPath.data = path.data then (none, some value)
  else (some (.leaf partialPath value), none)

end LeafNode

namespace Node

def get : Nat → Node → Nibbles → Result (Option Bytes)
  | 0, _, _ => .error .outOfFuel
  | fuel + 1, node, path =>
    match node with
    | .branch choices value => BranchNode.get keccak256 db (get fuel) choices value path
    | .extension prefixPath child =>
      ExtensionNode.get keccak256 db (get fuel) prefixPath child path
    | .leaf partialPath value => .ok (LeafNode.get partialPath value path)

def insert : Nat → Node → Nibbles → ValueOrHash → Result Node
  | 0, _, _, _ => .error .outOfFuel
  | fuel + 1, node, path, new =>
    match node with
    | .branch choices value => BranchNode.insert keccak256 db (insert fuel) choices value path new
    | .extension prefixPath child =>
      ExtensionNode.insert keccak256 db (insert fuel) prefixPath child path new
    | .leaf partialPath value => LeafNode.insert partialPath value path new

/-- `Node::remove`: the node that is left, or nothing when the subtrie became empty, and the
removed value. -/
def remove : Nat → Node → Nibbles → Result (Option Node × Option Bytes)
  | 0, _, _ => .error .outOfFuel
  | fuel + 1, node, path =>
    match node with
    | .branch choices value => BranchNode.remove keccak256 db (remove fuel) choices value path
    | .extension prefixPath child =>
      ExtensionNode.remove keccak256 db (remove fuel) prefixPath child path
    | .leaf partialPath value => .ok (LeafNode.remove partialPath value path)

end Node

end

end Ethrex.Mpt
