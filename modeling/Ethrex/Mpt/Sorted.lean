import Ethrex.Mpt.Trie

/-!
# Building a trie from sorted accounts

`trie_from_sorted_accounts`: one pass over pairs in key order, with a stack of open branches. When
the buffer of finished nodes is handed over is a parameter.
-/

namespace Ethrex.Mpt

/-- `StackElement`: a branch node under construction and its path. -/
structure StackElement where
  path : Nibbles
  choices : Fin 16 → NodeRef
  value : Bytes

inductive CenterSideElement where
  | branch (choices : Fin 16 → NodeRef) (value : Bytes)
  | leaf (value : Bytes)

/-- `CenterSide`: the element that is being placed and its full path. -/
structure CenterSide where
  path : Nibbles
  element : CenterSideElement

/-- `TrieGenerationError`, without the errors of writing and of joining threads, which the
function does not return. -/
inductive TrieGenerationError where
  | indexNotFound (path : Nibbles)
  | trieStackEmpty (path : Nibbles)
  deriving DecidableEq, Repr

inductive GenerationFailure where
  | error (e : TrieGenerationError)
  | panic
  deriving DecidableEq, Repr

def CenterSide.fromValue (tuple : H256 × Bytes) : CenterSide where
  path := Nibbles.fromRaw tuple.1.bytes true
  element := .leaf tuple.2

def CenterSide.fromStackElement (element : StackElement) : CenterSide where
  path := element.path
  element := .branch element.choices element.value

def isChild (this : Nibbles) (other : StackElement) : Bool :=
  this.countPrefix other.path == other.path.len

def createParent (currentNode : CenterSide) (closestNibbles : Nibbles) : StackElement where
  path := currentNode.path.slice 0 (currentNode.path.countPrefix closestNibbles)
  choices := emptyChoices
  value := []

/-- What the loop of `trie_from_sorted_accounts` keeps; the top of the stack comes first. -/
structure BuildState where
  nodesToWrite : List (Nibbles × Node)
  trieStack : List StackElement
  currentParent : StackElement
  currentNode : CenterSide

section

variable (keccak256 : Bytes → H256)

/-- The node that a parent refers to for the current element, when `path` is what lies between
them; a branch node below an extension is written on its own. -/
def CenterSide.nodeBelow (currentNode : CenterSide) (path : Nibbles) :
    List (Nibbles × Node) × Node :=
  match currentNode.element with
  | .branch choices value =>
    let branch := Node.branch choices value
    if path.isEmpty then ([], branch)
    else ([(currentNode.path, branch)],
      Node.extension path (.hash (branch.computeHash keccak256)))
  | .leaf value => ([], Node.leaf path value)

/-- `add_current_to_parent_and_write_queue`: the buffer and the parent it leaves. -/
def addCurrentToParentAndWriteQueue (nodesToWrite : List (Nibbles × Node))
    (currentNode : CenterSide) (parentElement : StackElement) :
    Except GenerationFailure (List (Nibbles × Node) × StackElement) :=
  -- a prefix that does not match leaves the path as it is
  let path := (currentNode.path.skipPrefix parentElement.path).getD currentNode.path
  match path.next with
  | (none, _) => .error (.error (.indexNotFound currentNode.path))
  | (some index, path) =>
    let topPath := parentElement.path.appendNew index
    let (written, node) := currentNode.nodeBelow keccak256 path
    if h : index.toNat < 16 then
      .ok (nodesToWrite ++ (written ++ [(topPath, node)]),
        { parentElement with
          choices := Function.update parentElement.choices ⟨index.toNat, h⟩
            (.hash (node.computeHash keccak256)) })
    else .error .panic

/-- The inner loop: parents that are no parent of the next value are closed. -/
def closeParents (nextValuePath : Nibbles) :
    List StackElement → List (Nibbles × Node) → StackElement → CenterSide →
      Except GenerationFailure BuildState
  | [], nodesToWrite, currentParent, currentNode =>
    if isChild nextValuePath currentParent then
      .ok ⟨nodesToWrite, [], currentParent, currentNode⟩
    else do
      let _ ← addCurrentToParentAndWriteQueue keccak256 nodesToWrite currentNode currentParent
      .error (.error (.trieStackEmpty currentNode.path))
  | top :: trieStack, nodesToWrite, currentParent, currentNode =>
    if isChild nextValuePath currentParent then
      .ok ⟨nodesToWrite, top :: trieStack, currentParent, currentNode⟩
    else do
      let (nodesToWrite, currentParent) ←
        addCurrentToParentAndWriteQueue keccak256 nodesToWrite currentNode currentParent
      closeParents nextValuePath trieStack nodesToWrite top (.fromStackElement currentParent)

/-- One turn of the outer loop, after the buffer was handed over if it was full. -/
def processValue (state : BuildState) (nextValue : H256 × Bytes) :
    Except GenerationFailure BuildState := do
  let nextValuePath := Nibbles.fromBytes nextValue.1.bytes
  let state ← closeParents keccak256 nextValuePath state.trieStack state.nodesToWrite
    state.currentParent state.currentNode
  if state.currentNode.path.countPrefix state.currentParent.path =
      state.currentNode.path.countPrefix nextValuePath then do
    let (nodesToWrite, currentParent) ← addCurrentToParentAndWriteQueue keccak256
      state.nodesToWrite state.currentNode state.currentParent
    .ok { nodesToWrite, trieStack := state.trieStack, currentParent,
          currentNode := .fromValue nextValue }
  else do
    let element := createParent state.currentNode nextValuePath
    let (nodesToWrite, element) ← addCurrentToParentAndWriteQueue keccak256
      state.nodesToWrite state.currentNode element
    .ok { nodesToWrite, trieStack := state.currentParent :: state.trieStack,
          currentParent := element, currentNode := .fromValue nextValue }

def processValues (flush : List (H256 × Bytes) → List (Nibbles × Node) → Bool) :
    BuildState → List (H256 × Bytes) →
      Except GenerationFailure (BuildState × List (List (Nibbles × Node)))
  | state, [] => .ok (state, [])
  | state, nextValue :: values =>
    if flush (nextValue :: values) state.nodesToWrite then do
      let batch := state.nodesToWrite
      let state ← processValue keccak256 { state with nodesToWrite := [] } nextValue
      let (state, batches) ← processValues flush state values
      .ok (state, batch :: batches)
    else do
      let state ← processValue keccak256 state nextValue
      processValues flush state values

/-- The loop that empties the stack once all values are placed. -/
def closeStack : List StackElement → List (Nibbles × Node) → StackElement →
    Except GenerationFailure (List (Nibbles × Node) × StackElement)
  | [], nodesToWrite, currentParent => .ok (nodesToWrite, currentParent)
  | parentNode :: trieStack, nodesToWrite, currentParent => do
    let (nodesToWrite, parentNode) ← addCurrentToParentAndWriteQueue keccak256 nodesToWrite
      (.fromStackElement currentParent) parentNode
    closeStack trieStack nodesToWrite parentNode

/-- The end of the function. A root with a single child is no branch: the child, which was written
last, becomes the root or gets an extension. -/
def finishRoot (nodesToWrite : List (Nibbles × Node)) (currentParent : StackElement) :
    Except GenerationFailure (H256 × List (Nibbles × Node)) :=
  let rootHash := fun (node : Node) => (node.computeHash keccak256).finalize keccak256
  match (List.finRange 16).filter fun i => (currentParent.choices i).isValid with
  | [index] =>
    match nodesToWrite.getLast? with
    | some (_, .branch _ _) =>
      let node := Node.extension (Nibbles.fromHex [nibble index]) (currentParent.choices index)
      .ok (rootHash node, nodesToWrite ++ [(Nibbles.empty, node)])
    | some (targetPath, .extension prefixPath child) =>
      let node := Node.extension (prefixPath.prepend (nibble index)) child
      .ok (rootHash node, nodesToWrite.dropLast ++ [(targetPath.next.2, node)])
    | some (targetPath, .leaf partialPath value) =>
      let node := Node.leaf (partialPath.prepend (nibble index)) value
      .ok (rootHash node, nodesToWrite.dropLast ++ [(targetPath.next.2, node)])
    | none => .error .panic
  | _ =>
    let node := Node.branch currentParent.choices currentParent.value
    .ok (rootHash node, nodesToWrite ++ [(Nibbles.empty, node)])

/-- `trie_from_sorted_accounts`: the root hash and the batches given to `put_batch_no_alloc`. -/
def trieFromSortedAccounts (flush : List (H256 × Bytes) → List (Nibbles × Node) → Bool) :
    List (H256 × Bytes) → Except GenerationFailure (H256 × List (List (Nibbles × Node)))
  | [] => .ok (emptyTrieHash, [])
  | initialValue :: values => do
    let state : BuildState :=
      { nodesToWrite := []
        trieStack := []
        currentParent := ⟨Nibbles.empty, emptyChoices, []⟩
        currentNode := .fromValue initialValue }
    let (state, batches) ← processValues keccak256 flush state values
    let (nodesToWrite, currentParent) ← addCurrentToParentAndWriteQueue keccak256
      state.nodesToWrite state.currentNode state.currentParent
    let (nodesToWrite, currentParent) ← closeStack keccak256 state.trieStack nodesToWrite
      currentParent
    let (hash, nodesToWrite) ← finishRoot keccak256 nodesToWrite currentParent
    .ok (hash, batches ++ [nodesToWrite])

end

end Ethrex.Mpt
