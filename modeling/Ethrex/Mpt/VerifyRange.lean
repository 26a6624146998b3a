import Ethrex.Mpt.Trie

/-!
# Range proofs

The walk over the edge proofs collects the references outside of the range, and the trie is rebuilt
from these and the range. One unit of fuel per queued node.
-/

namespace Ethrex.Mpt

/-- `RangeProof`: the proof nodes by their hash. -/
structure RangeProof where
  nodeRefs : H256 → Option Bytes

/-- `RangeProof::from`: of two nodes with the same hash the later one stays. -/
def RangeProof.ofNodes (keccak256 : Bytes → H256) (proof : List Bytes) : RangeProof where
  nodeRefs := proof.foldl (fun refs node => Function.update refs (keccak256 node) (some node))
    fun _ => none

def RangeProof.getNode (proof : RangeProof) (hash : NodeHash) : Result (Option Node) :=
  let encodedNode := match hash with
    | .hashed hash => proof.nodeRefs hash
    | .inline data => some data.val
  match encodedNode with
  | some encoded => some <$> Node.decode encoded
  | none => .ok none

structure ProofProcessingResult where
  externalReferences : List (Nibbles × NodeHash)
  leftValue : Bytes
  numRightReferences : Nat

/-- The local variables of `process_proof_nodes`. -/
structure ProofWalk where
  stack : List (Nibbles × Node)
  externalReferences : List (Nibbles × NodeHash) := []
  leftValue : Bytes := []
  numRightReferences : Nat := 0

namespace ProofWalk

def addReference (walk : ProofWalk) (path : Nibbles) (hash : NodeHash) : ProofWalk :=
  { walk with externalReferences := walk.externalReferences ++ [(path, hash)] }

def push (walk : ProofWalk) (path : Nibbles) (node : Node) : ProofWalk :=
  { walk with stack := walk.stack ++ [(path, node)] }

end ProofWalk

/-- What one walk is about: the proof, its two bounds and the first key of the range. -/
structure RangeWalk where
  proof : RangeProof
  leftBound : Nibbles
  rightBound : Nibbles
  firstKey : Option Nibbles

def extendByLeaf (partialPath : Nibbles) : Node → Nibbles
  | .leaf partialLeaf _ => partialPath.extend partialLeaf
  | _ => partialPath

namespace RangeWalk

variable (range : RangeWalk)

/-- The arm of `visit_child_node` for a node that the proof has. -/
def visitFound (walk : ProofWalk) (partialPath : Nibbles) (hash : NodeHash) (node : Node) :
    ProofWalk :=
  if range.firstKey.any fun fk => (fk.comparePrefix partialPath).isGT then
    walk.addReference partialPath hash
  else
    let partialPath := extendByLeaf partialPath node
    let walk :=
      if (range.rightBound.comparePrefix partialPath).isLT then walk.addReference partialPath hash
      else walk
    walk.push partialPath node

/-- `visit_child_node`: the count it returns is the second component. -/
def visitChildNode (walk : ProofWalk) (partialPath : Nibbles) (child : NodeRef) :
    Result (ProofWalk × Nat) :=
  let cmpL := range.leftBound.comparePrefix partialPath
  let cmpR := range.rightBound.comparePrefix partialPath
  if cmpL.isLT ∧ cmpR.isGT then .ok (walk, 0)
  else
    match child with
    | .node _ _ => .error .panic
    | .hash hash => do
      let nRightReferences := if cmpL.isLT ∧ cmpR.isLT then 1 else 0
      match ← range.proof.getNode hash with
      | some node => .ok (range.visitFound walk partialPath hash node, nRightReferences)
      | none =>
        if cmpL.isEq ∨ cmpR.isEq then .error (.error (.verify (.proofNodeMissing hash)))
        else .ok (walk.addReference partialPath hash, nRightReferences)

/-- A visit that adds the count to `num_right_references`. -/
def visit (walk : ProofWalk) (partialPath : Nibbles) (child : NodeRef) : Result ProofWalk := do
  let (walk, n) ← range.visitChildNode walk partialPath child
  .ok { walk with numRightReferences := walk.numRightReferences + n }

def visitChoices (currentPath : Nibbles) (choices : Fin 16 → NodeRef) :
    List (Fin 16) → ProofWalk → Result ProofWalk
  | [], walk => .ok walk
  | i :: is, walk =>
    if !(choices i).isValid then visitChoices currentPath choices is walk
    else do
      let walk ← range.visit walk (currentPath.appendNew (nibble i)) (choices i)
      visitChoices currentPath choices is walk

/-- One turn of the loop of `process_proof_nodes`: the children are visited, and the value is kept
at the left bound. -/
def visitNode (walk : ProofWalk) (currentPath : Nibbles) (node : Node) : Result ProofWalk := do
  let (currentPath, value, walk) ← match node with
    | .branch choices value => do
      let walk ← range.visitChoices currentPath choices (List.finRange 16) walk
      pure (currentPath, value, walk)
    | .extension prefixPath child => do
      let currentPath := currentPath.extend prefixPath
      let walk ← range.visit walk currentPath child
      pure (currentPath, [], walk)
    | .leaf _ value => pure (currentPath, value, walk)
  if !value.isEmpty ∧ currentPath.data = range.leftBound.data then
    .ok { walk with leftValue := value }
  else .ok walk

def processStack (fuel : Nat) (walk : ProofWalk) : Result ProofProcessingResult :=
  match walk.stack, fuel with
  | [], _ => .ok ⟨walk.externalReferences, walk.leftValue, walk.numRightReferences⟩
  | _ :: _, 0 => .error .outOfFuel
  | (currentPath, node) :: stack, fuel + 1 => do
    let walk ← range.visitNode { walk with stack } currentPath node
    processStack fuel walk

end RangeWalk

section

variable (keccak256 : Bytes → H256)

/-- The bounds and proof in the form the loop uses. Without a right bound the left bound is used. -/
def rangeWalk (rawProof : List Bytes) (leftBound : H256) (rightBound firstKey : Option H256) :
    RangeWalk where
  proof := RangeProof.ofNodes keccak256 rawProof
  leftBound := Nibbles.fromBytes leftBound.bytes
  rightBound := Nibbles.fromBytes (rightBound.getD leftBound).bytes
  firstKey := firstKey.map fun key => Nibbles.fromBytes key.bytes

def processProofNodes (fuel : Nat) (rawProof : List Bytes) (root : NodeHash) (leftBound : H256)
    (rightBound firstKey : Option H256) : Result ProofProcessingResult := do
  let range := rangeWalk keccak256 rawProof leftBound rightBound firstKey
  match ← range.proof.getNode root with
  | some node => range.processStack fuel { stack := [(Nibbles.empty, node)] }
  | none => .error (.error (.verify (.rootNodeMissing root)))

def insertRange (fuel : Nat) (trie : Trie NullTrieDB) :
    List (H256 × Bytes) → Result (Trie NullTrieDB)
  | [] => .ok trie
  | (key, value) :: entries => do
    let trie ← trie.insert keccak256 fuel key.bytes value
    insertRange fuel trie entries

def insertReferences (fuel : Nat) (trie : Trie NullTrieDB) :
    List (Nibbles × NodeHash) → Result (Trie NullTrieDB)
  | [] => .ok trie
  | (partialPath, externalRef) :: refs => do
    let trie ← ProofTrie.insert keccak256 fuel trie partialPath externalRef
    insertReferences fuel trie refs

/-- The trie that the regular case rebuilds, with the result of the walk. -/
def rebuild (fuel : Nat) (root leftBound lastKey firstKey : H256) (entries : List (H256 × Bytes))
    (proof : List Bytes) : Result (ProofProcessingResult × Trie NullTrieDB) := do
  let result ← processProofNodes keccak256 fuel proof (.hashed root) leftBound (some lastKey)
    (some firstKey)
  let trie ← insertRange keccak256 fuel Trie.stateless entries
  let trie ← insertReferences keccak256 fuel trie result.externalReferences
  .ok (result, trie)

def verifyRange (fuel : Nat) (root leftBound : H256) (keys : List H256) (values proof : List Bytes) :
    Result Bool :=
  if keys.length ≠ values.length then
    .error (.error (.verify (.inconsistentProofData keys.length values.length)))
  else if (keys.zip keys.tail).any fun w => w.1 ≥ w.2 then
    .error (.error (.verify .notMonotonicallyIncreasing))
  else if values.any List.isEmpty then
    .error (.error (.verify .emptyValue))
  else if proof.isEmpty then do
    -- no proof: the range is the whole trie
    let trie ← insertRange keccak256 fuel Trie.stateless (keys.zip values)
    let (hash, _) ← trie.hash keccak256
    if hash ≠ root then .error (.error (.verify (.invalidProof root hash))) else .ok false
  else
    match keys with
    | [] => do
      -- no range: the proof shows that nothing is at the left bound or to its right
      let result ← processProofNodes keccak256 fuel proof (.hashed root) leftBound none none
      if result.numRightReferences > 0 ∨ !result.leftValue.isEmpty then
        .error (.error (.verify .moreKeysAvailable))
      else .ok false
    | firstKey :: rest =>
      let lastKey := (firstKey :: rest).getLast (List.cons_ne_nil firstKey rest)
      if (firstKey :: rest).length = 1 ∧ leftBound = lastKey then
        if leftBound ≠ firstKey then .error (.error (.verify .invalidKey))
        else do
          let result ← processProofNodes keccak256 fuel proof (.hashed root) leftBound
            (some lastKey) (some firstKey)
          if values.head? ≠ some result.leftValue then .error (.error (.verify .invalidData))
          else .ok (decide (result.numRightReferences > 0))
      else if leftBound ≥ lastKey then .error (.error (.verify .invalidEdgeKeys))
      else do
        let (result, trie) ← rebuild keccak256 fuel root leftBound lastKey firstKey
          ((firstKey :: rest).zip values) proof
        let hash := ProofTrie.hash keccak256 trie
        if hash ≠ root then .error (.error (.verify (.invalidProof root hash)))
        else .ok (decide (result.numRightReferences > 0))

end

end Ethrex.Mpt
