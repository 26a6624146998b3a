import Ethrex.Mpt.Nibbles

/-!
# Failures

Besides returning a `TrieError` the source can panic. Recursion through the database need not end
on arbitrary data, so the model carries fuel and reports `outOfFuel`.
-/

namespace Ethrex.Mpt

structure ExtensionNodeErrorData where
  nodeHash : H256
  extensionNodeHash : H256
  extensionNodePrefix : Nibbles
  nodePath : Nibbles
  deriving DecidableEq, Repr

inductive InconsistentTreeError where
  | extensionNodeChildDiffers (data : ExtensionNodeErrorData)
  | extensionNodeChildNotFound (data : ExtensionNodeErrorData)
  | nodeNotFoundOnBranchNode (nodeHash branchHash : H256) (path : Nibbles)
  | rootNotFound (hash : H256)
  | rootNotFoundNoHash
  deriving DecidableEq, Repr

/-- `NodeHash`: the hash of a node, or the node itself when its encoding is below 32 bytes. -/
inductive NodeHash where
  | hashed (hash : H256)
  | inline (data : { data : Bytes // data.length < 32 })
  deriving DecidableEq, Repr

/-- The messages of `TrieError::Verify`, with the values they print. -/
inductive VerifyError where
  | inconsistentProofData (keys values : Nat)
  | notMonotonicallyIncreasing
  | emptyValue
  | invalidProof (expected got : H256)
  | moreKeysAvailable
  | invalidKey
  | invalidData
  | invalidEdgeKeys
  | rootNodeMissing (root : NodeHash)
  | proofNodeMissing (hash : NodeHash)
  | overrideProofNode
  deriving DecidableEq, Repr

inductive TrieError where
  | rlpDecode (e : Rlp.RLPDecodeError)
  | verify (e : VerifyError)
  | inconsistentTree (e : InconsistentTreeError)
  | lockError
  | dbError
  deriving DecidableEq, Repr

inductive Failure where
  | error (e : TrieError)
  | panic
  | outOfFuel
  deriving DecidableEq, Repr

abbrev Result := Except Failure

namespace Result

/-- The `?` operator on an RLP decoding result. -/
def ofRlp {α : Type} : Except Rlp.RLPDecodeError α → Result α
  | .ok a => .ok a
  | .error e => .error (.error (.rlpDecode e))

@[simp] theorem ofRlp_ok {α : Type} (a : α) : ofRlp (.ok a) = .ok a := rfl

@[simp] theorem ok_bind {ε α β : Type} (a : α) (f : α → Except ε β) :
    (Except.ok a >>= f) = f a := rfl

@[simp] theorem pure_eq_ok {ε α : Type} (a : α) : (pure a : Except ε α) = .ok a := rfl

end Result

end Ethrex.Mpt
