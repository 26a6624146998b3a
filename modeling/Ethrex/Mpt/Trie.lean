import Ethrex.Mpt.Operations

/-!
# The trie

`Trie` and `ProofTrie`, the in-memory database and the null database. Every operation returns the
trie it leaves behind.
-/

namespace Ethrex.Mpt

open Rlp

def emptyTrieHash : H256 where
  bytes := [
    0x56, 0xe8, 0x1f, 0x17, 0x1b, 0xcc, 0x55, 0xa6, 0xff, 0x83, 0x45, 0xe6, 0x92, 0xc0, 0xf8, 0x6e,
    0x5b, 0x48, 0xe0, 0x1b, 0x99, 0x6c, 0xad, 0xc0, 0x01, 0x62, 0x2f, 0xb5, 0xe3, 0x63, 0xb4, 0x21]
  size := rfl

/-- `InMemoryTrieDB`: a map from paths to encoded nodes, with an optional prefix for its keys. -/
structure InMemoryTrieDB where
  inner : List UInt8 → Option Bytes
  keyPrefix : Option Nibbles := none

namespace InMemoryTrieDB

def newEmpty : InMemoryTrieDB := { inner := fun _ => none }

def applyPrefix (db : InMemoryTrieDB) (path : Nibbles) : Nibbles :=
  match db.keyPrefix with
  | some keyPrefix => keyPrefix.concat path
  | none => path

def put (db : InMemoryTrieDB) (key : Nibbles) (value : Bytes) : InMemoryTrieDB :=
  { db with inner := Function.update db.inner (db.applyPrefix key).data (some value) }

instance : TrieDB InMemoryTrieDB where
  get db key := .ok (db.inner (db.applyPrefix key).data)
  putBatch db entries := .ok (entries.foldl (fun db e => db.put e.1 e.2) db)

end InMemoryTrieDB

structure NullTrieDB where

instance : TrieDB NullTrieDB where
  get _ _ := .ok none
  putBatch db _ := .ok db

/-- `Trie`.  The two hash sets hold the data of paths. -/
structure Trie (D : Type) where
  db : D
  root : NodeRef
  pendingRemoval : List (List UInt8)
  dirty : List (List UInt8)

namespace Trie

variable {D : Type} [TrieDB D] (keccak256 : Bytes → H256)

def new (db : D) : Trie D :=
  { db, root := NodeRef.default, pendingRemoval := [], dirty := [] }

def «open» (db : D) (root : H256) : Trie D :=
  { db
    root := if root ≠ emptyTrieHash then .hash (.hashed root) else NodeRef.default
    pendingRemoval := []
    dirty := [] }

def stateless : Trie NullTrieDB := new {}

def get (fuel : Nat) (trie : Trie D) (pathrlp : Bytes) : Result (Option Bytes) :=
  let path := Nibbles.fromBytes pathrlp
  if path.data ∉ trie.dirty ∧ TrieDB.flatkeyvalueComputed trie.db path then do
    match ← TrieDB.get trie.db path with
    | none => .ok none
    | some valueRlp => .ok (if valueRlp.isEmpty then none else some valueRlp)
  else
    match trie.root with
    | .node node _ => node.get keccak256 trie.db fuel path
    | .hash hash =>
      if hash.isValid then do
        match ← TrieDB.get trie.db Nibbles.empty with
        | none => .error (.error (.inconsistentTree (.rootNotFound (hash.finalize keccak256))))
        | some rlp => do
          let node ← Node.decode rlp
          node.get keccak256 trie.db fuel path
      else .ok none

def insert (fuel : Nat) (trie : Trie D) (path value : Bytes) : Result (Trie D) := do
  let path := Nibbles.fromBytes path
  let pendingRemoval := trie.pendingRemoval.erase path.data
  let dirty := trie.dirty.insert path.data
  let root ←
    if trie.root.isValid then do
      match ← trie.root.getNodeMut trie.db Nibbles.empty with
      | some (node, memo) => do
        let node ← node.insert keccak256 trie.db fuel path (.value value)
        pure (NodeRef.node node memo)
      | none => .error (.error (.inconsistentTree .rootNotFoundNoHash))
    else pure (NodeRef.ofNode (.leaf path value))
  .ok { trie with root := root.clearHash, pendingRemoval, dirty }

def remove (fuel : Nat) (trie : Trie D) (path : Bytes) : Result (Trie D × Option Bytes) := do
  let path := Nibbles.fromBytes path
  let trie := { trie with dirty := trie.dirty.insert path.data }
  if !trie.root.isValid then .ok (trie, none)
  else do
    let trie := { trie with pendingRemoval := trie.pendingRemoval.insert path.data }
    match ← trie.root.getNodeMut trie.db Nibbles.empty with
    | some (node, memo) => do
      let (newNode, value) ← node.remove keccak256 trie.db fuel path
      let root := match newNode with
        | some node => (NodeRef.node node memo).clearHash
        | none => NodeRef.default
      .ok ({ trie with root }, value)
    | none => .error (.error (.inconsistentTree .rootNotFoundNoHash))

/-- `Trie::hash_no_commit`: the hash, and the trie with the memos it leaves. -/
def hashNoCommit (trie : Trie D) : H256 × Trie D :=
  if trie.root.isValid then
    ((trie.root.computeHash keccak256).finalize keccak256,
      { trie with root := trie.root.memoizeHashes keccak256 })
  else (emptyTrieHash, trie)

/-- `Trie::commit_without_storing`: the entries, and the trie with the memos it leaves. -/
def commitWithoutStoring (trie : Trie D) : List (Nibbles × Bytes) × Trie D :=
  let (root, acc) :=
    if trie.root.isValid then (trie.root.commit keccak256 Nibbles.empty).2 else (trie.root, [])
  let acc :=
    if root.computeHash keccak256 = .hashed emptyTrieHash then acc ++ [(Nibbles.empty, [rlpNull])]
    else acc
  (acc ++ trie.pendingRemoval.map (fun nib => (Nibbles.fromHex nib, [])),
    { trie with root, pendingRemoval := [] })

def commit (trie : Trie D) : Result (Trie D) := do
  let (acc, trie) := trie.commitWithoutStoring keccak256
  let db ← TrieDB.putBatch trie.db acc
  .ok { trie with db }

def hash (trie : Trie D) : Result (H256 × Trie D) := do
  let trie ← trie.commit keccak256
  .ok (trie.hashNoCommit keccak256)

end Trie

/-! ### Tries under reconstruction -/

namespace ProofTrie

variable {D : Type} [TrieDB D] (keccak256 : Bytes → H256)

def insert (fuel : Nat) (trie : Trie D) (partialPath : Nibbles) (externalRef : NodeHash) :
    Result (Trie D) :=
  if trie.root.isValid then do
    match ← trie.root.getNodeMut trie.db Nibbles.empty with
    | some (node, memo) => do
      let node ← node.insert keccak256 trie.db fuel partialPath (.hash externalRef)
      .ok { trie with root := (NodeRef.node node memo).clearHash }
    | none => .error (.error (.inconsistentTree .rootNotFoundNoHash))
  else .ok { trie with root := .hash externalRef }

def hash (trie : Trie D) : H256 :=
  (trie.hashNoCommit keccak256).1

end ProofTrie

end Ethrex.Mpt
