import Ethrex.Block.Header
import Ethrex.Mpt.Trie

/-!
# The state of the guest program

Maps only read by key are functions; the headers are an ordered map. Tries keep the hashes they
memoize, so a read that hashes returns the state it leaves. Recursion through nodes carries fuel.
-/

namespace Ethrex

open Rlp Mpt

def emptyKeccakHash : H256 :=
  .ofNat 0xc5d2460186f7233c927e7db2dcc703c0e500b653ca82273b7bfad8045d85a470

structure AccountState where
  nonce : U64 := 0
  balance : U256 := 0
  storageRoot : H256 := emptyTrieHash
  codeHash : H256 := emptyKeccakHash
  deriving DecidableEq

namespace AccountState

def encode (account : AccountState) : Bytes :=
  encodeList (encodeUint account.nonce ++ encodeUint account.balance ++
    encodeBytes account.storageRoot.bytes ++ encodeBytes account.codeHash.bytes)

def decodeUnfinished (rlp : Bytes) : Except RLPDecodeError (AccountState × Bytes) := do
  let decoder ← Decoder.new rlp
  let (nonce, decoder) ← decoder.decodeField "nonce" "u64" decodeU64
  let (balance, decoder) ← decoder.decodeField "balance" "primitive_types::U256" decodeU256
  let (storageRoot, decoder) ←
    decoder.decodeField "storage_root" "primitive_types::H256" decodeH256
  let (codeHash, decoder) ← decoder.decodeField "code_hash" "primitive_types::H256" decodeH256
  let rest ← decoder.finish
  .ok ({ nonce, balance, storageRoot, codeHash }, rest)

def decode (rlp : Bytes) : Except RLPDecodeError AccountState := decodeAll decodeUnfinished rlp

end AccountState

structure Code where
  hash : H256
  bytecode : Bytes
  deriving DecidableEq

structure AccountInfo where
  codeHash : H256
  balance : U256
  nonce : U64
  deriving DecidableEq

/-- `AccountUpdate`.  The added storage is in the order in which the hash map yields it. -/
structure AccountUpdate where
  address : Address
  removed : Bool := false
  info : Option AccountInfo := none
  code : Option Code := none
  addedStorage : List (H256 × U256) := []
  removedStorage : Bool := false
  deriving DecidableEq

namespace Guest

/-! ### The state and its witness -/

structure ExecutionWitness where
  codes : List Bytes
  blockHeadersBytes : List Bytes
  firstBlockNumber : U64
  stateTrieRoot : Option Node
  storageTrieRoots : H256 → Option Node

inductive GuestProgramStateError where
  | database (msg : String)
  | databaseTrie (e : Failure)
  | noBlockHeaders
  | missingParentHeaderOf (number : U64)
  | noncontiguousBlockHeaders
  | missingBytecode (codeHash : H256)
  | trie (e : Failure)
  | rlpDecode (e : RLPDecodeError)
  | invalidStorageTrie (address : Address)
  | custom (msg : String)
  deriving DecidableEq, Repr

abbrev GuestTrie := Trie InMemoryTrieDB

structure GuestProgramState where
  codesHashed : H256 → Option Code
  blockHeaders : Std.ExtTreeMap U64 BlockHeader
  stateTrie : GuestTrie
  parentBlockHeader : BlockHeader
  firstBlockNumber : U64
  storageTries : H256 → Option GuestTrie
  accountHashesByAddress : Address → Option H256
  verifiedStorageRoots : H256 → Bool

section

variable (keccak256 : Bytes → H256) (fuel : Nat)

def hashAddress (address : Address) : H256 := keccak256 (fixedBeBytes 20 address.val)

def hashKey (key : H256) : Bytes := (keccak256 key.bytes).bytes

def codeFromBytecode (code : Bytes) : Code := ⟨keccak256 code, code⟩

/-- The `?` operator on a trie operation. -/
def liftTrie {α : Type} : Result α → Except GuestProgramStateError α
  | .ok a => .ok a
  | .error e => .error (.trie e)

/-- `Trie::new_temp`, and `Trie::default`. -/
def newTemp : GuestTrie := Trie.new .newEmpty

/-- `Trie::new_temp_with_root` for an embedded root, and the hashes that `hash_no_commit` memoizes. -/
def trieWithRoot (root : Node) : GuestTrie :=
  ({ newTemp with root := .ofNode root }.hashNoCommit keccak256).2

namespace GuestProgramState

/-- The headers of a witness by their number; later headers replace earlier ones. -/
def decodeHeaders (headers : List Bytes) :
    Except GuestProgramStateError (Std.ExtTreeMap U64 BlockHeader) :=
  match headers.mapM BlockHeader.decode with
  | .ok headers => .ok (headers.foldl (fun m header => m.insert header.number header) ∅)
  | .error e =>
    let shown := e.display
    .error (.custom s!"Failed to decode block headers: {shown}")

def fromWitness (value : ExecutionWitness) : Except GuestProgramStateError GuestProgramState := do
  let blockHeaders ← decodeHeaders value.blockHeadersBytes
  if value.firstBlockNumber = 0 then .error (.custom "First block number cannot be zero")
  else
    match blockHeaders[value.firstBlockNumber - 1]? with
    | none => .error (.missingParentHeaderOf value.firstBlockNumber)
    | some parentHeader =>
      let stateTrie := match value.stateTrieRoot with
        | some root => trieWithRoot keccak256 root
        | none => (newTemp.hashNoCommit keccak256).2
      .ok {
        codesHashed := (value.codes.map (codeFromBytecode keccak256)).foldl
          (fun m code => Function.update m code.hash (some code)) fun _ => none
        blockHeaders
        stateTrie
        parentBlockHeader := parentHeader
        firstBlockNumber := value.firstBlockNumber
        storageTries := fun hashed => (value.storageTrieRoots hashed).map (trieWithRoot keccak256)
        accountHashesByAddress := fun _ => none
        verifiedStorageRoots := fun _ => false }

variable (state : GuestProgramState)

def hashedAddress (address : Address) : H256 × GuestProgramState :=
  match state.accountHashesByAddress address with
  | some hashed => (hashed, state)
  | none =>
    let hashed := hashAddress keccak256 address
    (hashed, { state with
      accountHashesByAddress := Function.update state.accountHashesByAddress address (some hashed) })

/-- `OnceCell::set` on the cell of a header: a set cell keeps its value. `set` gives back the value
it was called with, so the comparison of `set_hash_or_validate` never fails. -/
def setHashOrValidate (header : BlockHeader) (hash : H256) : BlockHeader :=
  { header with cachedHash := some (header.cachedHash.getD hash) }

/-- The first loop of `initialize_block_header_hashes`: the headers of the blocks, and those of the
state with a block's number. -/
def initializeBlocks : List BlockHeader → Std.ExtTreeMap U64 BlockHeader →
    List BlockHeader × Std.ExtTreeMap U64 BlockHeader
  | [], headers => ([], headers)
  | block :: blocks, headers =>
    let hash := block.computeBlockHash keccak256
    let block := setHashOrValidate block hash
    let headers := match headers[block.number]? with
      | some header => headers.insert block.number (setHashOrValidate header hash)
      | none => headers
    let (blocks, headers) := initializeBlocks blocks headers
    (block :: blocks, headers)

/-- `initialize_block_header_hashes`: the headers of the blocks and the state with their hashes. -/
def initializeBlockHeaderHashes (blocks : List BlockHeader) :
    List BlockHeader × GuestProgramState :=
  let blockNumbersInCommon := blocks.map BlockHeader.number
  let (blocks, headers) := initializeBlocks keccak256 blocks state.blockHeaders
  let headers := headers.map fun _ header =>
    if header.number ∈ blockNumbersInCommon then header
    else setHashOrValidate header (header.computeBlockHash keccak256)
  (blocks, { state with blockHeaders := headers })

/-- The loop of `get_first_invalid_block_hash` over the headers in ascending order. -/
def firstInvalid : List (U64 × BlockHeader) → Except GuestProgramStateError (Option U64)
  | (number, header) :: (nextNumber, nextHeader) :: rest =>
    if nextNumber ≠ number + 1 then .error .noncontiguousBlockHeaders
    else if nextHeader.parentHash ≠ header.computeBlockHash keccak256 then .ok (some number)
    else firstInvalid ((nextNumber, nextHeader) :: rest)
  | _ => .ok none

def getFirstInvalidBlockHash : Except GuestProgramStateError (Option U64) :=
  if state.blockHeaders.isEmpty then .error .noBlockHeaders
  else firstInvalid keccak256 state.blockHeaders.toList

def getBlockParentHeader (number : U64) : Except GuestProgramStateError BlockHeader :=
  let parentNumber := if number = 0 then 0 else number - 1
  match state.blockHeaders[parentNumber]? with
  | some header => .ok header
  | none => .error (.missingParentHeaderOf number)

def getBlockHash (number : U64) : Except GuestProgramStateError H256 :=
  match state.blockHeaders[number]? with
  | some header => .ok (header.computeBlockHash keccak256)
  | none =>
    let shown := number.val
    .error (.database s!"Block hash not found for block number {shown}")

def getAccountState (address : Address) :
    Except GuestProgramStateError (Option AccountState × GuestProgramState) :=
  let (hashed, state) := state.hashedAddress keccak256 address
  match state.stateTrie.get keccak256 fuel hashed.bytes with
  | .ok none => .ok (none, state)
  | .error e => .error (.databaseTrie e)
  | .ok (some encodedState) =>
    match AccountState.decode encodedState with
    | .ok account => .ok (some account, state)
    | .error _ => .error (.database "Failed to get decode account from trie")

def getValidStorageTrie (address : Address) :
    Except GuestProgramStateError (Option GuestTrie × GuestProgramState) := do
  let (hashed, state) := state.hashedAddress keccak256 address
  if state.verifiedStorageRoots hashed then .ok (state.storageTries hashed, state)
  else
    let (account, state) ← state.getAccountState keccak256 fuel address
    match account with
    | none => .ok (none, state)
    | some account =>
      match state.storageTries hashed with
      | none =>
        if account.storageRoot = emptyTrieHash then .ok (none, state)
        else .error (.invalidStorageTrie address)
      | some trie =>
        let (root, trie) := trie.hashNoCommit keccak256
        if root = account.storageRoot then
          .ok (some trie, { state with
            storageTries := Function.update state.storageTries hashed (some trie)
            verifiedStorageRoots := Function.update state.verifiedStorageRoots hashed true })
        else .error (.invalidStorageTrie address)

def getStorageSlot (address : Address) (key : H256) :
    Except GuestProgramStateError (Option U256 × GuestProgramState) := do
  let hashedKey := hashKey keccak256 key
  let (trie, state) ← state.getValidStorageTrie keccak256 fuel address
  match trie with
  | none => .ok (none, state)
  | some trie =>
    match trie.get keccak256 fuel hashedKey with
    | .error e => .error (.databaseTrie e)
    | .ok none => .ok (none, state)
    | .ok (some encoded) =>
      match decodeAll decodeU256 encoded with
      | .ok value => .ok (some value, state)
      | .error _ => .error (.database "failed to read storage from trie")

def getAccountCode (codeHash : H256) : Except GuestProgramStateError Code :=
  if codeHash = emptyKeccakHash then .ok ⟨emptyKeccakHash, []⟩
  else
    match state.codesHashed codeHash with
    | some code => .ok code
    | none => .error (.missingBytecode codeHash)

def getCodeMetadata (codeHash : H256) : Except GuestProgramStateError Nat :=
  if codeHash = emptyKeccakHash then .ok 0
  else
    match state.codesHashed codeHash with
    | some code => .ok code.bytecode.length
    | none => .error (.missingBytecode codeHash)

def insertSlots (trie : GuestTrie) (slots : List (H256 × U256)) : Result GuestTrie :=
  slots.foldlM (fun trie slot =>
    trie.insert keccak256 fuel (hashKey keccak256 slot.1) (encodeUint slot.2)) trie

def removeSlots (trie : GuestTrie) (slots : List (H256 × U256)) : Result GuestTrie :=
  slots.foldlM (fun trie slot => do
    let (trie, _) ← trie.remove keccak256 fuel (hashKey keccak256 slot.1)
    .ok trie) trie

/-- The new storage of an account: insertions come before removals. -/
def updateStorage (trie : GuestTrie) (slots : List (H256 × U256)) : Result GuestTrie := do
  let trie ← insertSlots keccak256 fuel trie (slots.filter fun slot => slot.2 ≠ 0)
  removeSlots keccak256 fuel trie (slots.filter fun slot => slot.2 = 0)

def updatedAccount (account : AccountState) (update : AccountUpdate) : AccountState :=
  let account := if update.removedStorage then { account with storageRoot := emptyTrieHash }
    else account
  match update.info with
  | some info => { account with nonce := info.nonce, balance := info.balance, codeHash := info.codeHash }
  | none => account

def updatedCodes (codes : H256 → Option Code) (update : AccountUpdate) : H256 → Option Code :=
  match update.info, update.code with
  | some info, some code => Function.update codes info.codeHash (some code)
  | _, _ => codes

/-- The account that is stored under a hashed address, or a new one. -/
def storedAccount (hashed : H256) : Except GuestProgramStateError AccountState :=
  match state.stateTrie.get keccak256 fuel hashed.bytes with
  | .error e => .error (.trie e)
  | .ok none => .ok {}
  | .ok (some encoded) =>
    match AccountState.decode encoded with
    | .ok account => .ok account
    | .error e => .error (.rlpDecode e)

/-- The slots of an update are written to the storage trie in the map, whose root becomes that of
the account. -/
def writeStorage (hashed : H256) (account : AccountState) (slots : List (H256 × U256)) :
    Except GuestProgramStateError (AccountState × GuestProgramState) :=
  if slots.isEmpty then .ok (account, state)
  else
    match updateStorage keccak256 fuel ((state.storageTries hashed).getD newTemp) slots with
    | .error e => .error (.trie e)
    | .ok trie =>
      let (storageRoot, trie) := trie.hashNoCommit keccak256
      .ok ({ account with storageRoot }, { state with
        storageTries := Function.update state.storageTries hashed (some trie) })

/-- One turn of the loop of `apply_account_updates`. -/
def applyAccountUpdate (update : AccountUpdate) :
    Except GuestProgramStateError GuestProgramState := do
  let (hashed, state) := state.hashedAddress keccak256 update.address
  if update.removed then
    let (stateTrie, _) ← liftTrie (state.stateTrie.remove keccak256 fuel hashed.bytes)
    .ok { state with stateTrie }
  else
    let account ← state.storedAccount keccak256 fuel hashed
    let account := updatedAccount account update
    let state := { state with codesHashed := updatedCodes state.codesHashed update }
    let (account, state) ← state.writeStorage keccak256 fuel hashed account update.addedStorage
    let stateTrie ← liftTrie (state.stateTrie.insert keccak256 fuel hashed.bytes account.encode)
    .ok { state with stateTrie }

def applyAccountUpdates (updates : List AccountUpdate) :
    Except GuestProgramStateError GuestProgramState :=
  updates.foldlM (fun state update => state.applyAccountUpdate keccak256 fuel update) state

/-- `state_trie_root`, and the state with the hashes it memoizes. -/
def stateTrieRoot : H256 × GuestProgramState :=
  let (root, stateTrie) := state.stateTrie.hashNoCommit keccak256
  (root, { state with stateTrie })

end GuestProgramState

end

end Guest

end Ethrex
