import Ethrex.Bal.AccessList

/-!
# The database of a transaction

The account cache of a transaction of a block executed in parallel: its own cache, what the system
calls left behind, and the store, with the block access list read through a cursor. Reads of the
store do not fail. The trackers and the recorder are left out.
-/

namespace Ethrex.Bal

def u256ToH256 (n : U256) : H256 := .ofNat n

structure AccountInfo where
  balance : U256
  nonce : Nat
  codeHash : H256
  deriving DecidableEq

inductive AccountStatus where
  | unmodified
  | modified
  | destroyed
  | destroyedModified
  deriving DecidableEq, Repr

structure LevmAccount where
  info : AccountInfo
  storage : H256 → Option U256
  hasStorage : Bool
  status : AccountStatus
  «exists» : Bool

structure AccountState where
  nonce : Nat
  balance : U256
  storageRoot : H256
  codeHash : H256
  deriving DecidableEq

structure Store where
  getAccountState : Address → AccountState
  getStorageValue : Address → H256 → U256

abbrev CacheDB := Address → Option LevmAccount

/-- `BalAddressIndex`, without the accounts by transaction. -/
structure BalAddressIndex where
  addrToIdx : Address → Option Nat
  accountsByMinIndex : List (Nat × Nat)
  slotIdxByAccount : List (H256 → Option Nat)

structure LazyBalCursor where
  bal : BlockAccessList
  balIndex : Nat
  index : BalAddressIndex

structure GeneralizedDatabase where
  store : Store
  currentAccountsState : CacheDB
  initialAccountsState : CacheDB
  sharedBase : Option CacheDB
  codes : H256 → Option Bytes
  skipInitialTracking : Bool
  lazyBal : Option LazyBalCursor

inductive InternalError where
  | accountNotFound
  | custom (msg : String)
  deriving DecidableEq, Repr

/-! ### The index of a list -/

def AccountChanges.seenIndices (account : AccountChanges) : List Nat :=
  account.balanceChanges.map Prod.fst ++ account.nonceChanges.map Prod.fst ++
    account.codeChanges.map Prod.fst ++
      account.storageChanges.flatMap fun change => change.slotChanges.map Prod.fst

/-- The entries of `accounts_by_min_index` before they are sorted. -/
def minIndices (bal : BlockAccessList) : List (Nat × Nat) :=
  bal.zipIdx.filterMap fun (account, i) => account.seenIndices.min?.map fun minIdx => (minIdx, i)

/-- The map from the keys of a list to their positions, a later one replacing an earlier one. -/
def positions {α κ : Type} [DecidableEq κ] (key : α → κ) (xs : List α) : κ → Option Nat :=
  xs.zipIdx.foldl (fun map entry => Function.update map (key entry.1) (some entry.2)) fun _ => none

def buildValidationIndex (bal : BlockAccessList) : BalAddressIndex where
  addrToIdx := positions AccountChanges.address bal
  accountsByMinIndex := (minIndices bal).mergeSort fun a b => a.1 ≤ b.1
  slotIdxByAccount :=
    bal.map fun account => positions (fun change => u256ToH256 change.slot) account.storageChanges

/-! ### What the list says at an index -/

/-- `partition_point` of the changes up to `maxIdx`. -/
def partitionPoint {V : Type} (changes : List (Change V)) (maxIdx : Nat) : Nat :=
  (changes.takeWhile fun change => change.1 ≤ maxIdx).length

def valueBeforePoint {V : Type} (changes : List (Change V)) (pos : Nat) : Option V :=
  if pos > 0 then (changes[pos - 1]?).map Prod.snd else none

def postValueAtOrBefore (change : SlotChange) (maxIdx : Nat) : Option U256 :=
  valueBeforePoint change.slotChanges (partitionPoint change.slotChanges maxIdx)

def seedOneStorageSlotFromBal (bal : BlockAccessList) (index : BalAddressIndex) (acctIdx : Nat)
    (key : H256) (maxIdx : Nat) : Option U256 := do
  let acctChanges ← bal[acctIdx]?
  let slotMap ← index.slotIdxByAccount[acctIdx]?
  let scIdx ← slotMap key
  let change ← acctChanges.storageChanges[scIdx]?
  postValueAtOrBefore change maxIdx

namespace LevmAccount

def markModified (account : LevmAccount) : LevmAccount :=
  { account with
    status :=
      match account.status with
      | .unmodified => .modified
      | .destroyed => .destroyedModified
      | status => status
    «exists» := true }

def cloneWithoutStorage (account : LevmAccount) : LevmAccount :=
  { account with storage := fun _ => none }

end LevmAccount

section

variable (keccak256 : Bytes → H256) (emptyTrieHash : H256)

/-- `code_from_bal`: the hash of the code, and the code unless it is empty. -/
def codeFromBal (newCode : Bytes) : H256 × Option Bytes :=
  if newCode.isEmpty then (keccak256 [], none) else (keccak256 newCode, some newCode)

def AccountState.default : AccountState :=
  { nonce := 0, balance := 0, storageRoot := emptyTrieHash, codeHash := keccak256 [] }

/-- `LevmAccount::from` an account of the store. -/
def LevmAccount.ofState (state : AccountState) : LevmAccount where
  info := { balance := state.balance, nonce := state.nonce, codeHash := state.codeHash }
  storage := fun _ => none
  hasStorage := state.storageRoot ≠ emptyTrieHash
  status := .unmodified
  «exists» := state ≠ AccountState.default keccak256 emptyTrieHash

namespace GeneralizedDatabase

def newWithSharedBase (store : Store) (sharedBase : CacheDB) : GeneralizedDatabase where
  store := store
  currentAccountsState := fun _ => none
  initialAccountsState := fun _ => none
  sharedBase := some sharedBase
  codes := fun _ => none
  skipInitialTracking := true
  lazyBal := none

/-- The database that `execute_block_parallel` makes for the transaction at an index. -/
def forTransaction (store : Store) (systemSeed : CacheDB) (bal : BlockAccessList) (txIdx : Nat) :
    GeneralizedDatabase :=
  { newWithSharedBase store systemSeed with
    lazyBal := some
      { bal, balIndex := if txIdx + 1 < 2 ^ 32 then txIdx + 1 else 2 ^ 32 - 1
        index := buildValidationIndex bal } }

variable (db : GeneralizedDatabase) (address : Address)

def setCurrent (account : LevmAccount) :
    GeneralizedDatabase :=
  { db with currentAccountsState := Function.update db.currentAccountsState address (some account) }

/-- The account is cached as found, and kept as the state before the transaction if that is
tracked. -/
def remember (account : LevmAccount) :
    LevmAccount × GeneralizedDatabase :=
  let db := if db.skipInitialTracking then db else
    { db with
      initialAccountsState := Function.update db.initialAccountsState address (some account) }
  (account, db.setCurrent address account)

/-- The end of `load_account`: the shared base, then the store. -/
def loadFromBase :
    LevmAccount × GeneralizedDatabase :=
  match db.sharedBase.bind (· address) with
  | some account => db.remember address account
  | none => db.remember address (.ofState keccak256 emptyTrieHash (db.store.getAccountState address))

/-- The start of `load_account`: an account of the two caches. -/
def loadCached :
    Option (LevmAccount × GeneralizedDatabase) :=
  match db.currentAccountsState address with
  | some account => some (account, db)
  | none =>
    match db.initialAccountsState address with
    | some account =>
      let clone :=
        match account.status with
        | .destroyed | .destroyedModified => account
        | _ => account.cloneWithoutStorage
      some (clone, db.setCurrent address clone)
    | none => none

/-- `get_account` on a database without a cursor, as the functions that apply the list call it. -/
def getAccountPlain :
    LevmAccount × GeneralizedDatabase :=
  (db.loadCached address).getD (db.loadFromBase keccak256 emptyTrieHash address)

/-- `get_account_mut` on a database without a cursor, with the change made to the account. -/
def modifyAccountPlain
    (change : LevmAccount → LevmAccount) : GeneralizedDatabase :=
  let (account, db) := db.getAccountPlain keccak256 emptyTrieHash address
  db.setCurrent address (change account.markModified)

def cacheCode : Option (H256 × Option Bytes) → GeneralizedDatabase
  | some (hash, some code) =>
    { db with codes := Function.update db.codes hash (some ((db.codes hash).getD code)) }
  | _ => db

/-- The fields of the list are written to the account, which is loaded only if one is missing. -/
def applyInfo (balance : Option U256)
    (nonce : Option Nat) (codeHash : Option H256) : GeneralizedDatabase :=
  match balance, nonce, codeHash with
  | some balance, some nonce, some codeHash =>
    let account := (db.currentAccountsState address).getD
      { info := { balance := 0, nonce := 0, codeHash := keccak256 [] }
        storage := fun _ => none, hasStorage := false, status := .modified, «exists» := true }
    db.setCurrent address { account with info := { balance, nonce, codeHash } }.markModified
  | _, _, _ =>
    db.modifyAccountPlain keccak256 emptyTrieHash address fun account =>
      { account with
        info :=
          { balance := balance.getD account.info.balance
            nonce := nonce.getD account.info.nonce
            codeHash := codeHash.getD account.info.codeHash } }

def seedOneAddressInfoFromBal (bal : BlockAccessList) (acctIdx maxIdx : Nat) :
    Except InternalError (Bool × GeneralizedDatabase) :=
  match bal[acctIdx]? with
  | none => .error .accountNotFound
  | some acctChanges =>
    let balancePos := partitionPoint acctChanges.balanceChanges maxIdx
    let noncePos := partitionPoint acctChanges.nonceChanges maxIdx
    let codePos := partitionPoint acctChanges.codeChanges maxIdx
    if balancePos = 0 ∧ noncePos = 0 ∧ codePos = 0 then .ok (false, db)
    else
      let codeUpdate := (valueBeforePoint acctChanges.codeChanges codePos).map (codeFromBal keccak256)
      let db := db.applyInfo keccak256 emptyTrieHash acctChanges.address
        (valueBeforePoint acctChanges.balanceChanges balancePos)
        (valueBeforePoint acctChanges.nonceChanges noncePos) (codeUpdate.map Prod.fst)
      .ok (true, db.cacheCode codeUpdate)

/-- `load_account`.  The cursor is taken out while the list is applied. -/
def loadAccount :
    Except InternalError (LevmAccount × GeneralizedDatabase) :=
  match db.loadCached address with
  | some found => .ok found
  | none =>
    match db.lazyBal with
    | none => .ok (db.loadFromBase keccak256 emptyTrieHash address)
    | some cursor =>
      match cursor.index.addrToIdx address with
      | none => .ok (db.loadFromBase keccak256 emptyTrieHash address)
      | some acctIdx => do
        let (_, seeded) ← ({ db with lazyBal := none }).seedOneAddressInfoFromBal keccak256
          emptyTrieHash cursor.bal acctIdx (cursor.balIndex - 1)
        let db := { seeded with lazyBal := some cursor }
        match db.currentAccountsState address with
        | some account => .ok (account, db)
        | none => .ok (db.loadFromBase keccak256 emptyTrieHash address)

/-- `account.storage.insert` on a cached account. -/
def cacheSlot (key : H256) (value : U256) :
    Except InternalError (U256 × GeneralizedDatabase) :=
  match db.currentAccountsState address with
  | none => .error .accountNotFound
  | some account =>
    .ok (value, db.setCurrent address
      { account with storage := Function.update account.storage key (some value) })

def getValueFromDatabase (key : H256) :
    Except InternalError (U256 × GeneralizedDatabase) :=
  let value := db.store.getStorageValue address key
  if db.skipInitialTracking then .ok (value, db)
  else
    match db.initialAccountsState address with
    | some account =>
      .ok (value,
        { db with
          initialAccountsState := Function.update db.initialAccountsState address
            (some { account with storage := Function.update account.storage key (some value) }) })
    | none => .error (.custom "Account not found in InMemoryDB when fetching storage")

def balHit (key : H256) : Option U256 := do
  let cursor ← db.lazyBal
  let acctIdx ← cursor.index.addrToIdx address
  seedOneStorageSlotFromBal cursor.bal cursor.index acctIdx key (cursor.balIndex - 1)

def getStorageValue (key : H256) :
    Except InternalError (U256 × GeneralizedDatabase) :=
  match db.currentAccountsState address with
  | none => .error .accountNotFound
  | some account =>
    match account.storage key with
    | some value => .ok (value, db)
    | none =>
      -- The store still has the slots of a destroyed account.
      if account.status = .destroyedModified then .ok (0, db)
      else
        match db.balHit address key with
        | some value => db.cacheSlot address key value
        | none =>
          match (db.initialAccountsState address).bind (·.storage key) with
          | some value => db.cacheSlot address key value
          | none => do
            let (value, db) ← db.getValueFromDatabase address key
            db.cacheSlot address key value

inductive Read where
  | info (address : Address)
  | slot (address : Address) (key : H256)
  deriving DecidableEq

inductive Seen where
  | info (info : AccountInfo)
  | slot (value : U256)
  deriving DecidableEq

/-- A read as the opcodes make it: the account is loaded before its storage is read. -/
def readOne : Read → Except InternalError (Seen × GeneralizedDatabase)
  | .info address => do
    let (account, db) ← db.loadAccount keccak256 emptyTrieHash address
    .ok (.info account.info, db)
  | .slot address key => do
    let (_, db) ← db.loadAccount keccak256 emptyTrieHash address
    let (value, db) ← db.getStorageValue address key
    .ok (.slot value, db)

def readAll (db : GeneralizedDatabase) : List Read → Except InternalError (List Seen)
  | [] => .ok []
  | read :: reads => do
    let (seen, db) ← db.readOne keccak256 emptyTrieHash read
    let rest ← db.readAll reads
    .ok (seen :: rest)

/-- One slot of an account in `seed_db_from_bal`. -/
def seedSlot (maxIdx : Nat) (account : LevmAccount) (change : SlotChange) : LevmAccount :=
  match postValueAtOrBefore change maxIdx with
  | some value =>
    { account with
      storage := Function.update account.storage (u256ToH256 change.slot) (some value) }
  | none => account

/-- One step of the loop of `seed_db_from_bal`. -/
def seedAccount (bal : BlockAccessList) (maxIdx acctIdx : Nat) :
    Except InternalError GeneralizedDatabase := do
  let (_, db) ← db.seedOneAddressInfoFromBal keccak256 emptyTrieHash bal acctIdx maxIdx
  match bal[acctIdx]? with
  | none => .error .accountNotFound
  | some acctChanges =>
    let anyStorage := acctChanges.storageChanges.any fun change =>
      change.slotChanges.head?.any fun first => first.1 ≤ maxIdx
    if anyStorage then
      let (_, db) := db.getAccountPlain keccak256 emptyTrieHash acctChanges.address
      .ok (db.modifyAccountPlain keccak256 emptyTrieHash acctChanges.address
        (acctChanges.storageChanges.foldl (seedSlot maxIdx)))
    else .ok db

def seedDbFromBal (bal : BlockAccessList) (maxIdx : Nat)
    (accountsByMinIndex : List (Nat × Nat)) : Except InternalError GeneralizedDatabase :=
  (accountsByMinIndex.takeWhile fun entry => entry.1 ≤ maxIdx).foldlM
    (fun db entry => db.seedAccount keccak256 emptyTrieHash bal maxIdx entry.2) db

end GeneralizedDatabase

end

end Ethrex.Bal
