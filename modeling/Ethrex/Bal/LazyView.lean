import Ethrex.Bal.Database

/-!
# Reading through a block access list

What a transaction reads when the list is applied read by read, and when it is applied beforehand.
-/

namespace Ethrex.Bal

open List Function

theorem takeWhile_eq_filter {V : Type} {changes : List (Change V)}
    (ascending : changes.Pairwise fun a b => a.1 < b.1) (maxIdx : Nat) :
    changes.takeWhile (fun change => change.1 ≤ maxIdx) =
      changes.filter fun change => change.1 ≤ maxIdx := by
  induction changes with
  | nil => rfl
  | cons change changes ih =>
    rw [takeWhile_cons, filter_cons]
    split_ifs with early
    · rw [ih ascending.of_cons]
    refine (filter_eq_nil_iff.2 fun later hlater => ?_).symm
    have := rel_of_pairwise_cons ascending hlater
    simp only [decide_eq_true_eq] at early ⊢
    omega

/-- The value of the last change with an index of at most `maxIdx`. -/
def lastValue {V : Type} (changes : List (Change V)) (maxIdx : Nat) : Option V :=
  (changes.filter fun change => change.1 ≤ maxIdx).getLast?.map Prod.snd

theorem valueBeforePoint_eq {V : Type} {changes : List (Change V)}
    (ascending : changes.Pairwise fun a b => a.1 < b.1) (maxIdx : Nat) :
    valueBeforePoint changes (partitionPoint changes maxIdx) = lastValue changes maxIdx := by
  unfold valueBeforePoint partitionPoint lastValue
  rw [← takeWhile_eq_filter ascending, getLast?_eq_getElem?]
  have split := takeWhile_append_dropWhile (p := fun change : Change V => change.1 ≤ maxIdx)
    (l := changes)
  split_ifs with found
  · congr 1
    exact (congrArg (·[_]?) split.symm).trans (getElem?_append_left (by omega))
  · rw [getElem?_eq_none (by omega), Option.map_none]

theorem partitionPoint_eq_zero_iff {V : Type} {changes : List (Change V)}
    (ascending : changes.Pairwise fun a b => a.1 < b.1) (maxIdx : Nat) :
    partitionPoint changes maxIdx = 0 ↔ lastValue changes maxIdx = none := by
  rw [partitionPoint, takeWhile_eq_filter ascending, lastValue, length_eq_zero_iff,
    Option.map_eq_none_iff, getLast?_eq_none_iff]

theorem lastValue_eq_none_iff {V : Type} {changes : List (Change V)} {maxIdx : Nat} :
    lastValue changes maxIdx = none ↔ ∀ change ∈ changes, maxIdx < change.1 := by
  simp [lastValue]

theorem foldl_positions {α κ : Type} [DecidableEq κ] {key : α → κ} {xs : List α}
    (distinct : xs.Pairwise fun a b => key a ≠ key b) (n : Nat) (map : κ → Option Nat) (k : κ) :
    (xs.zipIdx n).foldl (fun map entry => update map (key entry.1) (some entry.2)) map k =
      ((xs.findIdx? (key · = k)).map (· + n)).or (map k) := by
  induction xs generalizing n map with
  | nil => rfl
  | cons x xs ih =>
    rw [zipIdx_cons, foldl_cons, ih distinct.of_cons, findIdx?_cons]
    by_cases here : key x = k
    · have later : xs.findIdx? (key · = k) = none := by
        rw [findIdx?_eq_none_iff]
        intro y hy
        simpa [← here] using (rel_of_pairwise_cons distinct hy).symm
      simp [here, later]
    · simp only [decide_eq_true_eq, here, if_false, update_of_ne (Ne.symm here),
        Option.map_map]
      congr 2
      funext i
      simp only [comp_apply]
      omega

theorem positions_eq_findIdx? {α κ : Type} [DecidableEq κ] {key : α → κ} {xs : List α}
    (distinct : xs.Pairwise fun a b => key a ≠ key b) (k : κ) :
    positions key xs k = xs.findIdx? (key · = k) := by
  simp [positions, foldl_positions distinct]

theorem positions_eq_some {α κ : Type} [DecidableEq κ] {key : α → κ} {xs : List α}
    (distinct : xs.Pairwise fun a b => key a ≠ key b) {k : κ} {i : Nat}
    (found : positions key xs k = some i) :
    ∃ x, xs[i]? = some x ∧ xs.find? (key · = k) = some x := by
  rw [positions_eq_findIdx? distinct] at found
  obtain ⟨small, -⟩ := findIdx?_eq_some_iff_getElem.1 found
  refine ⟨xs[i], getElem?_eq_getElem small, ?_⟩
  rw [find?_eq_bind_findIdx?_getElem?, found, Option.bind_some, getElem?_eq_getElem small]

theorem positions_eq_none {α κ : Type} [DecidableEq κ] {key : α → κ} {xs : List α}
    (distinct : xs.Pairwise fun a b => key a ≠ key b) {k : κ}
    (missing : positions key xs k = none) : xs.find? (key · = k) = none := by
  rw [positions_eq_findIdx? distinct] at missing
  rw [find?_eq_bind_findIdx?_getElem?, missing, Option.bind_none]

theorem u256ToH256_injective : Injective u256ToH256 := by
  intro a b same
  have bytes : ∀ i < 32, UInt8.ofNat (a.val >>> (8 * (31 - i))) = UInt8.ofNat (b.val >>> (8 * (31 - i))) := by
    intro i small
    have := congrArg (fun h : H256 => h.bytes[i]?) same
    simpa [u256ToH256, H256.ofNat, small] using this
  apply Fin.ext
  apply Nat.eq_of_testBit_eq
  intro j
  by_cases high : 256 ≤ j
  · rw [Nat.testBit_lt_two_pow (a.isLt.trans_le (Nat.pow_le_pow_right (by decide) high)),
      Nat.testBit_lt_two_pow (b.isLt.trans_le (Nat.pow_le_pow_right (by decide) high))]
  have byte := congrArg UInt8.toNat (bytes (31 - j / 8) (by omega))
  have bit := congrArg (Nat.testBit · (j % 8)) byte
  simp only [UInt8.toNat_ofNat', Nat.testBit_mod_two_pow, Nat.testBit_shiftRight,
    Nat.mod_lt j (by decide : 8 > 0), decide_true, Bool.true_and] at bit
  rwa [show 8 * (31 - (31 - j / 8)) + j % 8 = j by omega] at bit

/-! ### What there is to read -/

/-- The sources of reads: the list up to an index, what the system calls left behind, and the
store. -/
structure View where
  bal : BlockAccessList
  base : CacheDB
  store : Store
  maxIdx : Nat

namespace View

variable (keccak256 : Bytes → H256) (emptyTrieHash : H256) (view : View)

def cursor : LazyBalCursor :=
  { bal := view.bal, balIndex := view.maxIdx + 1, index := buildValidationIndex view.bal }

variable (address : Address)

def changes : Option AccountChanges :=
  view.bal.find? fun account => account.address = address

def balanceAt : Option U256 :=
  (view.changes address).bind fun account => lastValue account.balanceChanges view.maxIdx

def nonceAt : Option Nat :=
  (view.changes address).bind fun account => lastValue account.nonceChanges view.maxIdx

def codeAt : Option Bytes :=
  (view.changes address).bind fun account => lastValue account.codeChanges view.maxIdx

def slotAt (key : H256) : Option U256 :=
  (view.changes address).bind fun account =>
    (account.storageChanges.find? fun change => u256ToH256 change.slot = key).bind fun change =>
      lastValue change.slotChanges view.maxIdx

/-- The account without the list: of the shared base, else of the store. -/
def below : LevmAccount :=
  (view.base address).getD (.ofState keccak256 emptyTrieHash (view.store.getAccountState address))

/-- What a first read should give: each field from the last change in the list, else from the shared
base, else from the store. -/
def expectedInfo : AccountInfo where
  balance := (view.balanceAt address).getD (view.below keccak256 emptyTrieHash address).info.balance
  nonce := (view.nonceAt address).getD (view.below keccak256 emptyTrieHash address).info.nonce
  codeHash := ((view.codeAt address).map keccak256).getD
    (view.below keccak256 emptyTrieHash address).info.codeHash

def expectedSlot (key : H256) : U256 :=
  (view.slotAt address key).getD
    (((view.base address).bind (·.storage key)).getD (view.store.getStorageValue address key))

/-! ### What the code loads -/

def AllInfo : Prop :=
  view.balanceAt address ≠ none ∧ view.nonceAt address ≠ none ∧ view.codeAt address ≠ none

def AnyInfo : Prop :=
  view.balanceAt address ≠ none ∨ view.nonceAt address ≠ none ∨ view.codeAt address ≠ none

instance (address : Address) : Decidable (view.AllInfo address) :=
  inferInstanceAs (Decidable (_ ∧ _))

instance (address : Address) : Decidable (view.AnyInfo address) :=
  inferInstanceAs (Decidable (_ ∨ _))

def lazyLoaded : LevmAccount :=
  if view.AllInfo address then
    { info := view.expectedInfo keccak256 emptyTrieHash address
      storage := fun _ => none, hasStorage := false, status := .modified, «exists» := true }
  else if view.AnyInfo address then
    { (view.below keccak256 emptyTrieHash address).markModified with
      info := view.expectedInfo keccak256 emptyTrieHash address }
  else view.below keccak256 emptyTrieHash address

def AnySlot : Prop := ∃ key, view.slotAt address key ≠ none

open Classical in
/-- The account that loading and then applying the account's slots gives. -/
noncomputable def eagerLoaded : LevmAccount :=
  if view.AnySlot address then
    { (view.lazyLoaded keccak256 emptyTrieHash address).markModified with
      storage := fun key => (view.slotAt address key).or
        ((view.lazyLoaded keccak256 emptyTrieHash address).storage key) }
  else view.lazyLoaded keccak256 emptyTrieHash address

variable {keccak256 emptyTrieHash view}

theorem lazyLoaded_info :
    (view.lazyLoaded keccak256 emptyTrieHash address).info =
      view.expectedInfo keccak256 emptyTrieHash address := by
  unfold lazyLoaded
  split_ifs with all any
  · rfl
  · rfl
  · simp only [AnyInfo, not_or, not_not] at any
    obtain ⟨balance, nonce, code⟩ := any
    simp [expectedInfo, balance, nonce, code]

theorem eagerLoaded_info :
    (view.eagerLoaded keccak256 emptyTrieHash address).info =
      view.expectedInfo keccak256 emptyTrieHash address := by
  unfold eagerLoaded
  split_ifs with any
  · exact lazyLoaded_info address
  · exact lazyLoaded_info address

end View

theorem codeFromBal_fst (keccak256 : Bytes → H256) (code : Bytes) :
    (codeFromBal keccak256 code).1 = keccak256 code := by
  unfold codeFromBal
  split_ifs with empty
  · rw [List.isEmpty_iff.1 empty]
  · rfl

/-- The database reads from the view, with the given cursor, and tracks nothing else. -/
structure View.Sources (view : View) (cursor : Option LazyBalCursor) (db : GeneralizedDatabase) :
    Prop where
  store : db.store = view.store
  initial : db.initialAccountsState = fun _ => none
  sharedBase : db.sharedBase = some view.base
  skip : db.skipInitialTracking = true
  cursor : db.lazyBal = cursor

namespace View.Sources

variable {keccak256 : Bytes → H256} {emptyTrieHash : H256} {view : View}
  {cursor : Option LazyBalCursor} {db : GeneralizedDatabase}

theorem setCurrent (sources : view.Sources cursor db) (address : Address) (account : LevmAccount) :
    view.Sources cursor (db.setCurrent address account) :=
  ⟨sources.store, sources.initial, sources.sharedBase, sources.skip, sources.cursor⟩

theorem cacheCode (sources : view.Sources cursor db) (code : Option (H256 × Option Bytes)) :
    view.Sources cursor (db.cacheCode code) := by
  unfold GeneralizedDatabase.cacheCode
  split
  · exact ⟨sources.store, sources.initial, sources.sharedBase, sources.skip, sources.cursor⟩
  · exact sources

theorem cacheCode_current (code : Option (H256 × Option Bytes)) :
    (db.cacheCode code).currentAccountsState = db.currentAccountsState := by
  unfold GeneralizedDatabase.cacheCode
  split <;> rfl

theorem setCursor (sources : view.Sources cursor db) (cursor' : Option LazyBalCursor) :
    view.Sources cursor' { db with lazyBal := cursor' } :=
  ⟨sources.store, sources.initial, sources.sharedBase, sources.skip, rfl⟩

theorem loadFromBase (sources : view.Sources cursor db) (address : Address) :
    db.loadFromBase keccak256 emptyTrieHash address =
      (view.below keccak256 emptyTrieHash address,
        db.setCurrent address (view.below keccak256 emptyTrieHash address)) := by
  unfold GeneralizedDatabase.loadFromBase GeneralizedDatabase.remember View.below
  rw [sources.sharedBase, sources.skip, sources.store, Option.bind_some]
  cases view.base address <;> rfl

variable {address : Address}

theorem loadCached_none (sources : view.Sources cursor db)
    (absent : db.currentAccountsState address = none) : db.loadCached address = none := by
  rw [GeneralizedDatabase.loadCached, absent, sources.initial]

theorem loadCached_some {account : LevmAccount}
    (present : db.currentAccountsState address = some account) :
    db.loadCached address = some (account, db) := by
  rw [GeneralizedDatabase.loadCached, present]

theorem modifyAccountPlain_of_present {account : LevmAccount}
    (present : db.currentAccountsState address = some account)
    (change : LevmAccount → LevmAccount) :
    db.modifyAccountPlain keccak256 emptyTrieHash address change =
      db.setCurrent address (change account.markModified) := by
  rw [GeneralizedDatabase.modifyAccountPlain, GeneralizedDatabase.getAccountPlain,
    loadCached_some present, Option.getD_some]

theorem getAccountPlain (sources : view.Sources cursor db)
    (absent : db.currentAccountsState address = none) :
    db.getAccountPlain keccak256 emptyTrieHash address =
      (view.below keccak256 emptyTrieHash address,
        db.setCurrent address (view.below keccak256 emptyTrieHash address)) := by
  rw [GeneralizedDatabase.getAccountPlain, sources.loadCached_none absent, Option.getD_none,
    sources.loadFromBase]

theorem applyInfo (sources : view.Sources cursor db)
    (absent : db.currentAccountsState address = none) (any : view.AnyInfo address) :
    db.applyInfo keccak256 emptyTrieHash address (view.balanceAt address) (view.nonceAt address)
        ((view.codeAt address).map keccak256) =
      db.setCurrent address (view.lazyLoaded keccak256 emptyTrieHash address) := by
  by_cases all : view.AllInfo address
  · obtain ⟨balance, hbalance⟩ := Option.ne_none_iff_exists'.1 all.1
    obtain ⟨nonce, hnonce⟩ := Option.ne_none_iff_exists'.1 all.2.1
    obtain ⟨code, hcode⟩ := Option.ne_none_iff_exists'.1 all.2.2
    rw [View.lazyLoaded, if_pos all, View.expectedInfo, hbalance, hnonce, hcode, Option.map_some,
      GeneralizedDatabase.applyInfo, absent]
    rfl
  · have loaded : db.modifyAccountPlain keccak256 emptyTrieHash address (fun account =>
        { account with
          info :=
            { balance := (view.balanceAt address).getD account.info.balance
              nonce := (view.nonceAt address).getD account.info.nonce
              codeHash := ((view.codeAt address).map keccak256).getD account.info.codeHash } }) =
        db.setCurrent address (view.lazyLoaded keccak256 emptyTrieHash address) := by
      rw [GeneralizedDatabase.modifyAccountPlain, sources.getAccountPlain absent, View.lazyLoaded,
        if_neg all, if_pos any]
      simp only [GeneralizedDatabase.setCurrent, update_idem]
      rfl
    rw [← loaded, GeneralizedDatabase.applyInfo]
    -- A field is missing, so the account is loaded.
    intro balance nonce codeHash hbalance hnonce hcode
    exact all ⟨by simp [hbalance], by simp [hnonce], fun none => by simp [none] at hcode⟩

theorem seedOneAddressInfoFromBal (sources : view.Sources cursor db) {acctIdx : Nat}
    {account : AccountChanges} (found : view.bal[acctIdx]? = some account)
    (canonical : account.Canonical) (changes : view.changes account.address = some account)
    (absent : db.currentAccountsState account.address = none) :
    ∃ any db', db.seedOneAddressInfoFromBal keccak256 emptyTrieHash view.bal acctIdx view.maxIdx =
        .ok (any, db') ∧ view.Sources cursor db' ∧
      db'.currentAccountsState =
        if view.AnyInfo account.address then
          update db.currentAccountsState account.address
            (some (view.lazyLoaded keccak256 emptyTrieHash account.address))
        else db.currentAccountsState := by
  have balanceAt : view.balanceAt account.address = lastValue account.balanceChanges view.maxIdx := by
    rw [View.balanceAt, changes, Option.bind_some]
  have nonceAt : view.nonceAt account.address = lastValue account.nonceChanges view.maxIdx := by
    rw [View.nonceAt, changes, Option.bind_some]
  have codeAt : view.codeAt account.address = lastValue account.codeChanges view.maxIdx := by
    rw [View.codeAt, changes, Option.bind_some]
  have hash : (view.codeAt account.address).map (Prod.fst ∘ codeFromBal keccak256) =
      (view.codeAt account.address).map keccak256 :=
    congrArg (Option.map · _) (funext (codeFromBal_fst keccak256))
  simp only [GeneralizedDatabase.seedOneAddressInfoFromBal, found,
    valueBeforePoint_eq canonical.balances, valueBeforePoint_eq canonical.nonces,
    valueBeforePoint_eq canonical.codes, partitionPoint_eq_zero_iff canonical.balances,
    partitionPoint_eq_zero_iff canonical.nonces, partitionPoint_eq_zero_iff canonical.codes,
    ← balanceAt, ← nonceAt, ← codeAt, Option.map_map, hash]
  by_cases any : view.AnyInfo account.address
  · rw [if_neg fun none => any.elim (· none.1) (Or.elim · (· none.2.1) (· none.2.2)), if_pos any,
      sources.applyInfo absent any]
    exact ⟨true, _, rfl, (sources.setCurrent _ _).cacheCode _, cacheCode_current _⟩
  · rw [if_neg any, if_pos (by simpa [View.AnyInfo, not_or] using any)]
    exact ⟨false, db, rfl, sources, rfl⟩

theorem changes_of_find (ordered : validateOrdering view.bal = .ok ()) {account : AccountChanges}
    (changes : view.changes address = some account) :
    account.address = address ∧ account.Canonical := by
  have same := find?_some changes
  exact ⟨by simpa using same,
    (canonical_of_validateOrdering ordered).1 _ (mem_of_find?_eq_some changes)⟩

theorem addresses_ne (ordered : validateOrdering view.bal = .ok ()) :
    view.bal.Pairwise fun a b => a.address ≠ b.address :=
  (canonical_of_validateOrdering ordered).2.imp fun h => h.ne

theorem lazyLoaded_of_missing (missing : ¬view.AnyInfo address) :
    view.lazyLoaded keccak256 emptyTrieHash address = view.below keccak256 emptyTrieHash address := by
  rw [View.lazyLoaded, if_neg fun all => missing (.inl all.1), if_neg missing]

variable (ordered : validateOrdering view.bal = .ok ())
  (sources : view.Sources (some view.cursor) db)

include ordered sources

theorem loadAccount (absent : db.currentAccountsState address = none) :
    ∃ db', db.loadAccount keccak256 emptyTrieHash address =
        .ok (view.lazyLoaded keccak256 emptyTrieHash address, db') ∧
      view.Sources (some view.cursor) db' ∧
      db'.currentAccountsState = update db.currentAccountsState address
        (some (view.lazyLoaded keccak256 emptyTrieHash address)) := by
  simp only [GeneralizedDatabase.loadAccount, sources.loadCached_none absent, sources.cursor]
  cases position : view.cursor.index.addrToIdx address with
  | none =>
    have missing : ¬view.AnyInfo address := by
      have := positions_eq_none (addresses_ne ordered) position
      simp [View.AnyInfo, View.balanceAt, View.nonceAt, View.codeAt, View.changes, this]
    simp only [sources.loadFromBase, lazyLoaded_of_missing missing]
    exact ⟨_, rfl, sources.setCurrent _ _, rfl⟩
  | some acctIdx =>
    obtain ⟨account, found, changes⟩ := positions_eq_some (addresses_ne ordered) position
    obtain ⟨rfl, canonical⟩ := changes_of_find ordered changes
    obtain ⟨any, seeded, done, sources', current⟩ := @seedOneAddressInfoFromBal keccak256
      emptyTrieHash view none { db with lazyBal := none } (sources.setCursor none) _ _ found
      canonical changes absent
    have restored := sources'.setCursor (some view.cursor)
    simp only [show view.cursor.bal = view.bal from rfl,
      show view.cursor.balIndex - 1 = view.maxIdx from rfl, done, bind, Except.bind]
    by_cases covered : view.AnyInfo account.address
    · rw [if_pos covered] at current
      have loaded := (congrFun current account.address).trans (update_self ..)
      simp only [loaded]
      exact ⟨_, rfl, restored, current⟩
    · rw [if_neg covered] at current
      have missing := (congrFun current account.address).trans absent
      simp only [missing, restored.loadFromBase, lazyLoaded_of_missing covered]
      refine ⟨_, rfl, restored.setCurrent _ _, ?_⟩
      exact congrArg (update · account.address _) current

theorem balHit (address : Address) (key : H256) :
    db.balHit address key = view.slotAt address key := by
  rw [GeneralizedDatabase.balHit, sources.cursor]
  simp only [Option.bind_eq_bind, Option.bind_some, seedOneStorageSlotFromBal, View.slotAt]
  cases position : view.cursor.index.addrToIdx address with
  | none =>
    rw [View.changes, positions_eq_none (addresses_ne ordered) position]
    rfl
  | some acctIdx =>
    obtain ⟨account, found, changes⟩ := positions_eq_some (addresses_ne ordered) position
    obtain ⟨rfl, canonical⟩ := changes_of_find ordered changes
    have slots : account.storageChanges.Pairwise fun a b => u256ToH256 a.slot ≠ u256ToH256 b.slot :=
      canonical.slots.imp fun h => u256ToH256_injective.ne h.ne
    have indexed : view.cursor.index.slotIdxByAccount[acctIdx]? =
        some (positions (fun change => u256ToH256 change.slot) account.storageChanges) := by
      simp [View.cursor, buildValidationIndex, found]
    rw [View.changes, changes]
    simp only [Option.bind_some, show view.cursor.bal = view.bal from rfl, found, indexed]
    cases slotPosition : positions (fun change => u256ToH256 change.slot) account.storageChanges key with
    | none =>
      rw [positions_eq_none slots slotPosition]
      rfl
    | some scIdx =>
      obtain ⟨change, at_, here⟩ := positions_eq_some slots slotPosition
      simp only [Option.bind_some, at_, here]
      exact valueBeforePoint_eq (canonical.indices _ (mem_of_find?_eq_some here)) _

end View.Sources

/-- What a loaded account gives for a slot, when the other sources give `fallback`. -/
def LevmAccount.slotOr (account : LevmAccount) (fallback : U256) (key : H256) : U256 :=
  match account.storage key with
  | some value => value
  | none => if account.status = .destroyedModified then 0 else fallback

def observed (loaded : Address → LevmAccount) (fallback : Address → H256 → U256) :
    GeneralizedDatabase.Read → GeneralizedDatabase.Seen
  | .info address => .info (loaded address).info
  | .slot address key => .slot ((loaded address).slotOr (fallback address key) key)

section

variable {keccak256 : Bytes → H256} {emptyTrieHash : H256} {view : View}
  {cursor : Option LazyBalCursor} {fresh loaded : Address → LevmAccount}
  {fallback : Address → H256 → U256}

/-- Accounts and slots that are not cached are found as `fresh` and `fallback`. -/
structure View.Finds (keccak256 : Bytes → H256) (emptyTrieHash : H256) (view : View)
    (cursor : Option LazyBalCursor) (fresh : Address → LevmAccount)
    (fallback : Address → H256 → U256) : Prop where
  account : ∀ db, view.Sources cursor db → ∀ address, db.currentAccountsState address = none →
    ∃ db', db.loadAccount keccak256 emptyTrieHash address = .ok (fresh address, db') ∧
      view.Sources cursor db' ∧
      db'.currentAccountsState =
        update db.currentAccountsState address (some (fresh address))
  slot : ∀ db, view.Sources cursor db → ∀ address key,
    (db.balHit address key).getD (view.store.getStorageValue address key) = fallback address key

/-- Every cached account shows what `loaded` shows, and every other one is loaded as `loaded`. -/
structure View.Serves (view : View) (cursor : Option LazyBalCursor)
    (fresh loaded : Address → LevmAccount) (fallback : Address → H256 → U256)
    (db : GeneralizedDatabase) : Prop where
  sources : view.Sources cursor db
  absent : ∀ address, db.currentAccountsState address = none → fresh address = loaded address
  info : ∀ address account, db.currentAccountsState address = some account →
    account.info = (loaded address).info
  slot : ∀ address account, db.currentAccountsState address = some account →
    ∀ key, account.slotOr (fallback address key) key =
      (loaded address).slotOr (fallback address key) key

namespace View.Serves

variable {db : GeneralizedDatabase}
variable {address : Address} {account : LevmAccount}

theorem setCurrent {db' : GeneralizedDatabase}
    (serves : view.Serves cursor fresh loaded fallback db) (sources : view.Sources cursor db')
    (current : db'.currentAccountsState =
      update db.currentAccountsState address (some account))
    (info : account.info = (loaded address).info)
    (slot : ∀ key, account.slotOr (fallback address key) key =
      (loaded address).slotOr (fallback address key) key) :
    view.Serves cursor fresh loaded fallback db' where
  sources := sources
  absent other missing := by
    rcases eq_or_ne other address with rfl | ne
    · simp [current] at missing
    · exact serves.absent other (by simpa [current, ne] using missing)
  info other found present := by
    rcases eq_or_ne other address with rfl | ne
    · obtain rfl : account = found := by simpa [current] using present
      exact info
    · exact serves.info other found (by simpa [current, ne] using present)
  slot other found present := by
    rcases eq_or_ne other address with rfl | ne
    · obtain rfl : account = found := by simpa [current] using present
      exact slot
    · exact serves.slot other found (by simpa [current, ne] using present)

theorem loadAccount (finds : view.Finds keccak256 emptyTrieHash cursor fresh fallback)
    (serves : view.Serves cursor fresh loaded fallback db) (address : Address) :
    ∃ account db', db.loadAccount keccak256 emptyTrieHash address = .ok (account, db') ∧
      view.Serves cursor fresh loaded fallback db' ∧
      db'.currentAccountsState address = some account := by
  cases present : db.currentAccountsState address with
  | some account =>
    refine ⟨account, db, ?_, serves, present⟩
    rw [GeneralizedDatabase.loadAccount, View.Sources.loadCached_some present]
  | none =>
    obtain ⟨db', done, sources, current⟩ := finds.account db serves.sources address present
    have same := serves.absent address present
    refine ⟨fresh address, db', done, serves.setCurrent sources current (by rw [same]) ?_, ?_⟩
    · intro key
      rw [same]
    · rw [current, update_self]

theorem cacheSlot {key : H256} {value : U256} (serves : view.Serves cursor fresh loaded fallback db)
    (present : db.currentAccountsState address = some account)
    (right : value = (loaded address).slotOr (fallback address key) key) :
    ∃ db', db.cacheSlot address key value = .ok (value, db') ∧
      view.Serves cursor fresh loaded fallback db' := by
  rw [GeneralizedDatabase.cacheSlot, present]
  refine ⟨_, rfl, serves.setCurrent (serves.sources.setCurrent _ _) rfl
    (serves.info address account present) fun other => ?_⟩
  rcases eq_or_ne other key with rfl | ne
  · simp [LevmAccount.slotOr, right]
  · rw [← serves.slot address account present other]
    simp [LevmAccount.slotOr, ne]

variable (finds : view.Finds keccak256 emptyTrieHash cursor fresh fallback)
  (serves : view.Serves cursor fresh loaded fallback db)

include finds serves

theorem getStorageValue (present : db.currentAccountsState address = some account) (key : H256) :
    ∃ db', db.getStorageValue address key =
        .ok ((loaded address).slotOr (fallback address key) key, db') ∧
      view.Serves cursor fresh loaded fallback db' := by
  have shown := serves.slot address account present key
  have found := finds.slot db serves.sources address key
  obtain ⟨value, right⟩ : ∃ value, value = (loaded address).slotOr (fallback address key) key :=
    ⟨_, rfl⟩
  rw [← right] at shown ⊢
  simp only [GeneralizedDatabase.getStorageValue, present]
  cases held : account.storage key with
  | some cached =>
    simp only [LevmAccount.slotOr, held] at shown
    exact ⟨db, by rw [shown], serves⟩
  | none =>
    simp only [LevmAccount.slotOr, held] at shown
    split_ifs at shown ⊢ with destroyed
    · exact ⟨db, by rw [shown], serves⟩
    rw [← found] at shown
    cases hit : db.balHit address key with
    | some listed =>
      obtain rfl : listed = value := by simpa [hit] using shown
      exact serves.cacheSlot present right
    | none =>
      obtain rfl : view.store.getStorageValue address key = value := by simpa [hit] using shown
      simp only [serves.sources.initial, GeneralizedDatabase.getValueFromDatabase,
        serves.sources.skip, serves.sources.store, Option.bind_none, if_true]
      exact serves.cacheSlot present right

theorem readOne (read : GeneralizedDatabase.Read) :
    ∃ db', db.readOne keccak256 emptyTrieHash read = .ok (observed loaded fallback read, db') ∧
      view.Serves cursor fresh loaded fallback db' := by
  cases read with
  | info address =>
    obtain ⟨account, db', done, serves', present⟩ := serves.loadAccount finds address
    refine ⟨db', ?_, serves'⟩
    simp only [GeneralizedDatabase.readOne, done, bind, Except.bind, observed,
      serves'.info address account present]
  | slot address key =>
    obtain ⟨account, db₁, loadDone, serves₁, present⟩ := serves.loadAccount finds address
    obtain ⟨db₂, slotDone, serves₂⟩ := serves₁.getStorageValue finds present key
    refine ⟨db₂, ?_, serves₂⟩
    simp only [GeneralizedDatabase.readOne, loadDone, slotDone, bind, Except.bind, observed]

theorem readAll (reads : List GeneralizedDatabase.Read) :
    db.readAll keccak256 emptyTrieHash reads = .ok (reads.map (observed loaded fallback)) := by
  induction reads generalizing db with
  | nil => rfl
  | cons read reads ih =>
    obtain ⟨db', done, serves'⟩ := serves.readOne finds read
    simp only [GeneralizedDatabase.readAll, done, ih serves', bind, Except.bind, map_cons]

end View.Serves

end

end Ethrex.Bal
