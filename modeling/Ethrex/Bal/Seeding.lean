import Ethrex.Bal.LazyView

/-!
# Applying a block access list beforehand

`seed_db_from_bal` writes every account of the list to the database before anything is read.
-/

namespace Ethrex.Bal

open List Function
open LevmAccount (markModified ofState slotOr)

/-! ### The list at an index -/

namespace View

variable {keccak256 : Bytes → H256} {emptyTrieHash : H256} {view : View}

theorem lastValue_ne_none_iff {V : Type} {changes : List (Change V)} {maxIdx : Nat} :
    lastValue changes maxIdx ≠ none ↔ ∃ i ∈ changes.map Prod.fst, i ≤ maxIdx := by
  rw [ne_eq, lastValue_eq_none_iff]
  simp

variable {account : AccountChanges} {entry : Nat × Nat}

theorem slots_ne (canonical : account.Canonical) :
    account.storageChanges.Pairwise fun a b => u256ToH256 a.slot ≠ u256ToH256 b.slot :=
  canonical.slots.imp fun h => u256ToH256_injective.ne h.ne

theorem find?_of_mem {α κ : Type} [DecidableEq κ] {key : α → κ} {xs : List α}
    (distinct : xs.Pairwise fun a b => key a ≠ key b) {x : α} (mem : x ∈ xs) :
    xs.find? (key · = key x) = some x := by
  induction xs with
  | nil => simp at mem
  | cons y xs ih =>
    rcases mem_cons.1 mem with rfl | later
    · simp
    · rw [find?_cons_of_neg (by simpa using rel_of_pairwise_cons distinct later)]
      exact ih distinct.of_cons later

theorem anySlot_iff {address : Address} (canonical : account.Canonical)
    (changes : view.changes address = some account) :
    view.AnySlot address ↔
      ∃ change ∈ account.storageChanges, lastValue change.slotChanges view.maxIdx ≠ none := by
  simp only [AnySlot, slotAt, changes, Option.bind_some]
  constructor
  · rintro ⟨key, listed⟩
    cases found : account.storageChanges.find? fun change => u256ToH256 change.slot = key with
    | none => simp [found] at listed
    | some change =>
      exact ⟨change, mem_of_find?_eq_some found, by simpa [found] using listed⟩
  · rintro ⟨change, mem, listed⟩
    refine ⟨u256ToH256 change.slot, ?_⟩
    rwa [find?_of_mem (slots_ne canonical) mem]

theorem covered_iff {address : Address} (canonical : account.Canonical)
    (changes : view.changes address = some account) :
    view.AnyInfo address ∨ view.AnySlot address ↔ ∃ i ∈ account.seenIndices, i ≤ view.maxIdx := by
  simp only [anySlot_iff canonical changes, AnyInfo, balanceAt, nonceAt, codeAt, changes,
    Option.bind_some, lastValue_ne_none_iff, AccountChanges.seenIndices, mem_append,
    mem_flatMap, or_and_right, exists_or, or_assoc]
  refine or_congr_right (or_congr_right (or_congr_right ?_))
  constructor
  · rintro ⟨change, mem, i, listed, early⟩
    exact ⟨i, ⟨change, mem, listed⟩, early⟩
  · rintro ⟨i, ⟨change, mem, listed⟩, early⟩
    exact ⟨change, mem, i, listed, early⟩

theorem any_head_iff (canonical : account.Canonical) (maxIdx : Nat) :
    (account.storageChanges.any fun change =>
        change.slotChanges.head?.any fun first => first.1 ≤ maxIdx) = true ↔
      ∃ change ∈ account.storageChanges, lastValue change.slotChanges maxIdx ≠ none := by
  simp only [any_eq_true, lastValue_ne_none_iff]
  refine exists_congr fun change => and_congr_right fun mem => ?_
  have ascending := canonical.indices change mem
  cases slots : change.slotChanges with
  | nil => simp
  | cons first rest =>
    rw [slots] at ascending
    simp only [head?_cons, Option.any_some, decide_eq_true_eq, map_cons, mem_cons,
      mem_map]
    constructor
    · exact fun early => ⟨first.1, .inl rfl, early⟩
    · rintro ⟨i, rfl | ⟨later, memLater, rfl⟩, early⟩
      · exact early
      · exact (rel_of_pairwise_cons ascending memLater).le.trans early

theorem foldl_seedSlot {changes : List SlotChange}
    (distinct : changes.Pairwise fun a b => u256ToH256 a.slot ≠ u256ToH256 b.slot) (maxIdx : Nat)
    (account : LevmAccount) :
    changes.foldl (GeneralizedDatabase.seedSlot maxIdx) account =
      { account with
        storage := fun key =>
          ((changes.find? fun change => u256ToH256 change.slot = key).bind
            (postValueAtOrBefore · maxIdx)).or (account.storage key) } := by
  induction changes generalizing account with
  | nil => rfl
  | cons change changes ih =>
    rw [foldl_cons, ih distinct.of_cons, GeneralizedDatabase.seedSlot]
    have later : (changes.find? fun other => u256ToH256 other.slot = u256ToH256 change.slot) = none :=
      find?_eq_none.2 fun other mem => by
        simpa using (rel_of_pairwise_cons distinct mem).symm
    cases value : postValueAtOrBefore change maxIdx with
    | none =>
      congr 1
      funext key
      by_cases here : u256ToH256 change.slot = key
      · subst here
        simp [later, value]
      · simp [here]
    | some value =>
      congr 1
      funext key
      by_cases here : u256ToH256 change.slot = key
      · subst here
        simp [later, value]
      · simp [here, update_of_ne (Ne.symm here)]

theorem mem_takeWhile_of_sorted {entries : List (Nat × Nat)}
    (sorted : entries.Pairwise fun a b => a.1 ≤ b.1) {maxIdx : Nat} (mem : entry ∈ entries)
    (early : entry.1 ≤ maxIdx) : entry ∈ entries.takeWhile fun entry => entry.1 ≤ maxIdx := by
  induction entries with
  | nil => simp at mem
  | cons first rest ih =>
    have firstEarly : first.1 ≤ maxIdx := by
      rcases mem_cons.1 mem with rfl | later
      · exact early
      · exact (rel_of_pairwise_cons sorted later).trans early
    rw [takeWhile_cons_of_pos (by simpa using firstEarly), mem_cons]
    exact (mem_cons.1 mem).imp_right (ih sorted.of_cons)

namespace Sources

variable {db : GeneralizedDatabase}
variable {account : AccountChanges} {acctIdx : Nat}

theorem seedSlots (canonical : account.Canonical)
    (changes : view.changes account.address = some account) (loaded : LevmAccount) :
    account.storageChanges.foldl (GeneralizedDatabase.seedSlot view.maxIdx) loaded =
      { loaded with
        storage := fun key => (view.slotAt account.address key).or (loaded.storage key) } := by
  rw [foldl_seedSlot (slots_ne canonical)]
  congr 1
  funext key
  simp only [slotAt, changes, Option.bind_some]
  cases found : account.storageChanges.find? fun change => u256ToH256 change.slot = key with
  | none => rfl
  | some change =>
    simp only [Option.bind_some, postValueAtOrBefore,
      valueBeforePoint_eq (canonical.indices change (mem_of_find?_eq_some found))]

theorem seedAccount (sources : view.Sources none db) (found : view.bal[acctIdx]? = some account)
    (canonical : account.Canonical) (changes : view.changes account.address = some account)
    (covered : view.AnyInfo account.address ∨ view.AnySlot account.address)
    (absent : db.currentAccountsState account.address = none) :
    ∃ db', db.seedAccount keccak256 emptyTrieHash view.bal view.maxIdx acctIdx = .ok db' ∧
      view.Sources none db' ∧
      db'.currentAccountsState = update db.currentAccountsState account.address
        (some (view.eagerLoaded keccak256 emptyTrieHash account.address)) := by
  obtain ⟨any, db₁, done, sources₁, current₁⟩ :=
    @seedOneAddressInfoFromBal keccak256 emptyTrieHash view none db sources _ _ found canonical
      changes absent
  simp only [GeneralizedDatabase.seedAccount, done, found, bind, Except.bind]
  have head := any_head_iff canonical view.maxIdx
  rw [← anySlot_iff canonical changes] at head
  by_cases slots : view.AnySlot account.address
  · rw [if_pos (head.2 slots)]
    obtain ⟨db₂, loaded, sources₂, current₂⟩ : ∃ db₂,
        db₁.getAccountPlain keccak256 emptyTrieHash account.address =
          (view.lazyLoaded keccak256 emptyTrieHash account.address, db₂) ∧
        view.Sources none db₂ ∧
        db₂.currentAccountsState = update db.currentAccountsState account.address
          (some (view.lazyLoaded keccak256 emptyTrieHash account.address)) := by
      by_cases info : view.AnyInfo account.address
      · rw [if_pos info] at current₁
        have present := (congrFun current₁ account.address).trans (update_self ..)
        exact ⟨db₁, by rw [GeneralizedDatabase.getAccountPlain, loadCached_some present]; rfl,
          sources₁, current₁⟩
      · rw [if_neg info] at current₁
        have missing := (congrFun current₁ account.address).trans absent
        refine ⟨_, by rw [sources₁.getAccountPlain missing, lazyLoaded_of_missing info],
          sources₁.setCurrent _ _, ?_⟩
        rw [lazyLoaded_of_missing info, GeneralizedDatabase.setCurrent, current₁]
    have present := (congrFun current₂ account.address).trans (update_self ..)
    rw [loaded]
    simp only [modifyAccountPlain_of_present present, seedSlots canonical changes]
    refine ⟨_, rfl, sources₂.setCurrent _ _, ?_⟩
    rw [GeneralizedDatabase.setCurrent, current₂, update_idem, eagerLoaded, if_pos slots]
    rfl
  · rw [if_neg (mt head.1 slots)]
    rw [if_pos (covered.resolve_right slots)] at current₁
    refine ⟨db₁, rfl, sources₁, ?_⟩
    rw [current₁, eagerLoaded, if_neg slots]

theorem find?_address (ordered : validateOrdering view.bal = .ok ())
    (found : view.bal[acctIdx]? = some account) : view.changes account.address = some account :=
  find?_of_mem (addresses_ne ordered) (mem_of_getElem? found)

theorem index_inj (ordered : validateOrdering view.bal = .ok ()) {i j : Nat}
    {other : AccountChanges} (found : view.bal[i]? = some account)
    (foundOther : view.bal[j]? = some other) (same : account.address = other.address) : i = j := by
  have nodup : (view.bal.map AccountChanges.address).Nodup :=
    pairwise_map.2 (addresses_ne ordered)
  have bound : i < (view.bal.map AccountChanges.address).length := by
    rw [length_map]
    exact (List.getElem?_eq_some_iff.1 found).1
  exact (getElem?_inj bound nodup).1 (by simp [found, foundOther, same])

theorem seedEntries (ordered : validateOrdering view.bal = .ok ()) {entries : List (Nat × Nat)}
    (nodup : (entries.map Prod.snd).Nodup)
    (listed : ∀ entry ∈ entries, ∃ account, view.bal[entry.2]? = some account ∧
      ∃ i ∈ account.seenIndices, i ≤ view.maxIdx)
    (sources : view.Sources none db)
    (absent : ∀ entry ∈ entries, ∀ account, view.bal[entry.2]? = some account →
      db.currentAccountsState account.address = none)
    (cached : ∀ address account, db.currentAccountsState address = some account →
      account = view.eagerLoaded keccak256 emptyTrieHash address) :
    ∃ db', entries.foldlM (fun db entry =>
        db.seedAccount keccak256 emptyTrieHash view.bal view.maxIdx entry.2) db = .ok db' ∧
      view.Sources none db' ∧
      (∀ address account, db'.currentAccountsState address = some account →
        account = view.eagerLoaded keccak256 emptyTrieHash address) ∧
      (∀ address, db.currentAccountsState address ≠ none →
        db'.currentAccountsState address ≠ none) ∧
      ∀ entry ∈ entries, ∀ account, view.bal[entry.2]? = some account →
        db'.currentAccountsState account.address ≠ none := by
  induction entries generalizing db with
  | nil => exact ⟨db, rfl, sources, cached, fun _ => id, by simp⟩
  | cons entry entries ih =>
    obtain ⟨account, found, indices⟩ := listed entry (by simp)
    have changes := find?_address ordered found
    have canonical := (changes_of_find ordered changes).2
    obtain ⟨db₁, done, sources₁, current₁⟩ := @seedAccount keccak256 emptyTrieHash view db
      account _ sources found canonical changes ((covered_iff canonical changes).2 indices)
      (absent entry (by simp) account found)
    have written : db₁.currentAccountsState account.address ≠ none := by simp [current₁]
    rw [map_cons, nodup_cons] at nodup
    obtain ⟨db₂, rest, sources₂, cached₂, kept, all⟩ := @ih db₁ nodup.2
      (fun later mem => listed later (by simp [mem])) sources₁
      (fun later mem other foundOther => by
        have ne : other.address ≠ account.address := fun same =>
          nodup.1 (mem_map.2 ⟨later, mem, index_inj ordered foundOther found same⟩)
        rw [current₁, update_of_ne ne]
        exact absent later (by simp [mem]) other foundOther)
      (fun address held present => by
        rcases eq_or_ne address account.address with rfl | ne
        · rw [current₁, update_self] at present
          exact (Option.some.inj present).symm
        · rw [current₁, update_of_ne ne] at present
          exact cached address held present)
    refine ⟨db₂, ?_, sources₂, cached₂, fun address present => kept address ?_, ?_⟩
    · rw [foldlM_cons, done]
      exact rest
    · rcases eq_or_ne address account.address with rfl | ne
      · exact written
      · rwa [current₁, update_of_ne ne]
    intro later mem other foundOther
    rcases mem_cons.1 mem with rfl | memLater
    · obtain rfl : account = other := Option.some.inj (found.symm.trans foundOther)
      exact kept _ written
    · exact all later memLater other foundOther

end Sources

theorem mem_minIndices {bal : BlockAccessList} :
    entry ∈ minIndices bal ↔
      ∃ account, bal[entry.2]? = some account ∧ account.seenIndices.min? = some entry.1 := by
  simp only [minIndices, mem_filterMap, Prod.exists, mem_zipIdx_iff_getElem?,
    Option.map_eq_some_iff]
  constructor
  · rintro ⟨account, i, found, minIdx, least, rfl⟩
    exact ⟨account, found, least⟩
  · rintro ⟨account, found, least⟩
    exact ⟨account, entry.2, found, entry.1, least, rfl⟩

theorem nodup_minIndices (bal : BlockAccessList) : ((minIndices bal).map Prod.snd).Nodup := by
  have distinct : bal.zipIdx.Pairwise fun a b => a.2 ≠ b.2 := by
    refine pairwise_map.1 ?_
    rw [zipIdx_map_snd]
    exact nodup_range'
  refine pairwise_map.2 (distinct.filterMap _ fun a b ne c hc d hd => ?_)
  obtain ⟨_, _, rfl⟩ := Option.map_eq_some_iff.1 hc
  obtain ⟨_, _, rfl⟩ := Option.map_eq_some_iff.1 hd
  exact ne

theorem seedDbFromBal (ordered : validateOrdering view.bal = .ok ()) :
    ∃ db, (GeneralizedDatabase.newWithSharedBase view.store view.base).seedDbFromBal keccak256
        emptyTrieHash view.bal view.maxIdx (buildValidationIndex view.bal).accountsByMinIndex =
          .ok db ∧
      view.Serves none (view.below keccak256 emptyTrieHash)
        (view.eagerLoaded keccak256 emptyTrieHash) view.store.getStorageValue db := by
  have perm := mergeSort_perm (minIndices view.bal) fun a b => a.1 ≤ b.1
  have sorted : (buildValidationIndex view.bal).accountsByMinIndex.Pairwise fun a b => a.1 ≤ b.1 :=
    (pairwise_mergeSort (by simpa using fun _ _ _ => Nat.le_trans)
      (by simpa using Nat.le_total) _).imp (by simp)
  have taken : ∀ entry ∈ (buildValidationIndex view.bal).accountsByMinIndex.takeWhile
      (fun entry => entry.1 ≤ view.maxIdx), entry ∈ minIndices view.bal ∧ entry.1 ≤ view.maxIdx :=
    fun entry mem => ⟨perm.mem_iff.1 ((takeWhile_sublist _).mem mem), by
      simpa using mem_takeWhile_imp mem⟩
  obtain ⟨db, done, sources, cached, -, written⟩ := @Sources.seedEntries keccak256 emptyTrieHash
    view (.newWithSharedBase view.store view.base) ordered
    ((buildValidationIndex view.bal).accountsByMinIndex.takeWhile fun entry => entry.1 ≤ view.maxIdx)
    (((perm.map Prod.snd).nodup_iff.2 (nodup_minIndices view.bal)).sublist
      ((takeWhile_sublist _).map _))
    (fun entry mem => by
      obtain ⟨account, found, least⟩ := mem_minIndices.1 (taken entry mem).1
      exact ⟨account, found, entry.1, (min?_eq_some_iff.1 least).1, (taken entry mem).2⟩)
    ⟨rfl, rfl, rfl, rfl, rfl⟩ (fun _ _ _ _ => rfl) (fun _ _ present => nomatch present)
  refine ⟨db, done, sources, fun address missing => ?_, fun address account present => ?_,
    fun address account present key => ?_⟩
  · -- What is not written has no change at the index.
    have uncovered : ¬(view.AnyInfo address ∨ view.AnySlot address) := by
      intro covered
      obtain ⟨account, changes⟩ : ∃ account, view.changes address = some account := by
        rw [← Option.ne_none_iff_exists']
        intro none
        simp [AnyInfo, AnySlot, balanceAt, nonceAt, codeAt, slotAt, none] at covered
      obtain ⟨rfl, canonical⟩ := Sources.changes_of_find ordered changes
      obtain ⟨i, seen, early⟩ := (covered_iff canonical changes).1 covered
      obtain ⟨acctIdx, found⟩ := getElem?_of_mem (mem_of_find?_eq_some changes)
      obtain ⟨least, isLeast⟩ : ∃ least, account.seenIndices.min? = some least := by
        rw [← Option.ne_none_iff_exists', ne_eq, min?_eq_none_iff]
        exact ne_nil_of_mem seen
      have below := (min?_eq_some_iff.1 isLeast).2 i seen
      have entry : (least, acctIdx) ∈ (buildValidationIndex view.bal).accountsByMinIndex :=
        perm.mem_iff.2 (mem_minIndices.2 ⟨account, found, isLeast⟩)
      exact written _ (mem_takeWhile_of_sorted sorted entry (below.trans early)) account found missing
    rw [not_or] at uncovered
    rw [eagerLoaded, if_neg uncovered.2, Sources.lazyLoaded_of_missing uncovered.1]
  · rw [cached address account present]
  · rw [cached address account present]

/-! ### When the reads are right -/

/-- The account has lost its storage, once it is marked as modified if `touched`. -/
def Lost (account : LevmAccount) (touched : Prop) : Prop :=
  account.status = .destroyedModified ∨ (account.status = .destroyed ∧ touched)

open Classical in
theorem slotOr_lazyLoaded (address : Address) (key : H256) (fallback : U256) :
    (view.lazyLoaded keccak256 emptyTrieHash address).slotOr fallback key =
      if view.AllInfo address then fallback
      else (view.base address).elim fallback fun account =>
        (account.storage key).getD
          (if Lost account (view.AnyInfo address) then 0 else fallback) := by
  unfold lazyLoaded
  split_ifs with all any
  · rfl
  · cases held : view.base address with
    | none => simp [below, held, slotOr, markModified, ofState]
    | some account =>
      cases slot : account.storage key <;> cases status : account.status <;>
        simp [below, held, slotOr, markModified, slot, status, Lost, any]
  · cases held : view.base address with
    | none => simp [below, held, slotOr, ofState]
    | some account =>
      cases slot : account.storage key <;> cases status : account.status <;>
        simp [below, held, slotOr, slot, status, Lost, any]

open Classical in
theorem slotOr_eagerLoaded (address : Address) (key : H256) (fallback : U256) :
    (view.eagerLoaded keccak256 emptyTrieHash address).slotOr fallback key =
      (view.slotAt address key).getD
        (if view.AllInfo address then fallback
        else (view.base address).elim fallback fun account =>
          (account.storage key).getD
            (if Lost account (view.AnyInfo address ∨ view.AnySlot address) then 0 else fallback)) := by
  by_cases slots : view.AnySlot address
  · rw [eagerLoaded, if_pos slots, slotOr]
    cases listed : view.slotAt address key with
    | some value => simp [listed]
    | none =>
      by_cases all : view.AllInfo address
      · simp [listed, lazyLoaded, all, markModified]
      cases held : view.base address with
      | none =>
        by_cases any : view.AnyInfo address <;>
          simp [listed, held, lazyLoaded, all, any, below, markModified,
            ofState]
      | some account =>
        by_cases any : view.AnyInfo address <;> cases slot : account.storage key <;>
          cases status : account.status <;>
          simp [listed, held, lazyLoaded, all, any, below, markModified, slot, status,
            Lost, slots]
  · have listed : view.slotAt address key = none := by_contra fun found => slots ⟨key, found⟩
    rw [eagerLoaded, if_neg slots, slotOr_lazyLoaded, listed, Option.getD_none]
    simp only [slots, or_false]

/-- A slot whose sources agree. For an account that the list has whole, a slot of the shared base is
that of the store unless the list has it. For any other account of the shared base, a slot it holds
is that of the list if the list has it; and when the account lost its storage, slots it does not
hold are zero in the list and in the store. -/
@[mk_iff]
structure Consistent (view : View) (address : Address) (key : H256) : Prop where
  whole : view.AllInfo address → view.slotAt address key = none →
    ∀ account ∈ view.base address, ∀ value ∈ account.storage key,
      value = view.store.getStorageValue address key
  held : ¬view.AllInfo address → ∀ account ∈ view.base address, ∀ value ∈ account.storage key,
    ∀ listed ∈ view.slotAt address key, listed = value
  lost : ¬view.AllInfo address → ∀ account ∈ view.base address, account.storage key = none →
    Lost account (view.AnyInfo address) → ∀ listed ∈ view.slotAt address key, listed = 0
  lostStore : ¬view.AllInfo address → ∀ account ∈ view.base address, account.storage key = none →
    Lost account (view.AnyInfo address ∨ view.AnySlot address) → view.slotAt address key = none →
      view.store.getStorageValue address key = 0

theorem Lost.mono {account : LevmAccount} {p q : Prop} (imp : p → q) (lost : Lost account p) :
    Lost account q :=
  lost.imp_right fun h => ⟨h.1, imp h.2⟩

theorem consistent_iff_slotOr (address : Address) (key : H256) :
    view.Consistent address key ↔
      (view.lazyLoaded keccak256 emptyTrieHash address).slotOr
          ((view.slotAt address key).getD (view.store.getStorageValue address key)) key =
        view.expectedSlot address key ∧
      (view.eagerLoaded keccak256 emptyTrieHash address).slotOr
          (view.store.getStorageValue address key) key = view.expectedSlot address key := by
  rw [slotOr_lazyLoaded, slotOr_eagerLoaded, expectedSlot, consistent_iff]
  cases held : view.base address with
  | none => simp
  | some account =>
    by_cases all : view.AllInfo address
    · cases listed : view.slotAt address key <;> cases slot : account.storage key <;>
        simp [all, slot, eq_comm]
    cases slot : account.storage key with
    | some value =>
      cases listed : view.slotAt address key <;> simp [all, slot, eq_comm]
    | none =>
      have mono : Lost account (view.AnyInfo address) →
        Lost account (view.AnyInfo address ∨ view.AnySlot address) := Lost.mono .inl
      by_cases lost : Lost account (view.AnyInfo address)
      · cases listed : view.slotAt address key <;> simp [all, slot, lost, mono lost, eq_comm]
      · by_cases lostStore : Lost account (view.AnyInfo address ∨ view.AnySlot address) <;>
          cases listed : view.slotAt address key <;> simp [all, slot, lost, lostStore, eq_comm]

def expected (keccak256 : Bytes → H256) (emptyTrieHash : H256) (view : View) :
    GeneralizedDatabase.Read → GeneralizedDatabase.Seen
  | .info address => .info (view.expectedInfo keccak256 emptyTrieHash address)
  | .slot address key => .slot (view.expectedSlot address key)

/-- Every sequence of reads sees what the sources say, through the cursor and with the list applied
beforehand. -/
def Exact (keccak256 : Bytes → H256) (emptyTrieHash : H256) (view : View) : Prop :=
  ∃ eager, (GeneralizedDatabase.newWithSharedBase view.store view.base).seedDbFromBal keccak256
      emptyTrieHash view.bal view.maxIdx (buildValidationIndex view.bal).accountsByMinIndex =
        .ok eager ∧
    ∀ reads,
      (GeneralizedDatabase.forTransaction view.store view.base view.bal view.maxIdx).readAll
          keccak256 emptyTrieHash reads =
        .ok (reads.map (view.expected keccak256 emptyTrieHash)) ∧
      eager.readAll keccak256 emptyTrieHash reads =
        .ok (reads.map (view.expected keccak256 emptyTrieHash))

theorem finds_lazy (ordered : validateOrdering view.bal = .ok ()) :
    view.Finds keccak256 emptyTrieHash (some view.cursor) (view.lazyLoaded keccak256 emptyTrieHash)
      fun address key => (view.slotAt address key).getD (view.store.getStorageValue address key) where
  account _ sources _ absent := Sources.loadAccount ordered sources absent
  slot _ sources address key := by rw [Sources.balHit ordered sources]

theorem finds_eager :
    view.Finds keccak256 emptyTrieHash none (view.below keccak256 emptyTrieHash)
      view.store.getStorageValue where
  account db sources address absent := by
    simp only [GeneralizedDatabase.loadAccount, sources.loadCached_none absent, sources.cursor,
      sources.loadFromBase]
    exact ⟨_, rfl, sources.setCurrent _ _, rfl⟩
  slot db sources address key := by
    rw [GeneralizedDatabase.balHit, sources.cursor]
    rfl

theorem serves_lazy (small : view.maxIdx + 1 < 2 ^ 32) :
    view.Serves (some view.cursor) (view.lazyLoaded keccak256 emptyTrieHash)
      (view.lazyLoaded keccak256 emptyTrieHash)
      (fun address key => (view.slotAt address key).getD (view.store.getStorageValue address key))
      (.forTransaction view.store view.base view.bal view.maxIdx) where
  sources := by
    refine ⟨rfl, rfl, rfl, rfl, ?_⟩
    rw [GeneralizedDatabase.forTransaction, if_pos small]
    rfl
  absent _ _ := rfl
  info _ _ present := nomatch present
  slot _ _ present := nomatch present

/-- Reads are exact, lazily and with the list applied beforehand, if and only if no slot has
contradicting sources. -/
theorem exact_iff (keccak256 : Bytes → H256) (emptyTrieHash : H256) (view : View)
    (ordered : validateOrdering view.bal = .ok ()) (small : view.maxIdx + 1 < 2 ^ 32) :
    view.Exact keccak256 emptyTrieHash ↔ ∀ address key, view.Consistent address key := by
  obtain ⟨eager, seeded, serves⟩ := @seedDbFromBal keccak256 emptyTrieHash view ordered
  have lazyReads := (serves_lazy small).readAll (@finds_lazy keccak256 emptyTrieHash view ordered)
  have eagerReads := serves.readAll finds_eager
  constructor
  · rintro ⟨other, seededOther, exact⟩ address key
    obtain rfl : eager = other := Except.ok.inj (seeded.symm.trans seededOther)
    obtain ⟨seenLazy, seenEager⟩ := exact [.slot address key]
    rw [lazyReads] at seenLazy
    rw [eagerReads] at seenEager
    refine (@consistent_iff_slotOr keccak256 emptyTrieHash view address key).2 ⟨?_, ?_⟩
    · simpa [observed, expected] using seenLazy
    · simpa [observed, expected] using seenEager
  · intro consistent
    have slots := fun address key =>
      (@consistent_iff_slotOr keccak256 emptyTrieHash view address key).1 (consistent address key)
    refine ⟨eager, seeded, fun reads => ?_⟩
    rw [lazyReads, eagerReads]
    constructor <;> refine congrArg Except.ok (map_congr_left fun read _ => ?_) <;>
      cases read with
      | info address => simp [observed, expected, lazyLoaded_info, eagerLoaded_info]
      | slot address key => simp [observed, expected, slots address key]

/-- A contract left with one slot by the system calls, and a list in which a transaction changes the
slot `changed`. -/
def sampleView (changed : U256) : View where
  bal := [{ address := 5
            storageChanges := [{ slot := changed, slotChanges := [(1, 2)] }]
            storageReads := [], balanceChanges := [(0, 3)], nonceChanges := [], codeChanges := [] }]
  base := fun address => if address = 5 then
    some
      { info := { balance := 0, nonce := 1, codeHash := .repeatByte 1 }
        storage := fun key => if key = u256ToH256 1 then some 1 else none
        hasStorage := true, status := .modified, «exists» := true }
    else none
  store :=
    { getAccountState := fun _ => ⟨0, 0, .repeatByte 0, .repeatByte 0⟩
      getStorageValue := fun _ _ => 0 }
  maxIdx := 1

/-- A slot of the shared base is read from there although an earlier transaction changed it; with
the list applied beforehand the change is seen. -/
theorem forTransaction_reads_stale_slot :
    validateOrdering (sampleView 1).bal = .ok () ∧
    (sampleView 1).expectedSlot 5 (u256ToH256 1) = 2 ∧
    (GeneralizedDatabase.forTransaction (sampleView 1).store (sampleView 1).base (sampleView 1).bal
        1).readAll (fun _ => .repeatByte 0) (.repeatByte 0) [.slot 5 (u256ToH256 1)] =
      .ok [.slot 1] ∧
    ((GeneralizedDatabase.newWithSharedBase (sampleView 1).store (sampleView 1).base).seedDbFromBal
        (fun _ => .repeatByte 0) (.repeatByte 0) (sampleView 1).bal 1
        (buildValidationIndex (sampleView 1).bal).accountsByMinIndex >>= fun eager =>
          eager.readAll (fun _ => .repeatByte 0) (.repeatByte 0) [.slot 5 (u256ToH256 1)]) =
      .ok [.slot 2] := by
  decide +kernel

theorem exact_sampleView : (sampleView 0).Exact (fun _ => .repeatByte 0) (.repeatByte 0) := by
  refine (exact_iff _ _ (sampleView 0) (by decide +kernel) (by decide)).2 fun address key => ?_
  rcases eq_or_ne address 5 with rfl | ne
  · have some_info : ¬(sampleView 0).AllInfo 5 := by decide +kernel
    have unchanged : (sampleView 0).slotAt 5 (u256ToH256 1) = none := by decide +kernel
    refine ⟨fun all => absurd all some_info, fun _ account held value slot listed change => ?_,
      fun _ account held _ lost => ?_, fun _ account held _ lost => ?_⟩
    · obtain rfl := Option.some.inj held
      obtain ⟨rfl, -⟩ : key = u256ToH256 1 ∧ 1 = value := by simpa using slot
      simp [unchanged] at change
    · obtain rfl := Option.some.inj held
      simp [Lost] at lost
    · obtain rfl := Option.some.inj held
      simp [Lost] at lost
  · have missing : (sampleView 0).base address = none := if_neg ne
    constructor <;> simp [missing]

end View

end Ethrex.Bal
