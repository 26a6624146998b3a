import Ethrex.Bal.Database
import Ethrex.Guest.State

/-!
# Merged account updates

The updates of one account by successive flushes, and what they leave in the state trie. A storage
trie is the map of its slots, with 0 for those it does not have.
-/

namespace Ethrex

open List

/-- An account in the state trie, with the slots of its storage trie. -/
@[ext] structure StoredAccount where
  nonce : U64 := 0
  balance : U256 := 0
  codeHash : H256 := emptyKeccakHash
  storage : H256 → U256 := fun _ => 0

def StoredAccount.info (account : StoredAccount) : AccountInfo :=
  ⟨account.codeHash, account.balance, account.nonce⟩

variable (slots : List (H256 × U256))

/-- `HashMap::insert` into the slots of an account. -/
def insertSlot (slot : H256 × U256) : List (H256 × U256) :=
  slots.filter (fun e => e.1 ≠ slot.1) ++ [slot]

def writeSlots (storage : H256 → U256) : H256 → U256 :=
  slots.foldl (fun storage slot => Function.update storage slot.1 slot.2) storage

def slotOf (key : H256) : Option U256 :=
  (slots.findRev? fun slot => slot.1 = key).map Prod.snd

namespace AccountUpdate

def merge (update other : AccountUpdate) : AccountUpdate where
  address := update.address
  removed := other.removed
  removedStorage := update.removedStorage || other.removedStorage
  info := other.info.or update.info
  code := other.code.or update.code
  addedStorage := other.addedStorage.foldl insertSlot update.addedStorage

/-- One turn of the loop of `apply_account_updates_from_trie_batch`, for the account of the
update. -/
def apply (account : Option StoredAccount) (update : AccountUpdate) : Option StoredAccount :=
  if update.removed then none
  else
    let account := account.getD {}
    let account := if update.removedStorage then { account with storage := fun _ => 0 } else account
    let account := match update.info with
      | some info =>
        { account with nonce := info.nonce, balance := info.balance, codeHash := info.codeHash }
      | none => account
    some { account with storage := writeSlots update.addedStorage account.storage }

end AccountUpdate

/-! ### The flush of an account -/

/-- `LevmAccount`, without `exists`. -/
structure CachedAccount where
  info : AccountInfo
  storage : List (H256 × U256)
  hasStorage : Bool
  status : Bal.AccountStatus

def AccountInfo.isEmpty (info : AccountInfo) : Bool :=
  info.balance = 0 && info.nonce = 0 && info.codeHash = emptyKeccakHash

namespace CachedAccount

/-- The written slots whose value differs from the one before. -/
def changedSlots (initial : CachedAccount) (destroyed : Bool) (slots : List (H256 × U256)) :
    Except Bal.InternalError (List (H256 × U256)) :=
  slots.foldlM (fun added slot => do
    let old ← if destroyed then .ok 0 else
      match initial.storage.lookup slot.1 with
      | some old => .ok old
      | none => .error (.custom "Failed to get old value from account's initial storage")
    .ok (if slot.2 ≠ old then added ++ [slot] else added)) []

/-- One turn of the loop of `get_state_transitions_tx`: the update of a modified account, if there
is one, and its new baseline. -/
def stateTransition (codes : H256 → Option Code) (address : Address)
    (initial current : CachedAccount) :
    Except Bal.InternalError (Option AccountUpdate × CachedAccount) := do
  let infoUpdated := initial.info.balance ≠ current.info.balance ∨
    initial.info.nonce ≠ current.info.nonce ∨ initial.info.codeHash ≠ current.info.codeHash
  let code ← if initial.info.codeHash ≠ current.info.codeHash then
      match codes current.info.codeHash with
      | some code => .ok (some code)
      | none => .error (.custom "Failed to get code for account")
    else .ok none
  let wasDestroyed := current.status = .destroyedModified
  let removedStorage := wasDestroyed ∧ initial.hasStorage
  let addedStorage ← initial.changedSlots wasDestroyed current.storage
  let removed := current.info.isEmpty && !initial.info.isEmpty
  if !removed ∧ ¬infoUpdated ∧ addedStorage.isEmpty ∧ ¬removedStorage then .ok (none, initial)
  else
    let baseline := if current.status = .destroyed ∨ current.status = .destroyedModified then current
      else { current with storage := current.storage.foldl insertSlot initial.storage }
    let info := if infoUpdated then some current.info else none
    .ok (some { address, removed, info, code, addedStorage, removedStorage }, baseline)

end CachedAccount

/-! ### Merging as composition -/

section

variable (slots added : List (H256 × U256)) (storage : H256 → U256) (key : H256)

theorem writeSlots_append_singleton (slot : H256 × U256) :
    writeSlots (slots ++ [slot]) storage =
      Function.update (writeSlots slots storage) slot.1 slot.2 := by
  rw [writeSlots, foldl_append]
  rfl

theorem slotOf_append_singleton (slot : H256 × U256) :
    slotOf (slots ++ [slot]) key = if slot.1 = key then some slot.2 else slotOf slots key := by
  by_cases here : slot.1 = key
  · simp [slotOf, here]
  · simp [slotOf, here]

theorem writeSlots_apply : writeSlots slots storage key = (slotOf slots key).getD (storage key) := by
  induction slots using List.reverseRecOn with
  | nil => rfl
  | append_singleton slots slot ih =>
    rw [writeSlots_append_singleton, slotOf_append_singleton, Function.update_apply]
    by_cases here : slot.1 = key
    · rw [if_pos here.symm, if_pos here]
      rfl
    · rw [if_neg (Ne.symm here), if_neg here, ih]

theorem slotOf_insertSlot (slot : H256 × U256) :
    slotOf (insertSlot slots slot) key = if slot.1 = key then some slot.2 else slotOf slots key := by
  rw [insertSlot, slotOf_append_singleton]
  by_cases here : slot.1 = key
  · rw [if_pos here, if_pos here]
  · rw [if_neg here, if_neg here]
    induction slots using List.reverseRecOn with
    | nil => rfl
    | append_singleton slots last ih =>
      rw [filter_append, slotOf_append_singleton]
      by_cases replaced : last.1 = slot.1
      · rw [if_neg (replaced ▸ here), filter_singleton]
        simpa [replaced] using ih
      · rw [filter_singleton]
        simp only [replaced, ne_eq, not_false_eq_true, decide_true, cond_true]
        rw [slotOf_append_singleton, ih]

theorem slotOf_foldl_insertSlot :
    slotOf (added.foldl insertSlot slots) key = (slotOf added key).or (slotOf slots key) := by
  induction added using List.reverseRecOn with
  | nil => rfl
  | append_singleton added slot ih =>
    rw [foldl_append, foldl_cons, foldl_nil, slotOf_insertSlot, slotOf_append_singleton, ih]
    split <;> rfl

end

namespace AccountUpdate

variable {a b u : AccountUpdate}

/-- Storage that `b` clears must not come back through the slots of `a`, and the account not with
anything it had if `a` removes it. -/
def ComposesAt (s : Option StoredAccount) (a b : AccountUpdate) : Prop :=
  b.removed = true ∨
    a.removed = false ∧ (b.removedStorage = true → ∀ key, slotOf b.addedStorage key = none →
      (slotOf a.addedStorage key).getD 0 = 0) ∨
    a.removed = true ∧ (b.info = none → a.info.getD (s.getD {}).info = ⟨emptyKeccakHash, 0, 0⟩) ∧
      ∀ key, slotOf b.addedStorage key = none → (slotOf a.addedStorage key).getD
        (if a.removedStorage || b.removedStorage then 0 else (s.getD {}).storage key) = 0

/-- The same for every account. -/
def Composes (a b : AccountUpdate) : Prop :=
  b.removed = true ∨
    a.removed = false ∧ (b.removedStorage = true → ∀ key, slotOf b.addedStorage key = none →
      (slotOf a.addedStorage key).getD 0 = 0) ∨
    a.removed = true ∧ (b.info = none → a.info = some ⟨emptyKeccakHash, 0, 0⟩) ∧
      ∀ key, slotOf b.addedStorage key = none → (slotOf a.addedStorage key).getD 0 = 0 ∧
        (a.removedStorage = true ∨ b.removedStorage = true ∨ slotOf a.addedStorage key ≠ none)

theorem apply_removed (account : Option StoredAccount) (h : u.removed = true) :
    apply account u = none := by
  rw [apply, if_pos h]

theorem apply_kept (account : Option StoredAccount) (h : u.removed = false) :
    apply account u = some
      { nonce := (u.info.map AccountInfo.nonce).getD (account.getD {}).nonce
        balance := (u.info.map AccountInfo.balance).getD (account.getD {}).balance
        codeHash := (u.info.map AccountInfo.codeHash).getD (account.getD {}).codeHash
        storage := fun key => (slotOf u.addedStorage key).getD
          (if u.removedStorage then 0 else (account.getD {}).storage key) } := by
  rw [apply, if_neg (by simp [h])]
  generalize account.getD {} = account
  simp only [Option.some.injEq]
  ext key
  all_goals cases u.info <;> cases u.removedStorage <;> simp [writeSlots_apply]

variable {account : Option StoredAccount}

theorem apply_merge_kept (hb : b.removed = false) (ha : a.removed = false) :
    apply account (a.merge b) = apply (apply account a) b ↔
      (b.removedStorage = true → ∀ key, slotOf b.addedStorage key = none →
        (slotOf a.addedStorage key).getD 0 = 0) := by
  simp only [apply_kept (u := a.merge b) _ hb, apply_kept _ hb, apply_kept _ ha]
  simp only [merge, slotOf_foldl_insertSlot, Option.getD_some, Option.some.injEq,
    StoredAccount.mk.injEq]
  constructor
  · rintro ⟨-, -, -, storage⟩ cleared key free
    simpa [cleared, free] using congrFun storage key
  · intro covered
    refine ⟨?_, ?_, ?_, funext fun key => ?_⟩
    · cases b.info <;> rfl
    · cases b.info <;> rfl
    · cases b.info <;> rfl
    · cases written : slotOf b.addedStorage key with
      | some value => rfl
      | none =>
        by_cases cleared : b.removedStorage = true
        · simpa [cleared] using covered cleared key written
        · simp [cleared]

theorem apply_merge_removed (hb : b.removed = false) (ha : a.removed = true) :
    apply account (a.merge b) = apply (apply account a) b ↔
      (b.info = none → a.info.getD (account.getD {}).info = ⟨emptyKeccakHash, 0, 0⟩) ∧
        ∀ key, slotOf b.addedStorage key = none → (slotOf a.addedStorage key).getD
          (if a.removedStorage || b.removedStorage then 0 else (account.getD {}).storage key) = 0 := by
  simp only [apply_kept (u := a.merge b) _ hb, apply_kept _ hb, apply_removed _ ha]
  simp only [merge, slotOf_foldl_insertSlot, Option.getD_none, Option.some.injEq,
    StoredAccount.mk.injEq, ite_self]
  constructor
  · rintro ⟨nonce, balance, codeHash, storage⟩
    refine ⟨fun absent => ?_, fun key free => ?_⟩
    · rw [absent] at nonce balance codeHash
      cases given : a.info with
      | none =>
        simp only [given, Option.none_or, Option.map_none, Option.getD_none] at nonce balance codeHash
        simp [StoredAccount.info, nonce, balance, codeHash]
      | some info =>
        simp only [given, Option.none_or, Option.map_some, Option.getD_some, Option.map_none,
          Option.getD_none] at nonce balance codeHash
        simp [← nonce, ← balance, ← codeHash]
    · simpa [free] using congrFun storage key
  · rintro ⟨info, slots⟩
    have storage : ∀ key, ((slotOf b.addedStorage key).or (slotOf a.addedStorage key)).getD
        (if (a.removedStorage || b.removedStorage) = true then 0 else (account.getD {}).storage key) =
          (slotOf b.addedStorage key).getD 0 := by
      intro key
      cases written : slotOf b.addedStorage key with
      | some value => rfl
      | none => exact slots key written
    cases given : b.info with
    | some info => exact ⟨rfl, rfl, rfl, funext storage⟩
    | none =>
      obtain ⟨codeHash, balance, nonce⟩ := AccountInfo.mk.inj (info given)
      cases kept : a.info <;>
      · rw [kept] at codeHash balance nonce
        exact ⟨nonce, balance, codeHash, funext storage⟩

theorem apply_merge_at_iff :
    apply account (a.merge b) = apply (apply account a) b ↔ ComposesAt account a b := by
  cases hb : b.removed with
  | true =>
    simp only [ComposesAt, hb, true_or, iff_true]
    rw [apply_removed _ hb, apply_removed _ (by exact hb)]
  | false =>
    cases ha : a.removed with
    | false => simp [apply_merge_kept hb ha, ComposesAt, ha, hb]
    | true => simp [apply_merge_removed hb ha, ComposesAt, ha, hb]

/-- An account with everything that a removal has to take away. -/
def leftover : StoredAccount := { nonce := 1, storage := fun _ => 1 }

theorem forall_composesAt_iff : (∀ s, ComposesAt s a b) ↔ Composes a b := by
  constructor
  · intro each
    rcases each (some leftover) with removed | kept | ⟨removed, info, slots⟩
    · exact .inl removed
    · exact .inr (.inl kept)
    refine .inr (.inr ⟨removed, fun absent => ?_, fun key free => ?_⟩)
    · cases given : a.info with
      | none => simpa [given, leftover, StoredAccount.info] using info absent
      | some i => simpa [given] using info absent
    · have value := slots key free
      cases written : slotOf a.addedStorage key with
      | none =>
        refine ⟨rfl, ?_⟩
        by_contra kept
        simp_all [leftover]
      | some v => simpa [written] using value
  · rintro (removed | kept | ⟨removed, info, slots⟩) s
    · exact .inl removed
    · exact .inr (.inl kept)
    refine .inr (.inr ⟨removed, fun absent => by rw [info absent]; rfl, fun key free => ?_⟩)
    obtain ⟨zero, covered⟩ := slots key free
    cases written : slotOf a.addedStorage key with
    | some v => simpa [written] using zero
    | none => rcases covered with h | h | h <;> simp_all

/-- For one account, the updates of flushes have the effect of their merge, at every point, exactly
if each may be merged with those before it. -/
theorem apply_foldl_merge_at_iff (account : Option StoredAccount) (u : AccountUpdate)
    (us : List AccountUpdate) :
    (∀ done, done <+: us →
      apply account (done.foldl merge u) = done.foldl apply (apply account u)) ↔
      ∀ done next, done ++ [next] <+: us → ComposesAt account (done.foldl merge u) next := by
  constructor
  · intro same done next le
    rw [← apply_merge_at_iff]
    have whole := same _ le
    rwa [foldl_append, foldl_append, ← same done ((prefix_append _ _).trans le)] at whole
  · intro composes done
    induction done using List.reverseRecOn with
    | nil => exact fun _ => rfl
    | append_singleton done next ih =>
      intro le
      rw [foldl_append, foldl_append, ← ih ((prefix_append _ _).trans le)]
      exact apply_merge_at_iff.2 (composes done next le)

/-- The same for every account. -/
theorem apply_foldl_merge_iff (u : AccountUpdate) (us : List AccountUpdate) :
    (∀ done, done <+: us → ∀ s, apply s (done.foldl merge u) = done.foldl apply (apply s u)) ↔
      ∀ done next, done ++ [next] <+: us → Composes (done.foldl merge u) next := by
  constructor
  · intro same done next le
    refine forall_composesAt_iff.1 fun s => ?_
    exact (apply_foldl_merge_at_iff s u us).1 (fun done le => same done le s) done next le
  · intro composes done le s
    refine (apply_foldl_merge_at_iff s u us).2 (fun done next le => ?_) done le
    exact forall_composesAt_iff.2 (composes done next le) s

end AccountUpdate

/-! ### A contract that is destroyed after a write -/

def slotKey (n : Nat) : H256 := .ofNat n

def contractCode : Code := ⟨.ofNat 7, [0xff]⟩

def contract : CachedAccount where
  info := ⟨contractCode.hash, 0, 1⟩
  storage := [(slotKey 1, 0)]
  hasStorage := true
  status := .unmodified

def written : CachedAccount := { contract with storage := [(slotKey 1, 5)], status := .modified }

/-- The contract destroyed itself and then received a payment. -/
def paidAfterwards : CachedAccount where
  info := ⟨emptyKeccakHash, 1, 0⟩
  storage := []
  hasStorage := false
  status := .destroyedModified

/-- The slot that the first block wrote outlives the merged update, although the second block
destroyed the contract. -/
theorem merge_restores_destroyed_slot :
    ∃ a b baseline last s,
      contract.stateTransition (fun _ => some ⟨emptyKeccakHash, []⟩) 1 written =
        .ok (some a, baseline) ∧
      baseline.stateTransition (fun _ => some ⟨emptyKeccakHash, []⟩) 1 paidAfterwards =
        .ok (some b, last) ∧
      (AccountUpdate.apply (AccountUpdate.apply s a) b).map (fun account =>
        account.storage (slotKey 1)) = some 0 ∧
      (AccountUpdate.apply s (a.merge b)).map (fun account =>
        account.storage (slotKey 1)) = some 5 :=
  ⟨_, _, _, _, some {}, rfl, rfl, by decide +kernel, by decide +kernel⟩

end Ethrex
