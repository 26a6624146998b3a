import Ethrex.Types

/-!
# Block access lists

The list of EIP-7928 and `validate_ordering`.
-/

namespace Ethrex.Bal

open List

/-- A change of a value of type `V`: `StorageChange`, `BalanceChange`, `NonceChange` and
`CodeChange`.  The first component is the `block_access_index`. -/
abbrev Change (V : Type) := Nat × V

structure SlotChange where
  slot : U256
  slotChanges : List (Change U256)
  deriving DecidableEq, Repr

structure AccountChanges where
  address : Address
  storageChanges : List SlotChange
  storageReads : List U256
  balanceChanges : List (Change U256)
  nonceChanges : List (Change Nat)
  codeChanges : List (Change Bytes)
  deriving DecidableEq, Repr

abbrev BlockAccessList := List AccountChanges

/-- The violations that `validate_ordering` describes, with what its message shows. -/
inductive OrderingError where
  | accounts (prev address : Address)
  | storageChanges (address : Address) (slot next : U256)
  | emptyChangeSet (slot : U256) (address : Address)
  | slotChanges (address : Address) (slot : U256) (index next : Nat)
  | storageReads (address : Address) (slot next : U256)
  | changedAndRead (slot : U256) (address : Address)
  | balanceChanges (address : Address) (index next : Nat)
  | nonceChanges (address : Address) (index next : Nat)
  | codeChanges (address : Address) (index next : Nat)
  deriving DecidableEq, Repr

/-- The check of `windows(2)`: the first window that does not ascend strictly is the error. -/
def checkAscending {α β : Type} [LinearOrder β] (key : α → β) (error : β → β → OrderingError) :
    List α → Except OrderingError Unit
  | a :: b :: rest =>
    if key a ≥ key b then .error (error (key a) (key b))
    else checkAscending key error (b :: rest)
  | _ => .ok ()

/-- The checks on one slot of `storage_changes`. -/
def checkSlotChange (address : Address) (change : SlotChange) : Except OrderingError Unit :=
  if change.slotChanges.isEmpty then .error (.emptyChangeSet change.slot address)
  else checkAscending Prod.fst (.slotChanges address change.slot) change.slotChanges

/-- No slot is in both lists: `partition_point` is the number of slots below the one looked up. -/
def checkNotChanged (account : AccountChanges) (slot : U256) : Except OrderingError Unit :=
  let pos := (account.storageChanges.takeWhile fun change => change.slot < slot).length
  match account.storageChanges[pos]? with
  | some change =>
    if change.slot = slot then .error (.changedAndRead slot account.address) else .ok ()
  | none => .ok ()

def AccountChanges.validateOrdering (account : AccountChanges) : Except OrderingError Unit := do
  checkAscending SlotChange.slot (.storageChanges account.address) account.storageChanges
  account.storageChanges.forM (checkSlotChange account.address)
  checkAscending id (.storageReads account.address) account.storageReads
  account.storageReads.forM (checkNotChanged account)
  checkAscending Prod.fst (.balanceChanges account.address) account.balanceChanges
  checkAscending Prod.fst (.nonceChanges account.address) account.nonceChanges
  checkAscending Prod.fst (.codeChanges account.address) account.codeChanges

/-- The loop of `validate_ordering` with the address of the account before. -/
def validateOrderingFrom : Option Address → BlockAccessList → Except OrderingError Unit
  | _, [] => .ok ()
  | prev, account :: rest =>
    match prev with
    | some prev =>
      if prev ≥ account.address then .error (.accounts prev account.address)
      else do
        account.validateOrdering
        validateOrderingFrom (some account.address) rest
    | none => do
      account.validateOrdering
      validateOrderingFrom (some account.address) rest

def validateOrdering (bal : BlockAccessList) : Except OrderingError Unit :=
  validateOrderingFrom none bal

/-! ### What passes the checks -/

theorem checkAscending_eq_ok {α β : Type} [LinearOrder β] {key : α → β}
    {error : β → β → OrderingError} {xs : List α} (h : xs.Pairwise fun a b => key a < key b) :
    checkAscending key error xs = .ok () := by
  induction xs with
  | nil => rfl
  | cons a xs ih =>
    cases xs with
    | nil => rfl
    | cons b xs =>
      have hab : ¬key a ≥ key b := not_le.2 (rel_of_pairwise_cons h (by simp))
      rw [checkAscending, if_neg hab]
      exact ih h.of_cons

theorem forM_eq_ok {α : Type} {xs : List α} {check : α → Except OrderingError Unit}
    (h : ∀ a ∈ xs, check a = .ok ()) : xs.forM check = .ok () := by
  induction xs with
  | nil => rfl
  | cons a xs ih =>
    simp only [List.forM, h a (by simp)]
    exact ih fun b hb => h b (by simp [hb])

structure AccountChanges.Canonical (account : AccountChanges) : Prop where
  slots : account.storageChanges.Pairwise fun a b => a.slot < b.slot
  changed : ∀ change ∈ account.storageChanges, change.slotChanges ≠ []
  indices : ∀ change ∈ account.storageChanges, change.slotChanges.Pairwise fun a b => a.1 < b.1
  reads : account.storageReads.Pairwise (· < ·)
  disjoint : ∀ change ∈ account.storageChanges, change.slot ∉ account.storageReads
  balances : account.balanceChanges.Pairwise fun a b => a.1 < b.1
  nonces : account.nonceChanges.Pairwise fun a b => a.1 < b.1
  codes : account.codeChanges.Pairwise fun a b => a.1 < b.1

variable {account : AccountChanges} {bal : BlockAccessList}

theorem AccountChanges.Canonical.validateOrdering (h : account.Canonical) :
    account.validateOrdering = .ok () := by
  have hslot : ∀ change ∈ account.storageChanges,
      checkSlotChange account.address change = .ok () := fun change hchange => by
    rw [checkSlotChange, if_neg (by simpa using h.changed change hchange)]
    exact checkAscending_eq_ok (h.indices change hchange)
  have hreads : account.storageReads.Pairwise fun a b => id a < id b := h.reads
  have hread : ∀ slot ∈ account.storageReads, checkNotChanged account slot = .ok () := by
    intro slot hslot
    rw [checkNotChanged]
    split
    · rename_i change hchange
      have hmem := mem_of_getElem? hchange
      rw [if_neg]
      rintro rfl
      exact h.disjoint change hmem hslot
    · rfl
  rw [AccountChanges.validateOrdering, checkAscending_eq_ok h.slots, forM_eq_ok hslot,
    checkAscending_eq_ok hreads, forM_eq_ok hread, checkAscending_eq_ok h.balances,
    checkAscending_eq_ok h.nonces]
  exact checkAscending_eq_ok h.codes

theorem validateOrdering_eq_ok (h : ∀ account ∈ bal, account.Canonical)
    (haddress : bal.Pairwise fun a b => a.address < b.address) : validateOrdering bal = .ok () := by
  suffices hfrom : ∀ prev : Option Address, (∀ p ∈ prev, ∀ account ∈ bal, p < account.address) →
      validateOrderingFrom prev bal = .ok () from hfrom none (by simp)
  induction bal with
  | nil => exact fun _ _ => rfl
  | cons account bal ih =>
    intro prev hprev
    have hrest := ih (fun a ha => h a (by simp [ha])) haddress.of_cons (some account.address)
      (by rintro _ ⟨⟩ a ha; exact rel_of_pairwise_cons haddress ha)
    cases prev with
    | none =>
      rw [validateOrderingFrom, (h account (by simp)).validateOrdering]
      exact hrest
    | some prev =>
      have hlt : ¬prev ≥ account.address := not_le.2 (hprev prev rfl account (by simp))
      rw [validateOrderingFrom, if_neg hlt, (h account (by simp)).validateOrdering]
      exact hrest

theorem pairwise_of_checkAscending {α β : Type} [LinearOrder β] {key : α → β}
    {error : β → β → OrderingError} {xs : List α} (h : checkAscending key error xs = .ok ()) :
    xs.Pairwise fun a b => key a < key b := by
  suffices hchain : xs.IsChain fun a b => key a < key b by
    have : Trans (fun a b : α => key a < key b) (fun a b => key a < key b) fun a b => key a < key b :=
      ⟨lt_trans⟩
    exact isChain_iff_pairwise.1 hchain
  induction xs with
  | nil => exact .nil
  | cons a xs ih =>
    cases xs with
    | nil => exact .singleton a
    | cons b xs =>
      rw [checkAscending] at h
      split_ifs at h with hab
      exact .cons_cons (not_le.1 hab) (ih h)

theorem of_forM_eq_ok {α : Type} {xs : List α} {check : α → Except OrderingError Unit}
    (h : xs.forM check = .ok ()) : ∀ a ∈ xs, check a = .ok () := by
  induction xs with
  | nil => simp
  | cons a xs ih =>
    obtain ⟨_, hfirst, hrest⟩ := bind_eq_ok.1 h
    rintro b (_ | ⟨_, hb⟩)
    · exact hfirst
    · exact ih hrest b hb

theorem notMem_of_checkNotChanged {slot : U256}
    (hslots : account.storageChanges.Pairwise fun a b => a.slot < b.slot)
    (h : checkNotChanged account slot = .ok ()) :
    ∀ change ∈ account.storageChanges, change.slot ≠ slot := by
  rintro change hmem rfl
  have hsplit := takeWhile_append_dropWhile (p := fun c : SlotChange => c.slot < change.slot)
    (l := account.storageChanges)
  have hfirst := head?_dropWhile_not (fun c : SlotChange => c.slot < change.slot)
    account.storageChanges
  rw [checkNotChanged] at h
  cases hdrop : account.storageChanges.dropWhile (·.slot < change.slot) with
  | nil =>
    rw [hdrop, append_nil] at hsplit
    rw [← hsplit] at hmem
    simpa using mem_takeWhile_imp hmem
  | cons first rest =>
    have hnot : ¬first.slot < change.slot := by simpa [hdrop] using hfirst
    have hchange : change ∈ first :: rest := by
      rw [← hsplit, hdrop, mem_append] at hmem
      exact hmem.resolve_left fun hlow => by simpa using mem_takeWhile_imp hlow
    have hslot : first.slot = change.slot := by
      rw [← hsplit, hdrop] at hslots
      rcases mem_cons.1 hchange with rfl | hrest
      · rfl
      · exact absurd (rel_of_pairwise_cons (pairwise_append.1 hslots).2.1 hrest) hnot
    have hpos : account.storageChanges[(account.storageChanges.takeWhile
        (·.slot < change.slot)).length]? = some first := by
      rw [hdrop] at hsplit
      exact (congrArg (·[_]?) hsplit.symm).trans (by simp)
    simp only [hpos, if_pos hslot] at h
    cases h

theorem AccountChanges.Canonical.of_validateOrdering (h : account.validateOrdering = .ok ()) :
    account.Canonical := by
  obtain ⟨_, hslots, h⟩ := bind_eq_ok.1 h
  obtain ⟨_, hchanges, h⟩ := bind_eq_ok.1 h
  obtain ⟨_, hreads, h⟩ := bind_eq_ok.1 h
  obtain ⟨_, hdisjoint, h⟩ := bind_eq_ok.1 h
  obtain ⟨_, hbalances, h⟩ := bind_eq_ok.1 h
  obtain ⟨_, hnonces, hcodes⟩ := bind_eq_ok.1 h
  have hslots := pairwise_of_checkAscending hslots
  have hchange : ∀ change ∈ account.storageChanges, change.slotChanges ≠ [] ∧
      change.slotChanges.Pairwise fun a b => a.1 < b.1 := by
    intro change hmem
    have hcheck := of_forM_eq_ok hchanges change hmem
    rw [checkSlotChange] at hcheck
    split_ifs at hcheck with hempty
    exact ⟨by simpa using hempty, pairwise_of_checkAscending hcheck⟩
  exact
    { slots := hslots
      changed := fun change hmem => (hchange change hmem).1
      indices := fun change hmem => (hchange change hmem).2
      reads := pairwise_of_checkAscending hreads
      disjoint := fun change hmem hread =>
        notMem_of_checkNotChanged hslots (of_forM_eq_ok hdisjoint _ hread) change hmem rfl
      balances := pairwise_of_checkAscending hbalances
      nonces := pairwise_of_checkAscending hnonces
      codes := pairwise_of_checkAscending hcodes }

theorem canonical_of_validateOrdering (h : validateOrdering bal = .ok ()) :
    (∀ account ∈ bal, account.Canonical) ∧ bal.Pairwise fun a b => a.address < b.address := by
  suffices hfrom : ∀ prev, validateOrderingFrom prev bal = .ok () →
      (∀ account ∈ bal, account.Canonical) ∧
        (bal.Pairwise fun a b => a.address < b.address) ∧
          ∀ p ∈ prev, ∀ account ∈ bal, p < account.address from
    ⟨(hfrom none h).1, (hfrom none h).2.1⟩
  clear h
  induction bal with
  | nil => simp
  | cons account bal ih =>
    intro prev h
    have hstep : account.validateOrdering = .ok () ∧
        validateOrderingFrom (some account.address) bal = .ok () ∧
          ∀ p ∈ prev, p < account.address := by
      cases prev with
      | none =>
        obtain ⟨_, haccount, hrest⟩ := bind_eq_ok.1 h
        exact ⟨haccount, hrest, by simp⟩
      | some prev =>
        rw [validateOrderingFrom] at h
        split_ifs at h with hprev
        obtain ⟨_, haccount, hrest⟩ := bind_eq_ok.1 h
        exact ⟨haccount, hrest, by simpa using hprev⟩
    obtain ⟨haccount, hrest, hprev⟩ := hstep
    obtain ⟨hcanonical, hpairwise, habove⟩ := ih _ hrest
    refine ⟨?_, ?_, ?_⟩
    · rintro a (_ | ⟨_, ha⟩)
      · exact .of_validateOrdering haccount
      · exact hcanonical a ha
    · exact pairwise_cons.2 ⟨habove _ rfl, hpairwise⟩
    · rintro p hp a (_ | ⟨_, ha⟩)
      · exact hprev p hp
      · exact (hprev p hp).trans (habove _ rfl a ha)

end Ethrex.Bal
