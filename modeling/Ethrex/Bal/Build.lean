import Ethrex.Bal.Sound

/-!
# The list that is built

`build` gives a list in canonical order. In a block in which no checkpoint outlives its
transaction it is the list of EIP-7928.
-/

namespace Ethrex.Bal

open Journal List

theorem byPeriod_eq_nil_iff {V : Type} {l : List (Change V)} :
    (byPeriod l).toList = [] ↔ l = [] := by
  constructor
  · intro h
    by_contra hne
    obtain ⟨e, he⟩ := exists_mem_of_ne_nil l hne
    cases hlast : lastAt l e.1 with
    | none => exact lastAt_eq_none_iff.1 hlast e he rfl
    | some v =>
      have := mem_byPeriod.2 hlast
      rw [h] at this
      cases this
  · rintro rfl
    rfl

variable {keys : List SlotKey}

theorem pairwise_slots (h : keys.Pairwise fun a b => compare a b = .lt) (address : Address) :
    ((keys.filter fun key => key.1 = address).map Prod.snd).Pairwise (· < ·) := by
  rw [pairwise_map]
  refine (h.filter _).imp_of_mem fun {a b} ha hb hlt => ?_
  have ha' : a.1 = address := by simpa using (mem_filter.1 ha).2
  have hb' : b.1 = address := by simpa using (mem_filter.1 hb).2
  rw [compare_slotKey, ha', hb', Std.ReflOrd.compare_self] at hlt
  exact compare_lt_iff_lt.1 hlt

theorem mem_slots {address : Address} {slot : U256} :
    slot ∈ (keys.filter fun key => key.1 = address).map Prod.snd ↔ (address, slot) ∈ keys := by
  simp only [mem_map, mem_filter, decide_eq_true_eq, Prod.exists]
  constructor
  · rintro ⟨a, s, ⟨hmem, rfl⟩, rfl⟩
    exact hmem
  · exact fun h => ⟨address, slot, ⟨h, rfl⟩, rfl⟩

theorem pairwise_addresses (addresses : Std.ExtTreeSet Address) :
    addresses.toList.Pairwise (· < ·) :=
  Std.ExtTreeSet.ordered_toList.imp compare_lt_iff_lt.1

namespace Recorder

variable (r : Recorder)
variable {slot : U256}

theorem mem_writtenSlots {address : Address} :
    slot ∈ r.writtenSlots address ↔ r.storageWrites.get (address, slot) ≠ [] :=
  mem_slots.trans ListMap.mem_keys

theorem mem_readSlots {address : Address} :
    slot ∈ r.readSlots address ↔ (address, slot) ∈ r.storageReads ∧
      slot ∉ r.readsPromotedToWrites.get address ∧ r.storageWrites.get (address, slot) = [] := by
  rw [readSlots, mem_filter, mem_slots, Std.ExtTreeSet.mem_toList]
  simp

theorem pairwise_readSlots (address : Address) : (r.readSlots address).Pairwise (· < ·) :=
  (pairwise_slots Std.ExtTreeSet.ordered_toList address).filter _

theorem withoutRoundTrips_sublist (prev : Option U256) (xs : List (Change U256)) :
    (withoutRoundTrips prev xs).Sublist xs := by
  induction xs generalizing prev with
  | nil => exact List.Sublist.refl _
  | cons e xs ih =>
    rw [withoutRoundTrips]
    split
    · exact (ih _).cons _
    · exact (ih _).cons_cons _

theorem canonical_accountChanges (address : Address) : (r.accountChanges address).Canonical where
  slots := by
    rw [accountChanges, pairwise_map]
    exact pairwise_slots (ListMap.pairwise_keys _) address
  changed change hchange := by
    obtain ⟨slot, hslot, rfl⟩ := mem_map.1 hchange
    exact fun hnil => (r.mem_writtenSlots.1 hslot) (byPeriod_eq_nil_iff.1 hnil)
  indices change hchange := by
    obtain ⟨slot, -, rfl⟩ := mem_map.1 hchange
    exact pairwise_byPeriod _
  reads := r.pairwise_readSlots address
  disjoint change hchange hread := by
    obtain ⟨slot, hslot, rfl⟩ := mem_map.1 hchange
    exact r.mem_writtenSlots.1 hslot (r.mem_readSlots.1 hread).2.2
  balances := (pairwise_byPeriod _).sublist (withoutRoundTrips_sublist _ _)
  nonces := pairwise_byPeriod _
  codes := pairwise_byPeriod _

theorem validateOrdering_build_eq_ok : validateOrdering r.build = .ok () := by
  refine validateOrdering_eq_ok (fun account haccount => ?_) ?_
  · obtain ⟨address, -, rfl⟩ := mem_map.1 haccount
    exact canonical_accountChanges _ address
  · rw [build, pairwise_map]
    exact pairwise_addresses _

end Recorder

section

variable {init : U256} {cs : List (Change U256)} {cur : Nat}
variable {start : Nat}

theorem valueBefore_eq_of_unchanged {stop : Nat}
    (h : ∀ j, start ≤ j → j < stop → valueUpto init cs j = valueBefore init cs j)
    (hle : start ≤ stop) : valueBefore init cs stop = valueBefore init cs start := by
  induction stop, hle using Nat.le_induction with
  | base => rfl
  | succ stop hle ih =>
    rw [← ih fun j hj hlt => h j hj (by omega)]
    exact h stop hle (Nat.lt_succ_self stop)

theorem mem_withoutRoundTrips {xs : List (Change U256)} (hsorted : xs.Pairwise fun a b => a.1 < b.1)
    (hvalue : ∀ e ∈ xs, start ≤ e.1 ∧ e.1 ≤ cur ∧ e.2 = valueUpto init cs e.1)
    (hrest : ∀ j, start ≤ j → j ≤ cur → (∀ e ∈ xs, e.1 ≠ j) →
      valueUpto init cs j = valueBefore init cs j) {i : Nat} {v : U256} :
    (i, v) ∈ Recorder.withoutRoundTrips (some (valueBefore init cs start)) xs ↔
      start ≤ i ∧ i ≤ cur ∧ valueUpto init cs i = v ∧ v ≠ valueBefore init cs i := by
  induction xs generalizing start with
  | nil =>
    simp only [Recorder.withoutRoundTrips, not_mem_nil, false_iff]
    rintro ⟨hs, hi, rfl, hne⟩
    exact hne (hrest i hs hi (by simp))
  | cons e xs ih =>
    obtain ⟨k, w⟩ := e
    obtain ⟨hsk, hk, hw⟩ : start ≤ k ∧ k ≤ cur ∧ w = valueUpto init cs k :=
      hvalue (k, w) (by simp)
    have hafter : ∀ e ∈ xs, k < e.1 := fun e he => rel_of_pairwise_cons hsorted he
    -- nothing changes from `start` to `k`
    have hgap : ∀ j, start ≤ j → j < k → valueUpto init cs j = valueBefore init cs j := by
      intro j hj hjk
      refine hrest j hj (by omega) fun e he => ?_
      rcases mem_cons.1 he with rfl | he
      · exact hjk.ne'
      · exact (hjk.trans (hafter e he)).ne'
    have hbefore := valueBefore_eq_of_unchanged hgap hsk
    have ih' := ih hsorted.of_cons
      (fun e he => (⟨hafter e he, (hvalue e (by simp [he])).2⟩ : k + 1 ≤ e.1 ∧ _))
      (fun j hj hjc hne => hrest j (by omega) hjc fun e he => by
        rcases mem_cons.1 he with rfl | he
        · exact (show k < j from hj).ne
        · exact hne e he)
    have hprev : some w = some (valueBefore init cs (k + 1)) := congrArg some hw
    -- an index at or before `k` that changes the value is `k` itself
    have hle : ∀ {i : Nat}, start ≤ i → i ≤ k → valueUpto init cs i ≠ valueBefore init cs i → i = k :=
      fun hs hik hne => by
        by_contra hik'
        exact hne (hgap _ hs (by omega))
    rw [Recorder.withoutRoundTrips, hprev]
    split
    · rename_i heq
      have hsame : valueUpto init cs k = valueBefore init cs k := by
        rw [hbefore]
        exact (Option.some.inj heq).symm
      rw [ih']
      constructor
      · rintro ⟨hs, h⟩
        exact ⟨by omega, h⟩
      rintro ⟨hs, hi, rfl, hne⟩
      refine ⟨?_, hi, rfl, hne⟩
      by_contra hik
      exact hne (hle hs (by omega) hne ▸ hsame)
    · rename_i hne
      rw [mem_cons, ih', Prod.mk.injEq]
      constructor
      · rintro (⟨rfl, rfl⟩ | ⟨hs, h⟩)
        · refine ⟨hsk, hk, hw.symm, fun heq => hne ?_⟩
          rw [← hprev, heq, hbefore]
        · exact ⟨by omega, h⟩
      · rintro ⟨hs, hi, rfl, hne'⟩
        rcases le_or_gt i k with hik | hik
        · obtain rfl := hle hs hik hne'
          exact .inl ⟨rfl, hw.symm⟩
        · exact .inr ⟨hik, hi, rfl, hne'⟩

theorem withoutRoundTrips_eq_diffs {l : List (Change U256)} (h : Follows init cs cur l)
    {captured : Option U256} (hpre : ∀ v ∈ captured, v = init)
    (hcaptured : l ≠ [] → captured ≠ none) :
    Recorder.withoutRoundTrips captured (byPeriod l).toList = diffs init cs cur := by
  refine eq_of_pairwise ((pairwise_byPeriod l).sublist (Recorder.withoutRoundTrips_sublist _ _))
    (pairwise_diffs cur) fun e => ?_
  obtain ⟨i, v⟩ := e
  have hbefore : valueBefore init cs 0 = init := by simp [valueBefore]
  have hvalue : ∀ e ∈ (byPeriod l).toList, 0 ≤ e.1 ∧ e.1 ≤ cur ∧ e.2 = valueUpto init cs e.1 := by
    rintro ⟨k, w⟩ hmem
    have hlast := mem_byPeriod.1 hmem
    have hk : k ≤ cur := by
      by_contra hgt
      rw [lastAt_eq_none_of_lt h.bound (not_le.1 hgt)] at hlast
      cases hlast
    exact ⟨Nat.zero_le k, hk, h.last k hk w hlast⟩
  have hrest : ∀ j, 0 ≤ j → j ≤ cur → (∀ e ∈ (byPeriod l).toList, e.1 ≠ j) →
      valueUpto init cs j = valueBefore init cs j := by
    intro j _ hj hne
    refine h.unchanged j hj ?_
    cases hlast : lastAt l j with
    | none => rfl
    | some w => exact absurd rfl (hne (j, w) (mem_byPeriod.2 hlast))
  have hmem := mem_withoutRoundTrips (pairwise_byPeriod l) hvalue hrest (i := i) (v := v)
  rw [hbefore] at hmem
  rw [mem_diffs]
  cases captured with
  | none =>
    obtain rfl : l = [] := not_not.1 fun hne => hcaptured hne rfl
    have : (byPeriod ([] : List (Change U256))).toList = [] := rfl
    rw [this] at hmem ⊢
    simpa [Recorder.withoutRoundTrips] using hmem
  | some w =>
    rw [hpre w rfl, hmem]
    simp

end

/-! ### The list of a block -/

theorem mem_ascending {α : Type} [Ord α] [Std.TransOrd α] [Std.LawfulEqOrd α] [BEq α]
    [Std.LawfulBEqOrd α] [LawfulBEq α] {xs : List α} {a : α} : a ∈ ascending xs ↔ a ∈ xs := by
  rw [ascending, Std.ExtTreeSet.mem_toList, Std.ExtTreeSet.mem_ofList, contains_iff_mem]

theorem pairwise_ascending {n : Nat} (xs : List (Fin n)) : (ascending xs).Pairwise (· < ·) :=
  Std.ExtTreeSet.ordered_toList.imp compare_lt_iff_lt.1

section

variable {init : World} {s : Session}

theorem History.ne_of_noncesMove {history : History} (h : history.noncesMove init) {address : Address}
    {e : Change Nat} (he : e ∈ changesOf (StateChange.nonceAt address) history.survivors) :
    valueUpto (init.nonce address) (changesOf (StateChange.nonceAt address) history.survivors) e.1 ≠
      valueBefore (init.nonce address) (changesOf (StateChange.nonceAt address) history.survivors)
        e.1 := by
  obtain ⟨⟨i, change⟩, hmem, hselect⟩ := mem_filterMap.1 he
  obtain ⟨v, hv, rfl⟩ := Option.map_eq_some_iff.1 hselect
  have hmoves := all_eq_true.1 h _ hmem
  cases change with
  | nonce address' value =>
    obtain ⟨rfl, -⟩ : address' = address ∧ value = v := by simpa [StateChange.nonceAt] using hv
    simpa using hmoves
  | _ => cases hv

theorem Sound.accountChanges_eq (h : Sound init s) (hmove : s.history.noncesMove init)
    (address : Address) :
    s.recorder.filterNetZeroStorage.filterNetZeroCode.accountChanges address =
      s.history.accountChanges init address := by
  obtain ⟨hkept, hstorage, hcode, haccessed, writes, promoted, reads, codes, heq⟩ := h.filtered
  rw [h.index] at hkept hstorage hcode
  rw [heq] at hkept hstorage hcode haccessed ⊢
  have hslot : ∀ slot, (byPeriod (writes.get (address, slot))).toList =
      s.history.slotChanges init (address, slot) := fun slot =>
    (hkept.storage _).toList_byPeriod (hstorage _)
  have hempty : ∀ slot, s.history.slotChanges init (address, slot) = [] ↔
      writes.get (address, slot) = [] := fun slot => by rw [← hslot, byPeriod_eq_nil_iff]
  have hmem : ∀ slot, slot ∈ s.history.slots address ↔
      (address, slot) ∈ reads ∨ writes.get (address, slot) ≠ [] := fun slot => by
    rw [History.slots, mem_ascending, mem_slots, ← h.accessed, ← haccessed]
  have hslots := pairwise_ascending ((s.history.accessed.filter fun key => key.1 = address).map Prod.snd)
  rw [Recorder.accountChanges, History.accountChanges, AccountChanges.mk.injEq]
  refine ⟨rfl, ?_, ?_, ?_, ?_, (hkept.code address).toList_byPeriod (hcode address)⟩
  · simp only [hslot]
    congr 1
    refine eq_of_pairwise (f := id) (pairwise_slots (ListMap.pairwise_keys _) address)
      (hslots.filter _) fun slot => ?_
    rw [Recorder.mem_writtenSlots, mem_filter, hmem, decide_eq_true_eq, ne_eq, ne_eq, hempty]
    tauto
  · refine eq_of_pairwise (f := id) (Recorder.pairwise_readSlots _ address) (hslots.filter _)
      fun slot => ?_
    rw [Recorder.mem_readSlots, mem_filter, hmem, decide_eq_true_eq, hempty]
    constructor
    · rintro ⟨hread, -, hnil⟩
      exact ⟨.inl hread, hnil⟩
    · rintro ⟨hread, hnil⟩
      exact ⟨hread.resolve_right (not_not.2 hnil), fun hp => hkept.promoted address slot hp hnil,
        hnil⟩
  · exact withoutRoundTrips_eq_diffs (hkept.balance address)
      (fun v hv => h.preBalance address v hv) fun hne hnone => by
        obtain ⟨v, hv⟩ := h.balance address hne
        exact absurd (hnone.symm.trans hv) (by simp)
  · refine (hkept.nonce address).toList_byPeriod fun i hi v hv => ?_
    obtain ⟨e, he, rfl⟩ : ∃ e ∈ s.recorder.nonceChanges.get address, e.1 = i := by
      by_contra hnone
      push Not at hnone
      rw [lastAt_eq_none_iff.2 hnone] at hv
      cases hv
    rw [(hkept.nonce address).last _ (by omega) v hv]
    exact History.ne_of_noncesMove hmove (hkept.survives address e he)

theorem Sound.build_eq (h : Sound init s) (hmove : s.history.noncesMove init) :
    s.recorder.build = s.history.accessList init := by
  obtain ⟨-, -, -, -, writes, promoted, reads, codes, heq⟩ := h.filtered
  have htouched : s.recorder.filterNetZeroStorage.filterNetZeroCode.touchedAddresses =
      s.recorder.touchedAddresses := by rw [heq]
  have haddresses : s.recorder.touchedAddresses.toList = ascending s.history.touched :=
    eq_of_pairwise (f := id) (pairwise_addresses _) (pairwise_ascending _) fun address => by
      rw [Std.ExtTreeSet.mem_toList, mem_ascending, h.touched]
  rw [Recorder.build, History.accessList, htouched, haddresses]
  exact map_congr_left fun address _ => h.accountChanges_eq hmove address

end

theorem Session.run_history (init : World) (events : List Event) (s : Session) :
    (events.foldl (Session.step init) s).history = events.foldl History.step s.history := by
  induction events generalizing s with
  | nil => rfl
  | cons event events ih => exact ih (s.step init event)

/-- The list of any block is in canonical order; it is the list of EIP-7928 if no checkpoint
outlives its transaction and no index ends with the nonce that it started with. -/
theorem build_eq_accessList (init : World) (events : List Event) :
    validateOrdering (Session.run init events).recorder.build = .ok () ∧
      (History.allowedRun {} events → (History.run events).noncesMove init →
        (Session.run init events).recorder.build = (History.run events).accessList init) := by
  refine ⟨Recorder.validateOrdering_build_eq_ok _, fun hallowed hmove => ?_⟩
  have hsound := (sound_empty init).run hallowed
  rw [History.run, ← Session.run_history init events {}] at hmove ⊢
  exact hsound.build_eq hmove

def World.zero : World := ⟨fun _ => 0, fun _ => 0, fun _ => 0, fun _ => []⟩

/-- A frame that writes and is reverted after the index has advanced: its write stays in the
list. -/
theorem build_ne_accessList_of_late_restore :
    (Session.run .zero [.setIndex 1, .checkpoint, .write 7 3 5, .setIndex 2,
      .restore]).recorder.build ≠
      (History.run [.setIndex 1, .checkpoint, .write 7 3 5, .setIndex 2, .restore]).accessList .zero := by
  decide +kernel

/-- A nonce that is set to its own value is in the list of the recorder alone. -/
theorem build_ne_accessList_of_same_nonce :
    (Session.run .zero [.setIndex 1, .nonce 9 0]).recorder.build ≠
      (History.run [.setIndex 1, .nonce 9 0]).accessList .zero := by
  decide +kernel

/-- Two transactions: a write that a revert takes back, and a value that returns to its start. -/
theorem build_eq_accessList_two_transactions :
    (Session.run .zero [.setIndex 1, .nonce 9 1, .checkpoint, .write 7 3 5, .balance 9 4, .restore,
        .setIndex 2, .write 7 4 6, .write 7 4 0, .write 7 5 8]).recorder.build =
      [⟨7, [⟨5, [(2, 8)]⟩], [3, 4], [], [], []⟩, ⟨9, [], [], [], [(1, 1)], []⟩] :=
  ((build_eq_accessList .zero _).2 (by decide +kernel) (by decide +kernel)).trans (by decide +kernel)

end Ethrex.Bal
