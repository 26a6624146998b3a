import Ethrex.Bal.Invariant

/-!
# Calls on the recorder keep its lists right

One lemma for each kind of change, and one for the filters that run when the index advances.
-/

namespace Ethrex.Bal

open Journal List
open StateChange (balanceAt codeAt nonceAt storageAt)

section

variable {init : World} {index : Nat} {survivors : List (Nat × StateChange)} {c : Changes}

variable (h : Kept init index survivors c)

include h

theorem Kept.survives_append (change : StateChange) (address : Address) :
    ∀ e ∈ c.nonceChanges.get address,
      e ∈ changesOf (nonceAt address) (survivors ++ [(index, change)]) := by
  intro e he
  rw [changesOf, filterMap_append]
  exact mem_append_left _ (h.survives address e he)

theorem Kept.write (key : SlotKey) (value : U256) {promoted : Journaled Address U256}
    (hpromoted : ∀ address slot, slot ∈ promoted.get address →
      slot ∈ c.readsPromotedToWrites.get address ∨ (address, slot) = key) :
    Kept init index (survivors ++ [(index, .storage key value)])
      { c with
        storageWrites := c.storageWrites.push key (index, value)
        readsPromotedToWrites := promoted } where
  storage := h.storage.push (by simp [storageAt]) fun key' hne => by
    simp [storageAt, hne]
  storageClean := h.storageClean.push (by simp [storageAt]) fun key' hne => by
    simp [storageAt, hne]
  balance := h.balance.other fun _ => rfl
  nonce := h.nonce.other fun _ => rfl
  survives := h.survives_append _
  code := h.code.other fun _ => rfl
  codeClean := h.codeClean.other fun _ => rfl
  promoted address slot hslot := by
    rw [Journaled.get_push]
    split
    · simp
    · rename_i hne
      exact h.promoted address slot ((hpromoted address slot hslot).resolve_right (Ne.symm hne))

theorem Kept.balanceChange (address : Address) (value : U256) :
    Kept init index (survivors ++ [(index, .balance address value)])
      { c with balanceChanges := c.balanceChanges.push address (index, value) } where
  storage := h.storage.other fun _ => rfl
  storageClean := h.storageClean.other fun _ => rfl
  balance := h.balance.push (by simp [balanceAt]) fun address' hne => by
    simp [balanceAt, hne]
  nonce := h.nonce.other fun _ => rfl
  survives := h.survives_append _
  code := h.code.other fun _ => rfl
  codeClean := h.codeClean.other fun _ => rfl
  promoted := h.promoted

theorem Kept.nonceChange (address : Address) (value : Nat) :
    Kept init index (survivors ++ [(index, .nonce address value)])
      { c with nonceChanges := c.nonceChanges.push address (index, value) } where
  storage := h.storage.other fun _ => rfl
  storageClean := h.storageClean.other fun _ => rfl
  balance := h.balance.other fun _ => rfl
  nonce := h.nonce.push (by simp [nonceAt]) fun address' hne => by
    simp [nonceAt, hne]
  survives address' e he := by
    rw [Journaled.get_push] at he
    split at he
    · rename_i heq
      subst heq
      rw [changesOf_append_some (v := value) (by simp [nonceAt])]
      exact mem_append.2 ((mem_append.1 he).imp_left (h.survives address e))
    · exact h.survives_append _ address' e he
  code := h.code.other fun _ => rfl
  codeClean := h.codeClean.other fun _ => rfl
  promoted := h.promoted

theorem Kept.codeChange (address : Address) (value : Bytes) :
    Kept init index (survivors ++ [(index, .code address value)])
      { c with codeChanges := c.codeChanges.push address (index, value) } where
  storage := h.storage.other fun _ => rfl
  storageClean := h.storageClean.other fun _ => rfl
  balance := h.balance.other fun _ => rfl
  nonce := h.nonce.other fun _ => rfl
  survives := h.survives_append _
  code := h.code.push (by simp [codeAt]) fun address' hne => by
    simp [codeAt, hne]
  codeClean := h.codeClean.push (by simp [codeAt]) fun address' hne => by
    simp [codeAt, hne]
  promoted := h.promoted

theorem Kept.sameCode (address : Address) {value : Bytes}
    (hvalue : value =
      valueUpto (init.code address) (changesOf (codeAt address) survivors) index) :
    Kept init index (survivors ++ [(index, .code address value)]) c where
  storage := h.storage.other fun _ => rfl
  storageClean := h.storageClean.other fun _ => rfl
  balance := h.balance.other fun _ => rfl
  nonce := h.nonce.other fun _ => rfl
  survives := h.survives_append _
  code address' := by
    by_cases ha : address = address'
    · subst ha
      rw [changesOf_append_some (v := value) (by simp [codeAt])]
      exact (h.code address).skip hvalue
    · rw [changesOf_append_none (by simp [codeAt, ha])]
      exact h.code address'
  codeClean address' := by
    by_cases ha : address = address'
    · subst ha
      rw [changesOf_append_some (v := value) (by simp [codeAt])]
      exact (h.codeClean address).skip value
    · rw [changesOf_append_none (by simp [codeAt, ha])]
      exact h.codeClean address'
  promoted := h.promoted

theorem Kept.advance
    (hstorage : CleanAll storageAt init.storage survivors (index + 1) c.storageWrites)
    (hcode : CleanAll codeAt init.code survivors (index + 1) c.codeChanges) {next : Nat}
    (hnext : index ≤ next) : Kept init next survivors c where
  storage key := (h.storage key).advance hnext
  storageClean key := (hstorage key).advance (h.storage key).bound
  balance address := (h.balance address).advance hnext
  nonce address := (h.nonce address).advance hnext
  survives := h.survives
  code address := (h.code address).advance hnext
  codeClean address := (hcode address).advance (h.code address).bound
  promoted := h.promoted

end

theorem foldl_convertToRead (keys : List SlotKey) (r : Recorder) :
    ∃ writes promoted reads, keys.foldl Recorder.convertToRead r =
        { r with storageWrites := writes, readsPromotedToWrites := promoted, storageReads := reads } ∧
      (∀ key, writes.get key = if key ∈ keys then
        dropAt r.currentIndex (r.storageWrites.get key)
        else r.storageWrites.get key) ∧
      (∀ address slot, slot ∈ promoted.get address ↔
        slot ∈ r.readsPromotedToWrites.get address ∧ (address, slot) ∉ keys) ∧
      ∀ key, key ∈ reads ↔ key ∈ r.storageReads ∨ key ∈ keys := by
  induction keys generalizing r with
  | nil => exact ⟨_, _, _, rfl, by simp, by simp, by simp⟩
  | cons k keys ih =>
    obtain ⟨writes, promoted, reads, hfold, hwrites, hpromoted, hreads⟩ := ih (r.convertToRead k)
    refine ⟨writes, promoted, reads, hfold, fun key => ?_, fun address slot => ?_, fun key => ?_⟩
    · rw [hwrites]
      simp only [Recorder.convertToRead, Journaled.get_modify, mem_cons]
      by_cases hk : k = key
      · subst hk
        simp
      · simp only [hk, Ne.symm hk, if_false, false_or]
    · rw [hpromoted]
      simp only [Recorder.convertToRead, Journaled.get_modify, mem_cons, not_or]
      obtain ⟨a, s⟩ := k
      by_cases ha : a = address
      · subst ha
        simp only [if_true, mem_filter, decide_eq_true_eq, Prod.mk.injEq, true_and, ne_eq]
        tauto
      · simp [ha, Ne.symm ha]
    · rw [hreads]
      simp only [Recorder.convertToRead, Std.ExtTreeSet.mem_insert, mem_cons,
        Std.LawfulEqCmp.compare_eq_iff_eq]
      constructor
      · rintro ((rfl | h) | h)
        · exact .inr (.inl rfl)
        · exact .inl h
        · exact .inr (.inr h)
      · rintro (h | rfl | h)
        · exact .inl (.inr h)
        · exact .inl (.inl rfl)
        · exact .inr h

theorem foldl_dropCodeChanges (addresses : List Address) (r : Recorder) :
    ∃ codes, addresses.foldl Recorder.dropCodeChanges r = { r with codeChanges := codes } ∧
      ∀ address, codes.get address = if address ∈ addresses then
        dropAt r.currentIndex (r.codeChanges.get address)
        else r.codeChanges.get address := by
  induction addresses generalizing r with
  | nil => exact ⟨_, rfl, by simp⟩
  | cons a addresses ih =>
    obtain ⟨codes, hfold, hcodes⟩ := ih (r.dropCodeChanges a)
    refine ⟨codes, hfold, fun address => ?_⟩
    rw [hcodes]
    simp only [Recorder.dropCodeChanges, Journaled.get_modify, mem_cons]
    by_cases ha : a = address
    · subst ha
      simp
    · simp only [ha, Ne.symm ha, if_false, false_or]

/-- The values before the current index that the recorder captured, one for every value that it
recorded at the index. -/
structure Captured (init : World) (index : Nat) (survivors : List (Nat × StateChange))
    (r : Recorder) : Prop where
  preStorage : ∀ key v, r.txInitialStorage[key]? = some v →
    v = valueBefore (init.storage key) (changesOf (storageAt key) survivors) index
  storage : ∀ key, lastAt (r.storageWrites.get key) index ≠ none →
    ∃ v, r.txInitialStorage[key]? = some v
  preCode : ∀ address v, r.txInitialCode[address]? = some v →
    v = valueBefore (init.code address) (changesOf (codeAt address) survivors) index
  code : ∀ address, lastAt (r.codeChanges.get address) index ≠ none →
    ∃ v, r.txInitialCode[address]? = some v

variable {index : Nat}

theorem mem_netZero_iff {K V : Type} [Ord K] [Std.TransOrd K] [Std.LawfulEqOrd K] [DecidableEq V]
    {captured : Std.ExtTreeMap K V} {j : Journaled K (Change V)} {before : K → V}
    (hpre : ∀ k v, captured[k]? = some v → v = before k)
    (hcaptured : ∀ k, lastAt (j.get k) index ≠ none → ∃ v, captured[k]? = some v) (k : K) :
    k ∈ (captured.toList.filter fun e => lastAt (j.get e.1) index = some e.2).map Prod.fst ↔
      lastAt (j.get k) index = some (before k) := by
  simp only [mem_map, mem_filter, decide_eq_true_eq, Prod.exists, exists_and_right,
    exists_eq_right, Std.ExtTreeMap.mem_toList_iff_getElem?_eq_some]
  constructor
  · rintro ⟨v, hv, hlast⟩
    rw [hlast, hpre k v hv]
  · intro hlast
    obtain ⟨v, hv⟩ := hcaptured k (by rw [hlast]; simp)
    exact ⟨v, hv, by rw [hlast, hpre k v hv]⟩

theorem follows_clean_of_dropped {V : Type} {init : V} {cs l l' : List (Change V)}
    {p : Prop} [Decidable p] (hfollows : Follows init cs index l) (hclean : Clean init cs index l)
    (hp : p ↔ lastAt l index = some (valueBefore init cs index))
    (hl' : l' = if p then dropAt index l else l) :
    Follows init cs index l' ∧ Clean init cs (index + 1) l' := by
  subst hl'
  split
  · rename_i h
    exact ⟨hfollows.drop (hp.1 h), hclean.drop⟩
  · rename_i h
    exact ⟨hfollows, hclean.succ fun v hv heq => h (hp.2 (by rw [hv, heq]))⟩

/-- `filter_net_zero_storage` and `filter_net_zero_code` only touch writes, codes and reads. -/
structure Filtered (init : World) (survivors : List (Nat × StateChange)) (r r' : Recorder) : Prop where
  kept : Kept init r.currentIndex survivors r'.toChanges
  storageClean : CleanAll storageAt init.storage survivors (r.currentIndex + 1)
    r'.storageWrites
  codeClean : CleanAll codeAt init.code survivors (r.currentIndex + 1) r'.codeChanges
  accessed : ∀ key, (key ∈ r'.storageReads ∨ r'.storageWrites.get key ≠ []) ↔
    (key ∈ r.storageReads ∨ r.storageWrites.get key ≠ [])
  rest : ∃ writes promoted reads codes, r' =
    { r with
      storageWrites := writes, readsPromotedToWrites := promoted
      storageReads := reads, codeChanges := codes }

theorem filtered_of_kept {init : World} {survivors : List (Nat × StateChange)} {r : Recorder}
    (h : Kept init r.currentIndex survivors r.toChanges)
    (hcaptured : Captured init r.currentIndex survivors r) :
    Filtered init survivors r r.filterNetZeroStorage.filterNetZeroCode := by
  obtain ⟨writes, promoted, reads, hstorage, hwrites, hpromoted, hreads⟩ :=
    foldl_convertToRead ((r.txInitialStorage.toList.filter fun e =>
      lastAt (r.storageWrites.get e.1) r.currentIndex = some e.2).map Prod.fst) r
  have hzero := mem_netZero_iff hcaptured.preStorage hcaptured.storage
  obtain ⟨codes, hcode, hcodes⟩ :=
    foldl_dropCodeChanges ((r.txInitialCode.toList.filter fun e =>
      lastAt (r.codeChanges.get e.1) r.currentIndex = some e.2).map Prod.fst)
      { r with storageWrites := writes, readsPromotedToWrites := promoted, storageReads := reads }
  have hcodeZero := mem_netZero_iff hcaptured.preCode hcaptured.code
  have heq : r.filterNetZeroStorage.filterNetZeroCode =
      { r with
        storageWrites := writes, readsPromotedToWrites := promoted
        storageReads := reads, codeChanges := codes } := by
    rw [Recorder.filterNetZeroStorage, hstorage]
    exact hcode
  have hs := fun key => follows_clean_of_dropped (h.storage key) (h.storageClean key) (hzero key)
    (hwrites key)
  have hc := fun address => follows_clean_of_dropped (h.code address) (h.codeClean address)
    (hcodeZero address) (hcodes address)
  rw [heq]
  refine ⟨⟨fun key => (hs key).1, ?_, h.balance, h.nonce, h.survives, fun a => (hc a).1, ?_, ?_⟩,
    fun key => (hs key).2, fun a => (hc a).2, fun key => ?_, _, _, _, _, rfl⟩
  · exact fun key i hi => (hs key).2 i (by omega)
  · exact fun address i hi => (hc address).2 i (by omega)
  · intro address slot hslot
    obtain ⟨hold, hkeep⟩ := (hpromoted address slot).1 hslot
    have := hwrites (address, slot)
    rw [if_neg hkeep] at this
    rw [this]
    exact h.promoted address slot hold
  · rw [hreads, hwrites]
    split
    · rename_i hmem
      have hne : r.storageWrites.get key ≠ [] := fun hnil => by
        have := (hzero key).1 hmem
        rw [hnil] at this
        cases this
      simp [hmem, hne]
    · rename_i hmem
      simp [hmem]

end Ethrex.Bal
