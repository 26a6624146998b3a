import Ethrex.Bal.Steps

/-!
# The recorder follows the block

The invariant of a recorder in a block, one lemma for each call, and the run.
-/

namespace Ethrex.Bal

open Journal List

/-! ### The blocks the recorder is made for -/

namespace History

/-- Indices do not go back, and a frame is reverted at the index at which it was opened. -/
def allowed (h : History) : Event → Bool
  | .setIndex index => h.index ≤ index
  | .restore => h.opened.head?.all fun frame => frame.index = h.index
  | _ => true

def allowedRun : History → List Event → Bool
  | _, [] => true
  | h, event :: events => h.allowed event && allowedRun (h.step event) events

end History

/-- The recorder of a session knows the block so far. -/
structure Sound (init : World) (s : Session) : Prop where
  index : s.recorder.currentIndex = s.history.index
  system : s.recorder.inSystemCall = s.history.inSystemCall
  kept : Kept init s.history.index s.history.survivors s.recorder.toChanges
  captured : Captured init s.history.index s.history.survivors s.recorder
  preBalance : ∀ address v, s.recorder.initialBalances[address]? = some v → v = init.balance address
  balance : ∀ address, s.recorder.balanceChanges.get address ≠ [] →
    ∃ v, s.recorder.initialBalances[address]? = some v
  touched : ∀ address, address ∈ s.recorder.touchedAddresses ↔ address ∈ s.history.touched
  accessed : ∀ key, (key ∈ s.recorder.storageReads ∨ s.recorder.storageWrites.get key ≠ []) ↔
    key ∈ s.history.accessed
  accessedTouched : ∀ key ∈ s.history.accessed, key.1 ∈ s.history.touched
  frames : Frames init s.history.index s.history.survivors s.recorder.toChanges s.history.opened
    s.checkpoints

theorem sound_empty (init : World) : Sound init {} where
  index := rfl
  system := rfl
  kept := {
    storage := fun _ => follows_nil _ _
    storageClean := fun _ => clean_nil _ _
    balance := fun _ => follows_nil _ _
    nonce := fun _ => follows_nil _ _
    survives := fun _ _ h => by cases h
    code := fun _ => follows_nil _ _
    codeClean := fun _ => clean_nil _ _
    promoted := fun _ _ h => by cases h }
  captured := {
    preStorage := fun _ _ h => by simp at h
    storage := fun _ h => absurd rfl h
    preCode := fun _ _ h => by simp at h
    code := fun _ h => absurd rfl h }
  preBalance _ _ h := by simp at h
  balance _ h := absurd rfl h
  touched _ := by simp
  accessed _ := by simp [Journaled.get, Journaled.empty]
  accessedTouched _ h := by simp at h
  frames := ⟨rfl, by simp, by simp, by simp⟩

section

variable {K V : Type} [Ord K] [Std.TransOrd K] [Std.LawfulEqOrd K]
variable {m : Std.ExtTreeMap K V} {k k' : K} {v : V}

theorem getElem?_capture {w : V} (h : (m.insertIfNew k v)[k']? = some w) :
    m[k']? = some w ∨ (k = k' ∧ m[k]? = none ∧ w = v) := by
  rw [Std.ExtTreeMap.getElem?_insertIfNew] at h
  split at h
  · rename_i hk
    obtain ⟨hk, hnot⟩ := hk
    exact .inr ⟨Std.LawfulEqCmp.compare_eq_iff_eq.1 hk,
      Std.ExtTreeMap.getElem?_eq_none hnot, (Option.some.inj h).symm⟩
  · exact .inl h

theorem exists_capture (h : k = k' ∨ ∃ w, m[k']? = some w) :
    ∃ w, (m.insertIfNew k v)[k']? = some w := by
  rw [← Option.isSome_iff_exists, ← Std.ExtTreeMap.mem_iff_isSome_getElem?,
    Std.ExtTreeMap.mem_insertIfNew]
  rcases h with rfl | h
  · exact .inl (Std.ReflCmp.compare_self)
  · exact .inr (Std.ExtTreeMap.mem_iff_isSome_getElem?.2 (Option.isSome_iff_exists.2 h))

end

theorem valueBefore_changesOf_append {V : Type} {select : StateChange → Option V} {before : V}
    {index : Nat} {survivors es : List (Nat × StateChange)} (hes : ∀ e ∈ es, e.1 = index) :
    valueBefore before (changesOf select (survivors ++ es)) index =
      valueBefore before (changesOf select survivors) index := by
  have hnone : (changesOf select es).filter (fun e => e.1 < index) = [] := by
    rw [filter_eq_nil_iff]
    intro e he
    obtain ⟨e', he', hsome⟩ := mem_filterMap.1 he
    obtain ⟨v, -, rfl⟩ := Option.map_eq_some_iff.1 hsome
    simp [hes e' he']
  rw [valueBefore, valueBefore, changesOf, filterMap_append, filter_append]
  rw [changesOf] at hnone
  rw [hnone, append_nil]
  rfl

section

variable {init : World} {s : Session}

theorem Sound.isSystem (h : Sound init s) (address : Address) :
    s.recorder.isSystem address = s.history.isSystem address := by
  rw [Recorder.isSystem, History.isSystem, h.system]

theorem Sound.touch (h : Sound init s) (address : Address) :
    Sound init { s with
      recorder := s.recorder.touch address
      history := { s.history with touched := address :: s.history.touched } } :=
  { h with
    captured := { h.captured with }
    touched address' := by
      rw [mem_cons, ← h.touched, Recorder.touch, Std.ExtTreeSet.mem_insert,
        Std.LawfulEqCmp.compare_eq_iff_eq, eq_comm]
    accessedTouched key hkey := mem_cons_of_mem _ (h.accessedTouched key hkey) }

variable {key : SlotKey} {index : Nat} {survivors : List (Nat × StateChange)}

theorem Sound.read (h : Sound init s) (hkey : key.1 ∈ s.history.touched) :
    Sound init { s with
      recorder := { s.recorder with storageReads := s.recorder.storageReads.insert key }
      history := { s.history with accessed := key :: s.history.accessed } } :=
  { h with
    captured := { h.captured with }
    accessed key' := by
      rw [mem_cons, ← h.accessed, Std.ExtTreeSet.mem_insert,
        Std.LawfulEqCmp.compare_eq_iff_eq, or_assoc, @eq_comm _ key]
    accessedTouched := forall_mem_cons.2 ⟨hkey, h.accessedTouched⟩ }

theorem Recorder.promoteRead_eq (r : Recorder) (address : Address) (slot : U256) :
    ∃ promoted, r.promoteRead address slot = { r with readsPromotedToWrites := promoted } ∧
      (∀ address' slot', slot' ∈ promoted.get address' →
        slot' ∈ r.readsPromotedToWrites.get address' ∨ (address', slot') = (address, slot)) ∧
      ∀ b, Journaled.Extends b r.readsPromotedToWrites → Journaled.Extends b promoted := by
  rw [Recorder.promoteRead]
  split
  · refine ⟨_, rfl, fun address' slot' hslot => ?_, fun b hb => hb.push _ _⟩
    rw [Journaled.get_push] at hslot
    split at hslot
    · rename_i ha
      rcases mem_append.1 hslot with hslot | hslot
      · exact .inl hslot
      · exact .inr (by rw [ha, mem_singleton.1 hslot])
    · exact .inl hslot
  · exact ⟨_, rfl, fun _ _ h => .inl h, fun _ h => h⟩

theorem Captured.append {r : Recorder} {es : List (Nat × StateChange)}
    (h : Captured init index survivors r) (hes : ∀ e ∈ es, e.1 = index) :
    Captured init index (survivors ++ es) r where
  preStorage key v hv := by
    rw [valueBefore_changesOf_append hes]
    exact h.preStorage key v hv
  storage := h.storage
  preCode address v hv := by
    rw [valueBefore_changesOf_append hes]
    exact h.preCode address v hv
  code := h.code

/-- A value of which nothing was captured in this transaction is as it was before it. -/
theorem valueUpto_of_not_captured {K V : Type} [Ord K] [Std.TransOrd K] {m : Std.ExtTreeMap K V}
    {k : K} {before : V} {cs l : List (Change V)} (h : Follows before cs index l)
    (hcaptured : lastAt l index ≠ none → ∃ v, m[k]? = some v) (hnone : m[k]? = none) :
    valueUpto before cs index = valueBefore before cs index := by
  refine h.unchanged _ le_rfl ?_
  by_contra hsome
  obtain ⟨v, hv⟩ := hcaptured hsome
  rw [hnone] at hv
  cases hv

theorem Sound.write (h : Sound init s) {address : Address} (slot value : U256)
    (haddress : address ∈ s.history.touched) {promoted : Journaled Address U256}
    (hpromoted : ∀ address' slot', slot' ∈ promoted.get address' →
        slot' ∈ s.recorder.readsPromotedToWrites.get address' ∨ (address', slot') = (address, slot))
    (hextends : ∀ b, Journaled.Extends b s.recorder.readsPromotedToWrites →
      Journaled.Extends b promoted) :
    Sound init { s with
      recorder := { s.recorder with
        txInitialStorage := s.recorder.txInitialStorage.insertIfNew (address, slot)
          (s.history.storage init (address, slot))
        storageWrites := s.recorder.storageWrites.push (address, slot) (s.recorder.currentIndex, value)
        readsPromotedToWrites := promoted }
      history := { s.history with
        survivors := s.history.survivors ++
          [(s.history.index, .storage (address, slot) value)]
        accessed := (address, slot) :: s.history.accessed } } :=
  { h with
    kept := by
      simp only [h.index]
      exact h.kept.write (address, slot) value hpromoted
    captured := { h.captured.append (by simp) with
      preStorage := fun key v hv => by
        rw [valueBefore_changesOf_append (by simp)]
        rcases getElem?_capture hv with hv | ⟨rfl, hnone, rfl⟩
        · exact h.captured.preStorage key v hv
        · exact valueUpto_of_not_captured (h.kept.storage _) (h.captured.storage _) hnone
      storage := fun key hlast => by
        refine exists_capture ?_
        rw [Journaled.get_push] at hlast
        split at hlast
        · exact .inl ‹_›
        · exact .inr (h.captured.storage key hlast) }
    accessed key := by
      rw [mem_cons, ← h.accessed, Journaled.get_push]
      split
      · rename_i hk
        simp [hk]
      · rename_i hk
        simp [Ne.symm hk]
    accessedTouched := forall_mem_cons.2 ⟨haddress, h.accessedTouched⟩
    frames := by
      refine h.frames.extend (fun b hb => ?_) (by simp)
      exact ⟨hb.1.push _ _, hb.2, hb.3, hb.4, hextends _ hb.5⟩ }

variable (h : Sound init s)

include h

theorem Sound.current_balance {address : Address}
    (hnone : s.recorder.initialBalances[address]? = none) :
    s.history.balance init address = init.balance address := by
  have hnil : s.recorder.balanceChanges.get address = [] := by
    by_contra hne
    obtain ⟨v, hv⟩ := h.balance address hne
    rw [hnone] at hv
    cases hv
  have hfollows := h.kept.balance address
  rw [hnil] at hfollows
  exact hfollows.valueUpto_of_nil le_rfl

theorem Sound.balanceChange {address : Address} (value : U256)
    (hcaptured : ∃ v, s.recorder.initialBalances[address]? = some v) :
    Sound init { s with
      recorder := { s.recorder with
        balanceChanges := s.recorder.balanceChanges.push address (s.recorder.currentIndex, value) }
      history := { s.history with
        survivors := s.history.survivors ++ [(s.history.index, .balance address value)] } } :=
  { h with
    kept := by
      simp only [h.index]
      exact h.kept.balanceChange address value
    captured := { h.captured.append (by simp) with }
    balance address' hne := by
      rw [Journaled.get_push] at hne
      split at hne
      · rename_i ha
        exact ha ▸ hcaptured
      · exact h.balance address' hne
    frames := by
      refine h.frames.extend (fun b hb => ?_) (by simp)
      exact ⟨hb.1, hb.2.push _ _, hb.3, hb.4, hb.5⟩ }

theorem Sound.captureBalance (address : Address) :
    Sound init { s with
      recorder := s.recorder.setInitialBalance address (s.history.balance init address) } :=
  { h with
    captured := { h.captured with }
    preBalance address' v hv := by
      rcases getElem?_capture hv with hv | ⟨rfl, hnone, rfl⟩
      · exact h.preBalance address' v hv
      · exact h.current_balance hnone
    balance address' hne := exists_capture (.inr (h.balance address' hne)) }

theorem Sound.nonceChange (address : Address) (value : Nat) :
    Sound init { s with
      recorder := { s.recorder with
        nonceChanges := s.recorder.nonceChanges.push address (s.recorder.currentIndex, value) }
      history := { s.history with
        survivors := s.history.survivors ++ [(s.history.index, .nonce address value)] } } :=
  { h with
    kept := by
      simp only [h.index]
      exact h.kept.nonceChange address value
    captured := { h.captured.append (by simp) with }
    frames := by
      refine h.frames.extend (fun b hb => ?_) (by simp)
      exact ⟨hb.1, hb.2, hb.3.push _ _, hb.4, hb.5⟩ }

theorem Sound.captureCode (address : Address) (present : Std.ExtTreeSet Address) :
    Sound init { s with
      recorder := { s.recorder with
        addressesWithInitialCode := present
        txInitialCode := s.recorder.txInitialCode.insertIfNew address
          (s.history.code init address) } } :=
  { h with
    captured := {
      preStorage := h.captured.preStorage
      storage := h.captured.storage
      preCode := fun address' v hv => by
        rcases getElem?_capture hv with hv | ⟨rfl, hnone, rfl⟩
        · exact h.captured.preCode address' v hv
        · exact valueUpto_of_not_captured (h.kept.code _) (h.captured.code _) hnone
      code := fun address' hlast => exists_capture (.inr (h.captured.code address' hlast)) } }

theorem Sound.codeChange {address : Address} (value : Bytes)
    (hcaptured : ∃ v, s.recorder.txInitialCode[address]? = some v) :
    Sound init { s with
      recorder := { s.recorder with
        codeChanges := s.recorder.codeChanges.push address (s.recorder.currentIndex, value) }
      history := { s.history with
        survivors := s.history.survivors ++ [(s.history.index, .code address value)] } } :=
  { h with
    kept := by
      simp only [h.index]
      exact h.kept.codeChange address value
    captured := by
      refine { h.captured.append (by simp) with code := fun address' hlast => ?_ }
      rw [Journaled.get_push] at hlast
      split at hlast
      · rename_i ha
        exact ha ▸ hcaptured
      · exact h.captured.code address' hlast
    frames := by
      refine h.frames.extend (fun b hb => ?_) (by simp)
      exact ⟨hb.1, hb.2, hb.3, hb.4.push _ _, hb.5⟩ }

theorem Sound.sameCode (address : Address) :
    Sound init { s with
      history := { s.history with
        survivors := s.history.survivors ++
          [(s.history.index, .code address (s.history.code init address))] } } :=
  { h with
    kept := h.kept.sameCode address rfl
    captured := h.captured.append (by simp)
    frames := h.frames.extend (fun _ hb => hb) (by simp) }

omit h

theorem Recorder.captureInitialCodePresence_eq (r : Recorder) (address : Address) (hasCode : Bool) :
    ∃ present, r.captureInitialCodePresence address hasCode =
        { r with addressesWithInitialCode := present } ∧ (hasCode → address ∈ present) := by
  cases hasCode
  · exact ⟨_, rfl, by simp⟩
  · exact ⟨_, rfl, by simp⟩

theorem Sound.code (h : Sound init s) (address : Address) (value : Bytes) :
    Sound init (s.step init (.code address value)) := by
  obtain ⟨present, heq, hmem⟩ := s.recorder.captureInitialCodePresence_eq address
    (!(s.history.code init address).isEmpty)
  simp only [Session.step, Session.record, History.step, Recorder.recordCodeChange, heq]
  split
  · -- the new code is empty, and the address had no code when it was captured just before
    rename_i hempty
    obtain ⟨hvalue, hpresent⟩ := hempty
    have hcode : s.history.code init address = [] := by
      by_contra hne
      exact hpresent (hmem (by simpa using hne))
    obtain rfl : value = s.history.code init address := by
      rw [hcode]
      simpa using hvalue
    exact ((h.touch address).captureCode address present).sameCode address
  · exact ((h.touch address).captureCode address present).codeChange value (exists_capture (.inl rfl))

theorem Sound.setSystem (h : Sound init s) (inSystemCall : Bool) :
    Sound init { s with
      recorder := { s.recorder with inSystemCall }
      history := { s.history with inSystemCall } } :=
  { h with
    system := rfl
    captured := { h.captured with } }

/-! ### The index and the frames -/

theorem Sound.filtered (h : Sound init s) : Filtered init s.history.survivors s.recorder
    s.recorder.filterNetZeroStorage.filterNetZeroCode :=
  filtered_of_kept (h.index ▸ h.kept) (h.index ▸ h.captured)

theorem Kept.clearTransaction {r : Recorder} (h : Kept init index survivors r.toChanges) :
    Kept init index survivors r.clearTransaction.toChanges :=
  { h with }

theorem Sound.advance (h : Sound init s) {next : Nat} (hnext : s.history.index < next) :
    Sound init { s with
      recorder := { s.recorder.filterNetZeroStorage.filterNetZeroCode.clearTransaction with
        currentIndex := next }
      history := { s.history with index := next } } := by
  obtain ⟨hkept, hstorage, hcode, haccessed, writes, promoted, reads, codes, heq⟩ := h.filtered
  rw [h.index] at hkept hstorage hcode
  rw [heq] at hkept hstorage hcode haccessed ⊢
  exact { h with
    index := rfl
    kept := (hkept.advance hstorage hcode hnext.le).clearTransaction
    captured := {
      preStorage := fun _ _ hv => by simp [Recorder.clearTransaction] at hv
      storage := fun key hlast => absurd (lastAt_eq_none_of_lt (hkept.storage key).bound hnext) hlast
      preCode := fun _ _ hv => by simp [Recorder.clearTransaction] at hv
      code := fun address hlast =>
        absurd (lastAt_eq_none_of_lt (hkept.code address).bound hnext) hlast }
    accessed := fun key => (haccessed key).trans (h.accessed key)
    frames := h.frames.advance hnext }

theorem Sound.checkpoint (h : Sound init s) :
    Sound init { s with
      history := { s.history with
        opened := ⟨s.history.survivors.length, s.history.index⟩ :: s.history.opened }
      checkpoints := s.recorder.checkpoint :: s.checkpoints } :=
  { h with
    frames := h.frames.checkpoint h.kept }

theorem Sound.commit (h : Sound init s) :
    Sound init { s with
      history := { s.history with opened := s.history.opened.tail }
      checkpoints := s.checkpoints.tail } :=
  { h with
    frames := h.frames.tail }

theorem lastAt_ne_none_of_isPrefix {V : Type} {l l' : List (Change V)} (h : l' <+: l) {i : Nat}
    (hlast : lastAt l' i ≠ none) : lastAt l i ≠ none := by
  contrapose! hlast
  exact lastAt_eq_none_iff.2 fun e he => lastAt_eq_none_iff.1 hlast e (h.subset he)

theorem mem_foldl_insert {keys : List SlotKey} {reads : Std.ExtTreeSet SlotKey} :
    key ∈ keys.foldl (fun reads key => reads.insert key) reads ↔ key ∈ reads ∨ key ∈ keys := by
  induction keys generalizing reads with
  | nil => simp
  | cons k keys ih =>
    rw [foldl_cons, ih, Std.ExtTreeSet.mem_insert, Std.LawfulEqCmp.compare_eq_iff_eq,
      mem_cons, @eq_comm _ k]
    tauto

theorem Sound.restore (h : Sound init s) {frame : OpenFrame} {opened : List OpenFrame}
    {cp : Checkpoint} {cps : List Checkpoint} (hopened : s.history.opened = frame :: opened)
    (hcps : s.checkpoints = cp :: cps) (hindex : frame.index = s.history.index) :
    Sound init {
      recorder := s.recorder.restore cp
      history := { s.history with
        survivors := s.history.survivors.take frame.survivors
        opened := opened }
      checkpoints := cps } := by
  have hframes := h.frames
  rw [hopened, hcps] at hframes
  obtain ⟨hkept, hrest⟩ := hframes.restore hindex
  have hsince : ∀ e ∈ s.history.survivors.drop frame.survivors, e.1 = s.history.index :=
    (hframes.each (frame, cp) (by simp) hindex).since
  -- the values before the index do not depend on what is taken back
  have hbefore : ∀ {V : Type} (select : StateChange → Option V) (before : V),
      valueBefore before (changesOf select s.history.survivors) s.history.index =
        valueBefore before (changesOf select (s.history.survivors.take frame.survivors))
          s.history.index := fun select before => by
    conv_lhs => rw [← take_append_drop frame.survivors s.history.survivors]
    exact valueBefore_changesOf_append hsince
  exact { h with
    kept := hkept
    captured := {
      preStorage := fun key v hv => (h.captured.preStorage key v hv).trans (hbefore _ _)
      storage := fun key hlast => h.captured.storage key
        (lastAt_ne_none_of_isPrefix (Journaled.walk_isPrefix _ _ key) hlast)
      preCode := fun address v hv => (h.captured.preCode address v hv).trans (hbefore _ _)
      code := fun address hlast => h.captured.code address
        (lastAt_ne_none_of_isPrefix (Journaled.walk_isPrefix _ _ address) hlast) }
    balance := fun address hne => h.balance address fun hnil => hne
      (prefix_nil.1 (hnil ▸ Journaled.walk_isPrefix _ _ address))
    accessed := fun key => by
      rw [← h.accessed key]
      show key ∈ List.foldl _ _ _ ∨ (s.recorder.storageWrites.walk _).1.get key ≠ [] ↔ _
      have hpre := Journaled.walk_isPrefix cp.storageWritesJournalLen s.recorder.storageWrites key
      rw [mem_foldl_insert, Journaled.mem_walk_iff]
      by_cases hwalk : (s.recorder.storageWrites.walk cp.storageWritesJournalLen).1.get key = []
      · simp [hwalk]
      · have hget : s.recorder.storageWrites.get key ≠ [] := fun hnil =>
          hwalk (prefix_nil.1 (hnil ▸ hpre))
        simp [hwalk, hget]
    frames := hrest }

theorem Sound.step (h : Sound init s) {event : Event} (hallowed : s.history.allowed event) :
    Sound init (s.step init event) := by
  cases event with
  | touch address =>
    have hsystem := h.isSystem address
    simp only [Session.step, Session.record, History.step, Recorder.recordTouchedAddress, hsystem]
    split
    · exact h
    · exact h.touch address
  | read address slot =>
    simp only [Session.step, Session.record, History.step, Recorder.recordStorageRead]
    split
    · -- a slot with writes is known already
      rename_i hne
      have hmem : (address, slot) ∈ s.history.accessed := (h.accessed _).1 (.inr (by simpa using hne))
      have htouched := h.accessedTouched _ hmem
      exact { h with
        touched := fun a => (h.touched a).trans (by simp only [mem_cons]; grind)
        accessed := fun key => (h.accessed key).trans (by simp only [mem_cons]; grind)
        accessedTouched := forall_mem_cons.2 ⟨by simp,
          fun key hkey => mem_cons_of_mem _ (h.accessedTouched key hkey)⟩ }
    · exact (h.touch address).read (by simp)
  | write address slot value =>
    simp only [Session.step, Session.record, History.step, Recorder.recordStorageWrite]
    obtain ⟨promoted, heq, hpromoted, hextends⟩ := Recorder.promoteRead_eq
      (s.recorder.capturePreStorage address slot (s.history.storage init (address, slot)))
      address slot
    rw [heq]
    exact (h.touch address).write slot value (mem_cons_self ..) hpromoted hextends
  | balance address value =>
    have hsystem : (s.recorder.setInitialBalance address
        (s.history.balance init address)).isSystem address = s.history.isSystem address :=
      h.isSystem address
    simp only [Session.step, Session.record, History.step, Recorder.recordBalanceChange, hsystem]
    split
    · exact h.captureBalance address
    · exact ((h.touch address).captureBalance address).balanceChange value (exists_capture (.inl rfl))
  | nonce address value =>
    have hsystem := h.isSystem address
    simp only [Session.step, Session.record, History.step, Recorder.recordNonceChange, hsystem]
    split
    · exact h
    · exact (h.touch address).nonceChange address value
  | code address value => exact h.code address value
  | setIndex index =>
    have hle : s.history.index ≤ index := by simpa [History.allowed] using hallowed
    simp only [Session.step, Session.record, History.step, Recorder.setBlockAccessIndex, h.index]
    split
    · rename_i hne
      exact h.advance (lt_of_le_of_ne hle hne)
    rename_i heq
    obtain rfl : s.history.index = index := not_not.1 heq
    have hsame : { s.recorder with currentIndex := s.history.index } = s.recorder := by
      rw [← h.index]
    rw [hsame]
    exact h
  | enterSystemCall => exact h.setSystem true
  | exitSystemCall => exact h.setSystem false
  | checkpoint => exact h.checkpoint
  | commit => exact h.commit
  | restore =>
    cases hopened : s.history.opened with
    | nil =>
      have hnil : s.checkpoints = [] := eq_nil_of_length_eq_zero (by
        rw [← h.frames.length, hopened]
        rfl)
      have hsame : s.step init .restore = s := by
        simp only [Session.step, Session.record, History.step, hopened, hnil, tail_nil]
        rw [← hnil]
      rw [hsame]
      exact h
    | cons frame opened =>
      simp only [Session.step, Session.record, History.step, hopened]
      cases hcps : s.checkpoints with
      | nil =>
        have := h.frames.length
        rw [hopened, hcps] at this
        cases this
      | cons cp cps =>
        refine h.restore hopened hcps ?_
        simpa [History.allowed, hopened] using hallowed

theorem Sound.run (h : Sound init s) {events : List Event}
    (hallowed : s.history.allowedRun events) :
    Sound init (events.foldl (Session.step init) s) := by
  induction events generalizing s with
  | nil => exact h
  | cons event events ih =>
    simp only [History.allowedRun, Bool.and_eq_true] at hallowed
    exact ih (h.step hallowed.1) hallowed.2

end

end Ethrex.Bal
