import Ethrex.Bal.History

/-!
# What the recorder knows at any point of a block

`restore` takes back the lists of the recorder together with the surviving changes; what was
touched, accessed and captured only grows.
-/

namespace Ethrex.Bal

open Journal List

/-! ### Lists that follow the surviving changes -/

section

variable {K V : Type} [Ord K] [Std.TransOrd K] [Std.LawfulEqOrd K]
  {select : K → StateChange → Option V} {init : K → V} {survivors : List (Nat × StateChange)}
  {index bound : Nat} {j : Journaled K (Change V)}

def FollowsAll (select : K → StateChange → Option V) (init : K → V)
    (survivors : List (Nat × StateChange)) (index : Nat) (j : Journaled K (Change V)) : Prop :=
  ∀ k, Follows (init k) (changesOf (select k) survivors) index (j.get k)

/-- No list has a net-zero record below `bound`. -/
def CleanAll (select : K → StateChange → Option V) (init : K → V)
    (survivors : List (Nat × StateChange)) (bound : Nat) (j : Journaled K (Change V)) : Prop :=
  ∀ k, Clean (init k) (changesOf (select k) survivors) bound (j.get k)

theorem changesOf_append (select : StateChange → Option V) (index : Nat) (c : StateChange) :
    changesOf select (survivors ++ [(index, c)]) =
      changesOf select survivors ++ ((select c).map fun v => (index, v)).toList := by
  rw [changesOf, changesOf, filterMap_append, filterMap_cons, filterMap_nil]
  cases select c <;> rfl

variable {c : StateChange} {v : V} {k : K}

theorem changesOf_append_none {select : StateChange → Option V} (h : select c = none) :
    changesOf select (survivors ++ [(index, c)]) =
      changesOf select survivors := by
  simp [changesOf_append, h]

theorem changesOf_append_some {select : StateChange → Option V} (h : select c = some v) :
    changesOf select (survivors ++ [(index, c)]) =
      changesOf select survivors ++ [(index, v)] := by
  simp [changesOf_append, h]

/-- A property of each list and its changes holds with a new change if that changes one list. -/
theorem forall_push {P : K → List (Change V) → List (Change V) → Prop}
    (h : ∀ k, P k (changesOf (select k) survivors) (j.get k)) (hself : select k c = some v)
    (hother : ∀ k', k ≠ k' → select k' c = none)
    (hpush : ∀ cs l, P k cs l → P k (cs ++ [(index, v)]) (l ++ [(index, v)])) (k' : K) :
    P k' (changesOf (select k') (survivors ++ [(index, c)])) ((j.push k (index, v)).get k') := by
  classical
  rw [Journaled.get_push]
  split
  · rename_i hk
    subst hk
    rw [changesOf_append_some hself]
    exact hpush _ _ (h k)
  · rename_i hk
    rw [changesOf_append_none (hother k' hk)]
    exact h k'

omit [Std.LawfulEqOrd K] in
theorem FollowsAll.other (h : FollowsAll select init survivors index j)
    (hc : ∀ k, select k c = none) : FollowsAll select init (survivors ++ [(index, c)]) index j :=
  fun k => by
    rw [changesOf_append_none (hc k)]
    exact h k

omit [Std.LawfulEqOrd K] in
theorem CleanAll.other (h : CleanAll select init survivors bound j) (hc : ∀ k, select k c = none) :
    CleanAll select init (survivors ++ [(index, c)]) bound j :=
  fun k => by
    rw [changesOf_append_none (hc k)]
    exact h k

theorem FollowsAll.push (h : FollowsAll select init survivors index j) (hself : select k c = some v)
    (hother : ∀ k', k ≠ k' → select k' c = none) :
    FollowsAll select init (survivors ++ [(index, c)]) index (j.push k (index, v)) :=
  forall_push (P := fun k cs l => Follows (init k) cs index l) h hself hother
    fun _ _ hk => hk.push v

theorem CleanAll.push (h : CleanAll select init survivors index j) (hself : select k c = some v)
    (hother : ∀ k', k ≠ k' → select k' c = none) :
    CleanAll select init (survivors ++ [(index, c)]) index (j.push k (index, v)) :=
  forall_push (P := fun k cs l => Clean (init k) cs index l) h hself hother
    fun _ _ hk => hk.push v

end

/-! ### The lists of the recorder -/

/-- The lists of the recorder for the surviving changes at an index. -/
structure Kept (init : World) (index : Nat) (survivors : List (Nat × StateChange)) (c : Changes) :
    Prop where
  storage : FollowsAll StateChange.storageAt init.storage survivors index c.storageWrites
  storageClean : CleanAll StateChange.storageAt init.storage survivors index c.storageWrites
  balance : FollowsAll StateChange.balanceAt init.balance survivors index c.balanceChanges
  nonce : FollowsAll StateChange.nonceAt init.nonce survivors index c.nonceChanges
  survives : ∀ address, ∀ e ∈ c.nonceChanges.get address,
    e ∈ changesOf (StateChange.nonceAt address) survivors
  code : FollowsAll StateChange.codeAt init.code survivors index c.codeChanges
  codeClean : CleanAll StateChange.codeAt init.code survivors index c.codeChanges
  promoted : ∀ address slot, slot ∈ c.readsPromotedToWrites.get address →
    c.storageWrites.get (address, slot) ≠ []

/-- The lists come from those of `b` by pushes and by restores to checkpoints after `b`. -/
structure Changes.Extends (b c : Changes) : Prop where
  storageWrites : b.storageWrites.Extends c.storageWrites
  balanceChanges : b.balanceChanges.Extends c.balanceChanges
  nonceChanges : b.nonceChanges.Extends c.nonceChanges
  codeChanges : b.codeChanges.Extends c.codeChanges
  readsPromotedToWrites : b.readsPromotedToWrites.Extends c.readsPromotedToWrites

theorem Changes.Extends.refl (c : Changes) : c.Extends c :=
  ⟨.refl _, .refl _, .refl _, .refl _, .refl _⟩

/-- No journal of the first checkpoint is longer than that of the second. -/
structure Checkpoint.LE (a b : Checkpoint) : Prop where
  balanceChanges : a.balanceChangesJournalLen ≤ b.balanceChangesJournalLen
  nonceChanges : a.nonceChangesJournalLen ≤ b.nonceChangesJournalLen
  codeChanges : a.codeChangesJournalLen ≤ b.codeChangesJournalLen
  storageWrites : a.storageWritesJournalLen ≤ b.storageWritesJournalLen
  readsPromoted : a.readsPromotedJournalLen ≤ b.readsPromotedJournalLen

variable {b c : Changes}

theorem Changes.Extends.checkpoint_le (h : b.Extends c) : b.checkpoint.LE c.checkpoint :=
  ⟨h.balanceChanges.1, h.nonceChanges.1, h.codeChanges.1, h.storageWrites.1,
    h.readsPromotedToWrites.1⟩

theorem Changes.Extends.restore (h : b.Extends c) {cp : Checkpoint} (hle : b.checkpoint.LE cp) :
    b.Extends (c.restore cp) :=
  ⟨h.storageWrites.walk hle.storageWrites, h.balanceChanges.walk hle.balanceChanges,
    h.nonceChanges.walk hle.nonceChanges, h.codeChanges.walk hle.codeChanges,
    h.readsPromotedToWrites.walk hle.readsPromoted⟩

theorem Changes.Extends.restore_checkpoint (h : b.Extends c) : c.restore b.checkpoint = b := by
  obtain ⟨hw, hb, hn, hc, hp⟩ := h
  cases b
  simp only [Changes.restore, Changes.checkpoint, Changes.mk.injEq]
  exact ⟨hw.2, hb.2, hn.2, hc.2, hp.2⟩

section

variable {init : World} {index : Nat} {survivors : List (Nat × StateChange)} {c c' : Changes}

/-- A frame opened at the current index: its checkpoint belongs to lists that led to the current
ones and were right for the changes that survived then. -/
structure FrameOk (init : World) (index : Nat) (survivors : List (Nat × StateChange)) (c : Changes)
    (frame : OpenFrame) (cp : Checkpoint) : Prop where
  count : frame.survivors ≤ survivors.length
  since : ∀ e ∈ survivors.drop frame.survivors, e.1 = index
  base : ∃ b : Changes, cp = b.checkpoint ∧ b.Extends c ∧
    Kept init index (survivors.take frame.survivors) b

/-- The open frames, the innermost first. -/
structure Frames (init : World) (index : Nat) (survivors : List (Nat × StateChange)) (c : Changes)
    (opened : List OpenFrame) (cps : List Checkpoint) : Prop where
  length : opened.length = cps.length
  index_le : ∀ frame ∈ opened, frame.index ≤ index
  each : ∀ p ∈ opened.zip cps, p.1.index = index → FrameOk init index survivors c p.1 p.2
  nested : (opened.zip cps).Pairwise fun inner outer => outer.1.index = index →
    outer.1.survivors ≤ inner.1.survivors ∧ outer.2.LE inner.2

variable {opened : List OpenFrame} {cps : List Checkpoint}

variable (h : Frames init index survivors c opened cps)

include h

theorem Frames.extend (hext : ∀ b : Changes, b.Extends c → b.Extends c')
    {es : List (Nat × StateChange)} (hes : ∀ e ∈ es, e.1 = index) :
    Frames init index (survivors ++ es) c' opened cps where
  length := h.length
  index_le := h.index_le
  each p hp hindex := by
    obtain ⟨hcount, hsince, b, hcp, hb, hkept⟩ := h.each p hp hindex
    refine ⟨by simp only [length_append]; omega, fun e he => ?_, b, hcp, hext b hb, ?_⟩
    · rw [drop_append_of_le_length hcount] at he
      rcases mem_append.1 he with he | he
      · exact hsince e he
      · exact hes e he
    · rwa [take_append_of_le_length hcount]
  nested := h.nested

theorem Frames.checkpoint (hkept : Kept init index survivors c) :
    Frames init index survivors c (⟨survivors.length, index⟩ :: opened) (c.checkpoint :: cps) where
  length := by simp [h.length]
  index_le := by
    intro frame hframe
    rcases mem_cons.1 hframe with rfl | hframe
    · exact le_rfl
    · exact h.index_le frame hframe
  each := by
    intro p hp hindex
    rcases mem_cons.1 hp with rfl | hp
    · exact ⟨le_rfl, by simp, c, rfl, .refl c, by simpa using hkept⟩
    · exact h.each p hp hindex
  nested := by
    refine pairwise_cons.2 ⟨fun outer houter hindex => ?_, h.nested⟩
    obtain ⟨hcount, -, b, hcp, hb, -⟩ := h.each outer houter hindex
    exact ⟨hcount, hcp ▸ hb.checkpoint_le⟩

theorem Frames.tail :
    Frames init index survivors c opened.tail cps.tail := by
  cases opened with
  | nil =>
    obtain rfl : cps = [] := eq_nil_of_length_eq_zero h.length.symm
    exact h
  | cons frame opened =>
    cases cps with
    | nil => exact absurd h.length (by simp)
    | cons cp cps =>
      exact ⟨by simpa using h.length, fun f hf => h.index_le f (mem_cons_of_mem _ hf),
        fun p hp => h.each p (mem_cons_of_mem _ hp), h.nested.of_cons⟩

omit h

theorem Frames.restore {frame : OpenFrame} {cp : Checkpoint}
    (h : Frames init index survivors c (frame :: opened) (cp :: cps)) (hindex : frame.index =
      index) :
    Kept init index (survivors.take frame.survivors) (c.restore cp) ∧
      Frames init index (survivors.take frame.survivors) (c.restore cp) opened cps := by
  have hframe : FrameOk init index survivors c frame cp := h.each (frame, cp) (by simp) hindex
  obtain ⟨hcount, hsince, b, rfl, hb, hkept⟩ := hframe
  rw [hb.restore_checkpoint]
  refine ⟨hkept, by simpa using h.length, fun f hf => h.index_le f (by simp [hf]),
    fun p hp hp' => ?_, h.nested.of_cons⟩
  obtain ⟨hle, hcp⟩ : p.1.survivors ≤ frame.survivors ∧ p.2.LE b.checkpoint :=
    rel_of_pairwise_cons h.nested hp hp'
  obtain ⟨-, hsince', b', hb'cp, hb', hkept'⟩ := h.each p (by simp [hp]) hp'
  refine ⟨by simp only [length_take]; omega, fun e he => ?_, b', hb'cp, ?_, ?_⟩
  · rw [drop_take] at he
    exact hsince' e (mem_of_mem_take he)
  · have hle' : b'.checkpoint.LE b.checkpoint := hb'cp ▸ hcp
    have := hb'.restore hle'
    rwa [hb.restore_checkpoint] at this
  · rwa [take_take, min_eq_left hle]

theorem Frames.advance (h : Frames init index survivors c opened cps) {next : Nat}
    (hnext : index < next) : Frames init next survivors c' opened cps := by
  have hne : ∀ p ∈ opened.zip cps, p.1.index ≠ next := fun p hp =>
    ((h.index_le p.1 (of_mem_zip hp).1).trans_lt hnext).ne
  refine ⟨h.length, fun f hf => (h.index_le f hf).trans hnext.le,
    fun p hp hindex => absurd hindex (hne p hp), ?_⟩
  exact h.nested.imp_of_mem fun _ houter _ hindex => absurd hindex (hne _ houter)

end

end Ethrex.Bal
