import Ethrex.Journal.Undo
import Ethrex.Types

/-!
# Storage refunds

`SSTORE` moves the refund counter by the slot's original, current and new value. A failed frame puts
back the counter and the storage but not the cached original values. Whether the gas of an
`SSTORE` can be paid is a parameter.
-/

namespace Ethrex.Levm

open Journal (Backup)

abbrev StorageSlot := Address × H256

inductive RefundError where
  | underflow
  | overflow
  deriving DecidableEq, Repr

/-- The part of the virtual machine that `SSTORE` works on. -/
structure StorageVm where
  storage : StorageSlot → U256
  storageOriginalValues : StorageSlot → Option U256
  refundedGas : U64
  /-- The values that the current frame has overwritten. -/
  backup : Backup StorageSlot U256
  /-- The counters and the backups of the callers. -/
  callers : List (U64 × Backup StorageSlot U256)

/-- What execution does to storage and refunds. -/
inductive StorageEvent where
  /-- A frame is entered, by a call, a creation or the start of a batch. -/
  | enter
  | leave (success : Bool)
  /-- An `SSTORE` past its first gas check; if the rest cannot be paid it fails after the access. -/
  | sstore (slot : StorageSlot) (value : U256) (paid : Bool)

/-- The amounts for clearing a slot, for restoring an empty one and for restoring another one. -/
def removeSlotCost (amsterdam : Bool) : Int :=
  if amsterdam then (10000 + 2100) * 4800 / 5000 else 4800

def restoreEmptySlotCost (amsterdam : Bool) : Int := if amsterdam then 10000 else 19900

def restoreSlotCost (amsterdam : Bool) : Int := if amsterdam then 10000 else 2800

def refundDelta (amsterdam : Bool) (original current value : U256) : Int :=
  if current = original then
    if original ≠ 0 ∧ value = 0 then removeSlotCost amsterdam else 0
  else
    (if original ≠ 0 then
        if current = 0 then -removeSlotCost amsterdam
        else if value = 0 then removeSlotCost amsterdam else 0
      else 0) +
      if value = original then
        if original = 0 then restoreEmptySlotCost amsterdam else restoreSlotCost amsterdam
      else 0

/-- `u64::checked_add_signed`, with the errors that the handler makes of a failure. -/
def addRefund (refundedGas : U64) (delta : Int) : Except RefundError U64 :=
  let sum := refundedGas.val + delta
  if 0 ≤ sum ∧ sum < 2 ^ 64 then .ok (Fin.ofNat _ sum.toNat)
  else if delta < 0 then .error .underflow
  else .error .overflow

namespace StorageVm

variable (vm : StorageVm)

/-- The original value that an `SSTORE` to the slot uses. -/
def originalValue (slot : StorageSlot) : U256 :=
  (vm.storageOriginalValues slot).getD (vm.storage slot)

/-- `access_storage_slot_for_sstore`: the first access fixes the original value. -/
def access (slot : StorageSlot) : StorageVm :=
  { vm with storageOriginalValues :=
      Function.update vm.storageOriginalValues slot (some (vm.originalValue slot)) }

def updateAccountStorage (slot : StorageSlot) (value : U256) : StorageVm :=
  { vm with
    storage := Function.update vm.storage slot value
    backup := vm.backup.record slot (vm.storage slot) }

def sstore (amsterdam : Bool) (vm : StorageVm) (slot : StorageSlot) (value : U256) (paid : Bool) :
    Except RefundError StorageVm :=
  let original := vm.originalValue slot
  let current := vm.storage slot
  let vm := vm.access slot
  if paid = false ∨ value = current then .ok vm
  else do
    let refundedGas ← addRefund vm.refundedGas (refundDelta amsterdam original current value)
    .ok ({ vm with refundedGas }.updateAccountStorage slot value)

/-- `handle_state_backup` and, after a success, `merge_call_frame_backup_with_parent`. -/
def leave (success : Bool) : StorageVm :=
  match vm.callers with
  | [] => vm
  | (refundedGas, backup) :: callers =>
    if success then { vm with backup := backup.merge vm.backup, callers }
    else { vm with storage := vm.backup.restore vm.storage, refundedGas, backup, callers }

def step (amsterdam : Bool) (vm : StorageVm) : StorageEvent → Except RefundError StorageVm
  | .enter =>
    .ok { vm with backup := .empty, callers := (vm.refundedGas, vm.backup) :: vm.callers }
  | .leave success => .ok (vm.leave success)
  | .sstore slot value paid => vm.sstore amsterdam slot value paid

def run (amsterdam : Bool) (vm : StorageVm) : List StorageEvent → Except RefundError StorageVm
  | [] => .ok vm
  | event :: events => do (← vm.step amsterdam event).run amsterdam events

/-- The machine when the code of a transaction starts: authorisations may have left refunds, and the
L2 fee token may have rewritten slots (`transfer_fee_token`). -/
def prepared (storage : StorageSlot → U256) (feeToken : List (StorageSlot × U256))
    (refundedGas : U64) : StorageVm where
  storage := feeToken.foldl (fun storage write => Function.update storage write.1 write.2) storage
  storageOriginalValues _ := none
  refundedGas
  backup := .empty
  callers := []

end StorageVm

/-- The counter covers the clearing of every slot that is empty and was not at the start. -/
def Covers (amsterdam : Bool) (start storage : StorageSlot → U256) (refundedGas : U64) : Prop :=
  ∀ cleared : Finset StorageSlot, (∀ slot ∈ cleared, start slot ≠ 0 ∧ storage slot = 0) →
    removeSlotCost amsterdam * cleared.card ≤ refundedGas.val

def slotCover (amsterdam : Bool) (original value : U256) : Int :=
  if original ≠ 0 ∧ value = 0 then removeSlotCost amsterdam else 0

theorem removeSlotCost_pos (amsterdam : Bool) : 0 < removeSlotCost amsterdam := by
  cases amsterdam <;> decide

/-- For each relation of original, current and new value the counter moves at least as much as the
slot needs. -/
theorem slotCover_le_refundDelta (amsterdam : Bool) (original : U256) {current value : U256}
    (changed : value ≠ current) :
    slotCover amsterdam original value - slotCover amsterdam original current ≤
      refundDelta amsterdam original current value := by
  have hclear := removeSlotCost_pos amsterdam
  have hempty : 0 ≤ restoreEmptySlotCost amsterdam := by cases amsterdam <;> decide
  have hrestore : 0 ≤ restoreSlotCost amsterdam := by cases amsterdam <;> decide
  unfold refundDelta slotCover
  split_ifs <;> simp_all

section Invariant

variable {amsterdam : Bool} {start storage : StorageSlot → U256} {refundedGas : U64}
variable {slot : StorageSlot}

theorem Covers.others (covers : Covers amsterdam start storage refundedGas)
    {cleared : Finset StorageSlot} (absent : slot ∉ cleared)
    (others : ∀ other ∈ cleared, start other ≠ 0 ∧ storage other = 0) :
    removeSlotCost amsterdam * cleared.card + slotCover amsterdam (start slot) (storage slot) ≤
      refundedGas.val := by
  unfold slotCover
  split_ifs with here
  · have := covers (insert slot cleared)
      ((Finset.forall_mem_insert _ _ _).mpr ⟨here, others⟩)
    rw [Finset.card_insert_of_notMem absent] at this
    push_cast at this
    linarith
  · simpa using covers cleared others

theorem Covers.store (covers : Covers amsterdam start storage refundedGas) {value : U256}
    (changed : value ≠ storage slot) (cleared : Finset StorageSlot)
    (empty : ∀ other ∈ cleared, start other ≠ 0 ∧ Function.update storage slot value other = 0) :
    removeSlotCost amsterdam * cleared.card ≤
      refundedGas.val + refundDelta amsterdam (start slot) (storage slot) value := by
  have hdelta := slotCover_le_refundDelta amsterdam (start slot) changed
  have hothers := covers.others (Finset.notMem_erase slot cleared) fun other mem => by
    obtain ⟨ne, mem⟩ := Finset.mem_erase.mp mem
    simpa [ne] using empty other mem
  by_cases mem : slot ∈ cleared
  · have here : slotCover amsterdam (start slot) value = removeSlotCost amsterdam :=
      if_pos (by simpa using empty slot mem)
    have hcard := Finset.card_erase_add_one mem
    rw [← hcard]
    push_cast
    linarith
  · have hnonneg : 0 ≤ slotCover amsterdam (start slot) value := by
      unfold slotCover
      split_ifs
      · exact (removeSlotCost_pos amsterdam).le
      · exact le_rfl
    rw [Finset.erase_eq_of_notMem mem] at hothers
    linarith

theorem addRefund_spec {refundedGas : U64} {delta : Int} (covered : 0 ≤ refundedGas.val + delta) :
    addRefund refundedGas delta = .error .overflow ∨
      ∃ next : U64, addRefund refundedGas delta = .ok next ∧ next.val = refundedGas.val + delta := by
  unfold addRefund
  simp only
  split_ifs with fits negative
  · refine .inr ⟨_, rfl, ?_⟩
    rw [Fin.val_ofNat, Nat.mod_eq_of_lt (by omega)]
    omega
  · omega
  · exact .inl rfl

end Invariant

/-- Storage and counter of a frame: slots without a cached original value are as at the start. -/
structure Level (amsterdam : Bool) (start : StorageSlot → U256)
    (originals : StorageSlot → Option U256) (storage : StorageSlot → U256) (refundedGas : U64) :
    Prop where
  untouched : ∀ slot, originals slot = none → storage slot = start slot
  covers : Covers amsterdam start storage refundedGas

/-- The current frame and what a failure of each open frame goes back to. -/
def Levels (amsterdam : Bool) (start : StorageSlot → U256) (originals : StorageSlot → Option U256) :
    (StorageSlot → U256) → U64 → Backup StorageSlot U256 →
      List (U64 × Backup StorageSlot U256) → Prop
  | storage, refundedGas, _, [] => Level amsterdam start originals storage refundedGas
  | storage, refundedGas, backup, caller :: callers =>
    Level amsterdam start originals storage refundedGas ∧
      Levels amsterdam start originals (backup.restore storage) caller.1 caller.2 callers

section Levels

variable {amsterdam : Bool} {start storage : StorageSlot → U256} {refundedGas : U64}
  {originals : StorageSlot → Option U256} {backup : Backup StorageSlot U256}
  {callers : List (U64 × Backup StorageSlot U256)}

theorem Levels.level (levels : Levels amsterdam start originals storage refundedGas backup callers) :
    Level amsterdam start originals storage refundedGas := by
  cases callers with
  | nil => exact levels
  | cons caller callers => exact levels.1

theorem Levels.mono {originals' : StorageSlot → Option U256}
    (grows : ∀ slot, originals' slot = none → originals slot = none)
    (levels : Levels amsterdam start originals storage refundedGas backup callers) :
    Levels amsterdam start originals' storage refundedGas backup callers := by
  have level : ∀ {storage refundedGas}, Level amsterdam start originals storage refundedGas →
      Level amsterdam start originals' storage refundedGas := fun level =>
    ⟨fun slot none => level.untouched slot (grows slot none), level.covers⟩
  induction callers generalizing storage refundedGas backup with
  | nil => exact level levels
  | cons caller callers ih => exact ⟨level levels.1, ih levels.2⟩

end Levels

namespace StorageVm

/-- The cached original values are those of the start. -/
structure Sound (amsterdam : Bool) (start : StorageSlot → U256) (vm : StorageVm) : Prop where
  originals : ∀ slot value, vm.storageOriginalValues slot = some value → value = start slot
  levels : Levels amsterdam start vm.storageOriginalValues vm.storage vm.refundedGas vm.backup
    vm.callers

variable {amsterdam : Bool} {start : StorageSlot → U256} {vm : StorageVm}

variable (sound : vm.Sound amsterdam start)

include sound

theorem Sound.originalValue (slot : StorageSlot) :
    vm.originalValue slot = start slot := by
  unfold StorageVm.originalValue
  cases cached : vm.storageOriginalValues slot with
  | none => exact sound.levels.level.untouched slot cached
  | some value => exact sound.originals slot value cached

theorem Sound.access (slot : StorageSlot) :
    (vm.access slot).Sound amsterdam start := by
  refine ⟨fun other value cached => ?_, sound.levels.mono fun other => ?_⟩
  · simp only [StorageVm.access, Function.update_apply] at cached
    split_ifs at cached with same
    · cases cached
      rw [same]
      exact sound.originalValue slot
    · exact sound.originals other value cached
  · simp only [StorageVm.access, Function.update_apply]
    split_ifs
    · exact nofun
    · exact id

theorem Sound.sstore (slot : StorageSlot) (value : U256) (paid : Bool) :
    vm.sstore amsterdam slot value paid = .error .overflow ∨
      ∃ next, vm.sstore amsterdam slot value paid = .ok next ∧ next.Sound amsterdam start := by
  have accessed := sound.access slot
  unfold StorageVm.sstore
  simp only
  split_ifs with skipped
  · exact .inr ⟨_, rfl, accessed⟩
  rw [sound.originalValue slot]
  have changed : value ≠ vm.storage slot := fun same => skipped (.inr same)
  have covers := sound.levels.level.covers
  have covered := covers.store changed ∅ nofun
  rw [Finset.card_empty, Nat.cast_zero, mul_zero] at covered
  obtain failed | ⟨refundedGas, added, sum⟩ := addRefund_spec covered
  · exact .inl (by rw [show (vm.access slot).refundedGas = vm.refundedGas from rfl, failed]; rfl)
  rw [show (vm.access slot).refundedGas = vm.refundedGas from rfl, added]
  refine .inr ⟨_, rfl, accessed.originals, ?_⟩
  have level : Level amsterdam start (vm.access slot).storageOriginalValues
      (Function.update vm.storage slot value) refundedGas := by
    refine ⟨fun other none => ?_, fun cleared empty => ?_⟩
    · have apart : other ≠ slot := by
        rintro rfl
        simp [StorageVm.access] at none
      rw [Function.update_of_ne apart]
      exact accessed.levels.level.untouched other none
    · rw [sum]
      exact covers.store changed cleared empty
  have levels := accessed.levels
  revert levels
  simp only [updateAccountStorage, StorageVm.access]
  cases vm.callers with
  | nil => exact fun _ => level
  | cons caller callers =>
    intro levels
    refine ⟨level, ?_⟩
    rw [Backup.restore_record]
    exact levels.2

theorem Sound.leave (success : Bool) :
    (vm.leave success).Sound amsterdam start := by
  have levels := sound.levels
  unfold StorageVm.leave
  cases opened : vm.callers with
  | nil => exact sound
  | cons caller callers =>
    rw [opened] at levels
    cases success with
    | false => exact ⟨sound.originals, levels.2⟩
    | true =>
      refine ⟨sound.originals, ?_⟩
      have outer := levels.2
      simp only [if_true]
      cases callers with
      | nil => exact levels.1
      | cons next callers =>
        refine ⟨levels.1, ?_⟩
        rw [Backup.restore_merge]
        exact outer.2

omit sound

theorem Sound.step (sound : vm.Sound amsterdam start) (event : StorageEvent) :
    vm.step amsterdam event = .error .overflow ∨
      ∃ next, vm.step amsterdam event = .ok next ∧ next.Sound amsterdam start := by
  cases event with
  | enter => exact .inr ⟨_, rfl, sound.originals, sound.levels.level, sound.levels⟩
  | leave success => exact .inr ⟨_, rfl, sound.leave success⟩
  | sstore slot value paid => exact sound.sstore slot value paid

theorem Sound.run (sound : vm.Sound amsterdam start) (events : List StorageEvent) :
    vm.run amsterdam events = .error .overflow ∨
      ∃ last, vm.run amsterdam events = .ok last ∧ last.Sound amsterdam start := by
  induction events generalizing vm with
  | nil => exact .inr ⟨vm, rfl, sound⟩
  | cons event events ih =>
    unfold StorageVm.run
    obtain failed | ⟨next, stepped, sound⟩ := sound.step event
    · rw [failed]
      exact .inl rfl
    · rw [stepped]
      exact ih sound

theorem sound_prepared (amsterdam : Bool) (storage : StorageSlot → U256)
    (feeToken : List (StorageSlot × U256)) (refundedGas : U64) :
    (prepared storage feeToken refundedGas).Sound amsterdam
      (prepared storage feeToken refundedGas).storage := by
  refine ⟨nofun, fun _ _ => rfl, fun cleared empty => ?_⟩
  have none : cleared = ∅ := Finset.eq_empty_of_forall_notMem fun slot mem =>
    (empty slot mem).1 (empty slot mem).2
  simp [none]

/-- Whatever frames fail, each `SSTORE` uses the value its slot had when the code started, and the
counter covers the cleared slots, so that it never underflows. -/
theorem run_prepared (amsterdam : Bool) (storage : StorageSlot → U256)
    (feeToken : List (StorageSlot × U256)) (refundedGas : U64) (events : List StorageEvent) :
    let vm := prepared storage feeToken refundedGas
    vm.run amsterdam events ≠ .error .underflow ∧
      ∀ last, vm.run amsterdam events = .ok last →
        (∀ slot, last.originalValue slot = vm.storage slot) ∧
          Covers amsterdam vm.storage last.storage last.refundedGas := by
  intro vm
  obtain failed | ⟨last, finished, sound⟩ :=
    (sound_prepared amsterdam storage feeToken refundedGas).run events
  · exact ⟨by simp [vm, failed], fun last finished => by cases failed.symm.trans finished⟩
  · refine ⟨by simp [vm, finished], fun last' finished' => ?_⟩
    cases finished.symm.trans finished'
    exact ⟨sound.originalValue, sound.levels.level.covers⟩

/-- Every run keeps to the values of the transaction's start exactly when the fee lock leaves every
slot as it was. -/
theorem run_prepared_iff (amsterdam : Bool) (storage : StorageSlot → U256)
    (feeToken : List (StorageSlot × U256)) (refundedGas : U64) :
    (∀ events, (prepared storage feeToken refundedGas).run amsterdam events ≠ .error .underflow ∧
      ∀ last, (prepared storage feeToken refundedGas).run amsterdam events = .ok last →
        (∀ slot, last.originalValue slot = storage slot) ∧
          Covers amsterdam storage last.storage last.refundedGas) ↔
      ∀ slot, (prepared storage feeToken refundedGas).storage slot = storage slot := by
  constructor
  · intro hruns slot
    exact ((hruns []).2 _ rfl).1 slot
  · intro hlock events
    have hstart : (prepared storage feeToken refundedGas).storage = storage := funext hlock
    have hrun := run_prepared amsterdam storage feeToken refundedGas events
    simp only [hstart] at hrun
    exact hrun

/-- The fee lock moves an empty slot to 33600000. The transaction clears it again and is paid for
the clearing of a slot that was empty at its start. -/
theorem run_feeToken_refunds :
    let slot : StorageSlot := (0, .ofNat 7)
    ∃ last, (prepared (fun _ => 0) [(slot, 33600000)] 0).run false [.sstore slot 0 true] = .ok last ∧
      last.originalValue slot ≠ (0 : U256) ∧ last.refundedGas = 4800 :=
  ⟨_, rfl, by decide +kernel, by decide +kernel⟩

end StorageVm

end Ethrex.Levm
