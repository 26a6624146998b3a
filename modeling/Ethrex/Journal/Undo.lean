import Mathlib

/-!
# First-write backups

Each open scope keeps the value a key had before the scope first wrote it. Closing a scope puts
these back or hands them to the enclosing scope, which keeps its own.
-/

namespace Journal

variable {K V : Type*}

abbrev Backup (K V : Type*) := K → Option V

namespace Backup

def empty : Backup K V := fun _ => none

def restore (backup : Backup K V) (store : K → V) : K → V :=
  fun k => (backup k).getD (store k)

/-- Keeps the value of a key unless the scope has kept one before. -/
def record [DecidableEq K] (backup : Backup K V) (key : K) (value : V) : Backup K V :=
  if (backup key).isSome then backup else Function.update backup key (some value)

def merge (outer inner : Backup K V) : Backup K V :=
  fun k => (outer k).or (inner k)

@[simp] theorem restore_empty (store : K → V) : restore empty store = store := rfl

theorem restore_merge (outer inner : Backup K V) (store : K → V) :
    restore (merge outer inner) store = restore outer (restore inner store) := by
  funext k
  unfold restore merge
  cases outer k <;> rfl

theorem restore_record [DecidableEq K] (backup : Backup K V) (store : K → V) (key : K)
    (value : V) :
    restore (record backup key (store key)) (Function.update store key value) =
      restore backup store := by
  funext k
  unfold restore record
  by_cases kept : (backup key).isSome
  · rw [if_pos kept]
    by_cases same : k = key
    · subst same
      obtain ⟨old, found⟩ := Option.isSome_iff_exists.1 kept
      simp [found]
    · rw [Function.update_of_ne same]
  · rw [if_neg kept]
    by_cases same : k = key
    · subst same
      have absent : backup k = none := by simpa using kept
      simp [absent]
    · rw [Function.update_of_ne same, Function.update_of_ne same]

end Backup

end Journal
