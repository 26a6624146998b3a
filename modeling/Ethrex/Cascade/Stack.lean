import Mathlib

/-!
# Stacks of partial maps over a base

A key is read in the newest map that has it, else in the base. The lower part of a stack can be
written to the base. Values can mark a key as absent; a base has no such marks, so what is read is
compared up to them.
-/

namespace Cascade

variable {K V : Type*}

/-- The value in the newest map that has the key; the newest map is the first. -/
def find (stack : List (K → Option V)) (k : K) : Option V :=
  stack.findSome? fun layer => layer k

def read (stack : List (K → Option V)) (base : K → Option V) (k : K) : Option V :=
  (find stack k).or (base k)

variable (absent : V → Bool)

def seen : Option V → Option V
  | some v => if absent v then none else some v
  | none => none

def write (base layer : K → Option V) (k : K) : Option V :=
  match layer k with
  | some v => seen absent (some v)
  | none => base k

def flush (base : K → Option V) (stack : List (K → Option V)) : K → Option V :=
  stack.foldr (fun layer base => write absent base layer) base

variable {absent} {upper lower : List (K → Option V)} {base : K → Option V} {k : K}

theorem find_append : find (upper ++ lower) k = (find upper k).or (find lower k) := by
  rw [find, List.findSome?_append]
  rfl

theorem seen_seen (o : Option V) : seen absent (seen absent o) = seen absent o := by
  cases o with
  | none => rfl
  | some v => cases h : absent v <;> simp [seen, h]

theorem flush_apply : flush absent base lower k =
    match find lower k with
    | some v => seen absent (some v)
    | none => base k := by
  induction lower with
  | nil => rfl
  | cons layer lower ih =>
    show write absent (flush absent base lower) layer k = _
    rw [write, find, List.findSome?_cons]
    cases layer k with
    | some v => rfl
    | none => exact ih

theorem seen_read_flush : seen absent (read upper (flush absent base lower) k) =
    seen absent (read (upper ++ lower) base k) := by
  rw [read, read, find_append]
  cases find upper k with
  | some v => rfl
  | none =>
    rw [Option.none_or, Option.none_or, flush_apply]
    cases find lower k with
    | none => rfl
    | some w => exact seen_seen (some w)

/-- When a middle part is lost while the part below is written, every reader sees the same exactly
when each lost value is covered from above or repeated below. -/
theorem seen_read_lost_iff {kept lost : List (K → Option V)} {x : V} (hx : absent x = false) :
    (∀ (base : K → Option V) (k : K), seen absent (read (kept ++ (lost ++ lower)) base k) =
      seen absent (read kept (flush absent base lower) k)) ↔
    ∀ k v, find kept k = none → find lost k = some v →
      ∃ w, find lower k = some w ∧ seen absent (some w) = seen absent (some v) := by
  have hread (base : K → Option V) {k : K} {v : V} (hkept : find kept k = none)
      (hlost : find lost k = some v) : read (kept ++ (lost ++ lower)) base k = some v := by
    rw [read, find_append, find_append, hkept, hlost]
    rfl
  have hread' (base : K → Option V) {k : K} (hkept : find kept k = none) :
      read kept (flush absent base lower) k = flush absent base lower k := by
    rw [read, hkept]
    rfl
  constructor
  · intro h k v hkept hlost
    cases hlower : find lower k with
    | some w =>
      refine ⟨w, rfl, ?_⟩
      have hsame := h (fun _ => none) k
      rw [hread _ hkept hlost, hread' _ hkept, flush_apply, hlower] at hsame
      exact (seen_seen (some w)).symm.trans hsame.symm
    | none =>
      -- nothing below has the key, so the base decides what is read after the loss
      have hsame (base : K → Option V) : seen absent (some v) = seen absent (base k) := by
        have := h base k
        rwa [hread _ hkept hlost, hread' _ hkept, flush_apply, hlower] at this
      have hnone := hsame fun _ => none
      have hsome := hsame fun _ => some x
      rw [hnone] at hsome
      simp [seen, hx] at hsome
  · intro h base k
    cases hkept : find kept k with
    | some v =>
      rw [read, read, find_append, hkept]
      rfl
    | none =>
      cases hlost : find lost k with
      | none =>
        rw [seen_read_flush, read, read, find_append, find_append, find_append, hkept, hlost]
        rfl
      | some v =>
        obtain ⟨w, hlower, hw⟩ := h k v hkept hlost
        rw [hread _ hkept hlost, hread' _ hkept, flush_apply, hlower, ← hw]
        exact (seen_seen (some w)).symm

end Cascade
