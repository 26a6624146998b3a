import Mathlib

/-!
# Totals over association lists

The total of a function over the entries of an `AList` changes by one term when a key is added or
removed, and depends on the lookups only.
-/

namespace Tally

open List

variable {K V : Type} [DecidableEq K]

abbrev Map (K V : Type) := AList fun _ : K => V

variable (m : Map K V)

theorem lookup_insert_eq (k k' : K) (v : V) :
    (m.insert k v).lookup k' = if k' = k then some v else m.lookup k' := by
  by_cases h : k' = k
  · rw [if_pos h, h, AList.lookup_insert]
  · rw [if_neg h, AList.lookup_insert_ne h]

theorem lookup_erase_eq (k k' : K) :
    (m.erase k).lookup k' = if k' = k then none else m.lookup k' := by
  by_cases h : k' = k
  · rw [if_pos h, h, AList.lookup_erase]
  · rw [if_neg h, AList.lookup_erase_ne h]

variable {m : Map K V}

theorem lookup_insert_eq_some {k k' : K} {v v' : V} :
    (m.insert k v).lookup k' = some v' ↔ k' = k ∧ v = v' ∨ k' ≠ k ∧ m.lookup k' = some v' := by
  rw [lookup_insert_eq]
  by_cases h : k' = k <;> simp [h]

theorem isSome_insert {k k' : K} {v : V} :
    ((m.insert k v).lookup k').isSome ↔ k' = k ∨ (m.lookup k').isSome := by
  rw [lookup_insert_eq]
  by_cases h : k' = k <;> simp [h]

theorem lookup_erase_eq_some {k k' : K} {v : V} :
    (m.erase k).lookup k' = some v ↔ k' ≠ k ∧ m.lookup k' = some v := by
  rw [lookup_erase_eq]
  by_cases h : k' = k <;> simp [h]

theorem isSome_erase {k k' : K} :
    ((m.erase k).lookup k').isSome ↔ k' ≠ k ∧ (m.lookup k').isSome := by
  rw [lookup_erase_eq]
  by_cases h : k' = k <;> simp [h]

theorem mem_keys_iff (k : K) : k ∈ m.keys ↔ ∃ v, m.lookup k = some v := by
  rw [← AList.mem_keys, ← AList.lookup_isSome, Option.isSome_iff_exists]

theorem entries_erase (k : K) : (m.erase k).entries = m.entries.kerase k := rfl

theorem erase_of_lookup_eq_none {k : K} (h : m.lookup k = none) : m.erase k = m :=
  AList.ext (kerase_of_notMem_keys (AList.lookup_eq_none.1 h))

def total (f : K → V → Nat) (m : Map K V) : Nat := (m.entries.map fun e => f e.1 e.2).sum

omit [DecidableEq K] in
@[simp] theorem total_empty (f : K → V → Nat) : total f ∅ = 0 := rfl

theorem total_insert {f : K → V → Nat} {m : Map K V} {k : K} (h : m.lookup k = none) (v : V) :
    total f (m.insert k v) = f k v + total f m := by
  rw [total, AList.entries_insert_of_notMem (AList.lookup_eq_none.1 h)]
  simp [total]

theorem entries_perm {m : Map K V} {k : K} {v : V} (h : m.lookup k = some v) :
    m.entries.Perm (⟨k, v⟩ :: (m.erase k).entries) := by
  have hkey : k ∈ m.entries.keys := by
    rw [← AList.keys, mem_keys_iff]
    exact ⟨v, h⟩
  obtain ⟨v', before, after, -, hentries, herase⟩ := exists_of_kerase hkey
  have hv : v' = v := by
    have hmem : (⟨k, v'⟩ : Sigma fun _ : K => V) ∈ m.entries := by simp [hentries]
    have hlookup := AList.mem_lookup_iff.2 hmem
    rw [h] at hlookup
    exact (Option.some.inj hlookup).symm
  rw [entries_erase, herase, hentries, hv]
  exact perm_middle

theorem total_erase {f : K → V → Nat} {m : Map K V} {k : K} {v : V} (h : m.lookup k = some v) :
    total f m = f k v + total f (m.erase k) := by
  rw [total, ((entries_perm h).map fun e => f e.1 e.2).sum_eq]
  exact sum_cons

theorem le_total {f : K → V → Nat} {m : Map K V} {k : K} {v : V} (h : m.lookup k = some v) :
    f k v ≤ total f m := by
  have := total_erase (f := f) h
  omega

theorem total_erase_le (f : K → V → Nat) (m : Map K V) (k : K) :
    total f (m.erase k) ≤ total f m := by
  cases h : m.lookup k with
  | none => rw [erase_of_lookup_eq_none h]
  | some v =>
    have := total_erase (f := f) h
    omega

theorem total_congr {f g : K → V → Nat} {m : Map K V}
    (h : ∀ k v, m.lookup k = some v → f k v = g k v) : total f m = total g m := by
  rw [total, total]
  congr 1
  apply map_congr_left
  intro e he
  exact h e.1 e.2 (AList.mem_lookup_iff.2 he)

theorem total_le_of_lookup {m m' : Map K V} (f : K → V → Nat)
    (h : ∀ k v, m'.lookup k = some v → m.lookup k = some v) : total f m' ≤ total f m := by
  have hsub : m'.entries ⊆ m.entries := fun e he =>
    AList.mem_lookup_iff.1 (h e.1 e.2 (AList.mem_lookup_iff.2 he))
  obtain ⟨part, hperm, hpart⟩ := m'.nodupKeys.nodup.subperm hsub
  rw [total, total, ← (hperm.map fun e => f e.1 e.2).sum_eq]
  exact (hpart.map fun e => f e.1 e.2).sum_le_sum fun _ _ => Nat.zero_le _

theorem total_eq_of_bij {K' V' : Type} [DecidableEq K'] {m : Map K V} {m' : Map K' V'}
    (f : K → V → Nat) (f' : K' → V' → Nat) (φ : K → V → K')
    (hmem : ∀ k v, m.lookup k = some v → ∃ v', m'.lookup (φ k v) = some v' ∧ f' (φ k v) v' = f k v)
    (hinj : ∀ k₁ v₁ k₂ v₂, m.lookup k₁ = some v₁ → m.lookup k₂ = some v₂ →
      φ k₁ v₁ = φ k₂ v₂ → k₁ = k₂)
    (hsurj : ∀ k' v', m'.lookup k' = some v' → ∃ k v, m.lookup k = some v ∧ φ k v = k') :
    total f m = total f' m' := by
  have hfst : (m.entries.map fun e => φ e.1 e.2).Perm (m'.entries.map Sigma.fst) := by
    rw [perm_ext_iff_of_nodup]
    · intro k'
      simp only [mem_map]
      constructor
      · rintro ⟨e, he, rfl⟩
        obtain ⟨v', hv', -⟩ := hmem e.1 e.2 (AList.mem_lookup_iff.2 he)
        exact ⟨⟨φ e.1 e.2, v'⟩, AList.mem_lookup_iff.1 hv', rfl⟩
      · rintro ⟨e', he', rfl⟩
        obtain ⟨k, v, hlookup, hφ⟩ := hsurj e'.1 e'.2 (AList.mem_lookup_iff.2 he')
        exact ⟨⟨k, v⟩, AList.mem_lookup_iff.1 hlookup, hφ⟩
    · apply (m.nodupKeys.nodup).map_on
      intro e₁ he₁ e₂ he₂ hφ
      have hkey := hinj e₁.1 e₁.2 e₂.1 e₂.2 (AList.mem_lookup_iff.2 he₁)
        (AList.mem_lookup_iff.2 he₂) hφ
      exact m.nodupKeys.eq_of_fst_eq he₁ he₂ hkey
    · exact m'.nodupKeys
  have hvalue : (m.entries.map fun e => f e.1 e.2) =
      (m.entries.map fun e => φ e.1 e.2).map fun k' =>
        ((m'.lookup k').map fun v' => f' k' v').getD 0 := by
    rw [map_map]
    apply map_congr_left
    intro e he
    obtain ⟨v', hv', hf⟩ := hmem e.1 e.2 (AList.mem_lookup_iff.2 he)
    simp [hv', hf]
  have hvalue' : (m'.entries.map fun e => f' e.1 e.2) =
      (m'.entries.map Sigma.fst).map fun k' =>
        ((m'.lookup k').map fun v' => f' k' v').getD 0 := by
    rw [map_map]
    apply map_congr_left
    intro e he
    simp [show m'.lookup e.1 = some e.2 from AList.mem_lookup_iff.2 he]
  rw [total, total, hvalue, hvalue']
  exact (hfst.map _).sum_eq

omit [DecidableEq K] in
theorem total_add (f g : K → V → Nat) (m : Map K V) :
    total (fun k v => f k v + g k v) m = total f m + total g m := sum_map_add

omit [DecidableEq K] in
theorem total_one : total (fun _ _ => 1) m = m.entries.length := by
  simp [total]

theorem total_shared {V' : Type} (m : Map K V) (m' : Map K V') :
    total (fun k _ => if (m'.lookup k).isSome then 1 else 0) m =
      total (fun k _ => if (m.lookup k).isSome then 1 else 0) m' := by
  have hcount : ∀ {W W' : Type} (n : Map K W) (n' : Map K W'),
      total (fun k _ => if (n'.lookup k).isSome then 1 else 0) n =
        (n.keys.filter fun k => (n'.lookup k).isSome).length := by
    intro W W' n n'
    rw [total, AList.keys, List.keys, ← countP_eq_length_filter]
    induction n.entries with
    | nil => rfl
    | cons e entries ih =>
      rw [map_cons, sum_cons, ih, map_cons, countP_cons]
      omega
  rw [hcount, hcount]
  apply List.Perm.length_eq
  rw [perm_ext_iff_of_nodup (m.keys_nodup.filter _) (m'.keys_nodup.filter _)]
  intro k
  simp only [mem_filter, ← AList.mem_keys, ← AList.lookup_isSome]
  exact and_comm

def decrement (m : Map K Nat) (k : K) (n : Nat) : Map K Nat :=
  match m.lookup k with
  | none => m
  | some count => if count - n = 0 then m.erase k else m.insert k (count - n)

theorem getD_decrement (m : Map K Nat) (k k' : K) (n : Nat) :
    ((decrement m k n).lookup k').getD 0 =
      if k' = k then (m.lookup k).getD 0 - n else (m.lookup k').getD 0 := by
  cases h : m.lookup k with
  | none =>
    have hsame : decrement m k n = m := by
      rw [decrement, h]
    rw [hsame]
    by_cases hk : k' = k
    · subst hk
      simp [h]
    · simp [hk]
  | some count =>
    rw [decrement, h]
    by_cases hzero : count - n = 0
    · simp only [hzero, if_true, lookup_erase_eq]
      by_cases hk : k' = k
      · simp [hk, hzero]
      · simp [hk]
    · simp only [hzero, if_false, lookup_insert_eq]
      by_cases hk : k' = k
      · simp [hk]
      · simp [hk]

section Book

variable {A : Type} [DecidableEq A] {f : A → K → V → Nat} {m : Map K V} {book : Map A Nat} {k : K}
  {v : V} (hbook : ∀ a, (book.lookup a).getD 0 = total (f a) m) (h : m.lookup k = some v)

include hbook h

theorem getD_eq_total_erase (hf : ∀ a, f a k v = 0) (a : A) :
    (book.lookup a).getD 0 = total (f a) (m.erase k) := by
  rw [hbook, total_erase h, hf, Nat.zero_add]

theorem getD_decrement_eq_total_erase {a₀ : A} {n : Nat}
    (hf : ∀ a, f a k v = if a = a₀ then n else 0) (a : A) :
    ((decrement book a₀ n).lookup a).getD 0 = total (f a) (m.erase k) := by
  have hsplit := total_erase (f := f a) h
  rw [← hbook, hf] at hsplit
  rw [getD_decrement]
  split_ifs at hsplit ⊢ with ha
  · rw [← ha, hsplit, Nat.add_sub_cancel_left]
  · rw [hsplit, Nat.zero_add]

end Book

end Tally
