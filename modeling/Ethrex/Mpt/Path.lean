import Ethrex.Mpt.Node
import Ethrex.Patricia.Order

/-!
# Paths as words

The paths in a trie are words over the sixteen choices, closed by the terminator in keys and leaves
and open in extensions.
-/

namespace Ethrex.Mpt

open Patricia List

abbrev Word := List (Fin 16)

def hex (w : Word) : List UInt8 := w.map nibble

def terminated (w : Word) : List UInt8 := hex w ++ [16]

def word (key : Bytes) : Word :=
  key.flatMap fun b =>
    [⟨b.toNat / 16, by have := b.toNat_lt; omega⟩, ⟨b.toNat % 16, by omega⟩]

@[simp] theorem toNat_nibble (i : Fin 16) : (nibble i).toNat = i.val := by
  rw [nibble, UInt8.toNat_ofNat', Nat.mod_eq_of_lt (by have := i.isLt; omega)]

theorem nibble_injective : Function.Injective nibble := by
  intro i j h
  have := congrArg UInt8.toNat h
  simpa [Fin.ext_iff] using this

@[simp] theorem nibble_inj {i j : Fin 16} : nibble i = nibble j ↔ i = j :=
  nibble_injective.eq_iff

@[simp] theorem nibble_ne_terminator (i : Fin 16) : nibble i ≠ 16 := by
  intro h
  have := congrArg UInt8.toNat h
  rw [toNat_nibble] at this
  have := i.isLt
  simp_all

@[simp] theorem hex_nil : hex [] = [] := rfl

@[simp] theorem hex_cons (a : Fin 16) (w : Word) : hex (a :: w) = nibble a :: hex w := rfl

@[simp] theorem hex_append (v w : Word) : hex (v ++ w) = hex v ++ hex w := by
  simp [hex]

@[simp] theorem length_hex (w : Word) : (hex w).length = w.length := by
  simp [hex]

theorem hex_injective : Function.Injective hex :=
  map_injective_iff.2 nibble_injective

@[simp] theorem hex_inj {v w : Word} : hex v = hex w ↔ v = w := hex_injective.eq_iff

theorem terminator_notMem_hex (w : Word) : (16 : UInt8) ∉ hex w := by
  simp [hex]

@[simp] theorem terminated_nil : terminated [] = [16] := rfl

@[simp] theorem terminated_cons (a : Fin 16) (w : Word) :
    terminated (a :: w) = nibble a :: terminated w := rfl

theorem terminated_append (v w : Word) : terminated (v ++ w) = hex v ++ terminated w := by
  simp [terminated]

@[simp] theorem terminated_inj {v w : Word} : terminated v = terminated w ↔ v = w := by
  simp [terminated]

@[simp] theorem hex_ne_terminated (v w : Word) : hex v ≠ terminated w := by
  intro h
  have : (16 : UInt8) ∈ terminated w := by simp [terminated]
  exact terminator_notMem_hex v (h ▸ this)

theorem hi_nibble (b : UInt8) (h : b.toNat / 16 < 16) : b >>> 4 = nibble ⟨b.toNat / 16, h⟩ := by
  apply UInt8.toNat_inj.1
  rw [toNat_nibble, UInt8.toNat_shiftRight]
  simp [Nat.shiftRight_eq_div_pow]

theorem lo_nibble (b : UInt8) (h : b.toNat % 16 < 16) :
    b &&& 0x0F = nibble ⟨b.toNat % 16, h⟩ := by
  apply UInt8.toNat_inj.1
  rw [toNat_nibble, UInt8.toNat_and]
  exact Nat.and_two_pow_sub_one_eq_mod b.toNat 4

variable (key : Bytes)

theorem expandBytesToNibbles_eq : expandBytesToNibbles key = hex (word key) := by
  induction key with
  | nil => rfl
  | cons b key ih =>
    have hhi : b.toNat / 16 < 16 := by have := b.toNat_lt; omega
    have hlo : b.toNat % 16 < 16 := by omega
    simp only [expandBytesToNibbles, word, flatMap_cons] at ih ⊢
    rw [ih, hi_nibble b hhi, lo_nibble b hlo]
    simp

@[simp] theorem fromBytes_data : (Nibbles.fromBytes key).data = terminated (word key) := by
  simp [Nibbles.fromBytes, Nibbles.fromRaw, expandBytesToNibbles_eq, terminated]

@[simp] theorem length_word : (word key).length = 2 * key.length := by
  induction key with
  | nil => rfl
  | cons b key ih =>
    simp only [word, flatMap_cons, length_append, length_cons,
      length_nil] at ih ⊢
    omega

theorem word_injective : Function.Injective word := by
  intro k l h
  induction k generalizing l with
  | nil =>
    cases l with
    | nil => rfl
    | cons b l => simp [word] at h
  | cons a k ih =>
    cases l with
    | nil => simp [word] at h
    | cons b l =>
      simp only [word, flatMap_cons, cons_append, nil_append, List.cons.injEq,
        Fin.mk.injEq] at h
      obtain ⟨hhi, hlo, hrest⟩ := h
      have hab : a = b := by
        apply UInt8.toNat_inj.1
        omega
      rw [hab, ih hrest]

@[simp] theorem word_inj {k l : Bytes} : word k = word l ↔ k = l := word_injective.eq_iff

theorem word_append (k l : Bytes) : word (k ++ l) = word k ++ word l := by
  simp [word]

theorem before_word {k l : Bytes} (h : Before k l) : Before (word k) (word l) := by
  obtain ⟨p, a, b, u, v, rfl, rfl, hab⟩ := h
  have hab' : a.toNat < b.toNat := hab
  have ha := a.toNat_lt
  have hb := b.toNat_lt
  rw [word_append, word_append]
  by_cases hhi : a.toNat / 16 = b.toNat / 16
  · refine ⟨word p ++ [⟨a.toNat / 16, by omega⟩], ⟨a.toNat % 16, by omega⟩,
      ⟨b.toNat % 16, by omega⟩, word u, word v, ?_, ?_, ?_⟩
    · simp [word]
    · simp [word, hhi]
    · rw [Fin.lt_def]
      show a.toNat % 16 < b.toNat % 16
      omega
  · refine ⟨word p, ⟨a.toNat / 16, by omega⟩, ⟨b.toNat / 16, by omega⟩,
      ⟨a.toNat % 16, by omega⟩ :: word u, ⟨b.toNat % 16, by omega⟩ :: word v, ?_, ?_, ?_⟩
    · simp [word]
    · simp [word]
    · rw [Fin.lt_def]
      show a.toNat / 16 < b.toNat / 16
      omega

theorem before_key {k l : H256} (h : k < l) : Before (word k.bytes) (word l.bytes) :=
  before_word (before_of_lt (by rw [k.size, l.size]) h)

theorem before_key_iff {k l : H256} : Before (word k.bytes) (word l.bytes) ↔ k < l := by
  refine ⟨fun h => ?_, before_key⟩
  rcases lt_trichotomy k l with hlt | rfl | hlt
  · exact hlt
  · exact absurd rfl h.ne
  · exact absurd (before_key hlt) h.asymm

namespace Nibbles

variable {path pre : Nibbles} {k p : Word}

theorem nextChoice_cons {a : Fin 16} (h : path.data = terminated (a :: k)) :
    path.nextChoice =
      (some a, ⟨terminated k, path.alreadyConsumed ++ [nibble a]⟩) := by
  rw [terminated_cons] at h
  simp [nextChoice, next, h]

theorem nextChoice_nil (h : path.data = terminated []) :
    path.nextChoice = (none, ⟨[], path.alreadyConsumed ++ [16]⟩) := by
  rw [terminated_nil] at h
  simp [nextChoice, next, h]

theorem countCommonPrefix_hex (k p : Word) (r : List UInt8) (hr : ∀ x ∈ r.head?, 16 ≤ x.toNat) :
    countCommonPrefix (hex k ++ r) (hex p) = lcp k p := by
  induction k generalizing p with
  | nil =>
    cases p with
    | nil => cases r <;> rfl
    | cons b p =>
      cases r with
      | nil => rfl
      | cons x r =>
        have hx : x ≠ nibble b := by
          rintro rfl
          have := hr (nibble b) (by simp)
          rw [toNat_nibble] at this
          omega
        simp [countCommonPrefix, lcp, hx]
  | cons a k ih =>
    cases p with
    | nil => simp [countCommonPrefix, lcp]
    | cons b p =>
      by_cases hab : a = b
      · subst hab
        simp [countCommonPrefix, lcp, ih]
      · simp [countCommonPrefix, lcp, hab]

theorem countCommonPrefix_terminated {k p : Word} (h : k ≠ p) :
    countCommonPrefix (terminated k) (terminated p) = lcp k p := by
  induction k generalizing p with
  | nil =>
    cases p with
    | nil => exact absurd rfl h
    | cons b p => simp [countCommonPrefix, lcp, Ne.symm (nibble_ne_terminator b)]
  | cons a k ih =>
    cases p with
    | nil => simp [countCommonPrefix, lcp]
    | cons b p =>
      by_cases hab : a = b
      · subst hab
        simp [countCommonPrefix, lcp, ih (fun he => h (by rw [he]))]
      · simp [countCommonPrefix, lcp, hab]

theorem countPrefix_hex (hk : path.data = terminated k) (hp : pre.data = hex p) :
    path.countPrefix pre = lcp k p := by
  rw [countPrefix, hk, hp, terminated]
  exact countCommonPrefix_hex k p [16] (by simp)

theorem countPrefix_terminated (hk : path.data = terminated k) (hp : pre.data = terminated p)
    (h : k ≠ p) : path.countPrefix pre = lcp k p := by
  rw [countPrefix, hk, hp, countCommonPrefix_terminated h]

theorem hex_isPrefix {k p : Word} (r : List UInt8) (hr : ∀ x ∈ r.head?, 16 ≤ x.toNat) :
    hex p <+: hex k ++ r ↔ p <+: k := by
  induction p generalizing k with
  | nil => simp
  | cons b p ih =>
    cases k with
    | nil =>
      cases r with
      | nil => simp
      | cons x r =>
        have hx : nibble b ≠ x := by
          rintro rfl
          have := hr (nibble b) (by simp)
          rw [toNat_nibble] at this
          omega
        simp [cons_prefix_cons, hx]
    | cons a k => simp [cons_prefix_cons, ih]

theorem skipPrefix_append (hk : path.data = terminated (p ++ k)) (hp : pre.data = hex p) :
    path.skipPrefix pre =
      some ⟨terminated k, path.alreadyConsumed ++ hex p⟩ := by
  have hlen : (hex p).length = p.length := length_hex p
  rw [terminated_append] at hk
  simp only [skipPrefix, len, hk, hp, take_left, drop_left, length_append]
  rw [if_pos ⟨by omega, trivial⟩]

theorem skipPrefix_of_not_isPrefix (hk : path.data = terminated k) (hp : pre.data = hex p)
    (h : ¬p <+: k) : path.skipPrefix pre = none := by
  rw [skipPrefix, if_neg]
  rintro ⟨-, ht⟩
  rw [len, hk, hp] at ht
  apply h
  rw [← hex_isPrefix [16] (by simp)]
  exact ht ▸ take_prefix _ _

theorem offset_append {c : Word} (hk : path.data = terminated (c ++ k)) :
    path.offset c.length = ⟨terminated k, path.alreadyConsumed ++ hex c⟩ := by
  have hlen : c.length = (hex c).length := (length_hex c).symm
  rw [terminated_append] at hk
  simp only [offset, hk, hlen, take_left, drop_left]

end Nibbles

end Ethrex.Mpt
