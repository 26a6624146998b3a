import Ethrex.Rlp.Canonical

/-!
# Unique decoding

Encodings written one after another can be told apart: each says where it ends. The one bound is
that lengths fit in 64 bits.
-/

namespace Ethrex.Rlp

open List

/-- The first item of a stream, whatever its length.  Appears in proofs only. -/
def splitItem : Bytes → Option (Bool × Bytes × Bytes)
  | [] => none
  | b :: bs =>
    if b.toNat < 0x80 then some (false, [b], bs)
    else if b.toNat < 0xb8 then some (payload false (b.toNat - 0x80) bs)
    else if b.toNat < 0xc0 then
      some (payload false (fromBeBytes (bs.take (b.toNat - 0xb7))) (bs.drop (b.toNat - 0xb7)))
    else if b.toNat < 0xf8 then some (payload true (b.toNat - 0xc0) bs)
    else
      some (payload true (fromBeBytes (bs.take (b.toNat - 0xf7))) (bs.drop (b.toNat - 0xf7)))
where
  payload (isList : Bool) (length : Nat) (bs : Bytes) : Bool × Bytes × Bytes :=
    (isList, bs.take length, bs.drop length)

theorem splitItem_encodeList {fields : Bytes} (rest : Bytes) (h : fields.length < 256 ^ 8) :
    splitItem (encodeList fields ++ rest) = some (true, fields, rest) := by
  rcases encodeList_cases h with ⟨hs, b, hb, he⟩ | ⟨hl, b, hb, hpos, hle, he⟩
  · simp only [he, cons_append, splitItem, hb]
    rw [if_neg (by omega), if_neg (by omega), if_neg (by omega), if_pos (by omega),
      Nat.add_sub_cancel_left, splitItem.payload, take_left, drop_left]
  simp only [he, cons_append, append_assoc, splitItem, hb]
  rw [if_neg (by omega), if_neg (by omega), if_neg (by omega), if_neg (by omega),
    Nat.add_sub_cancel_left, take_left, drop_left, fromBeBytes_toBeBytes,
    splitItem.payload, take_left, drop_left]

theorem splitItem_encodeBytes {data : Bytes} (rest : Bytes) (h : data.length < 256 ^ 8) :
    splitItem (encodeBytes data ++ rest) = some (false, data, rest) := by
  rcases encodeBytes_head h with
    ⟨b, rfl, hb, he⟩ | ⟨hs, -, b, hb, he⟩ | ⟨hl, b, hb, hpos, hle, he⟩
  · simp only [he, cons_append, nil_append, splitItem]
    rw [if_pos hb]
  · simp only [he, cons_append, splitItem, hb]
    rw [if_neg (by omega), if_pos (by omega), Nat.add_sub_cancel_left, splitItem.payload,
      take_left, drop_left]
  simp only [he, cons_append, append_assoc, splitItem, hb]
  rw [if_neg (by omega), if_neg (by omega), if_pos (by omega), Nat.add_sub_cancel_left,
    take_left, drop_left, fromBeBytes_toBeBytes, splitItem.payload, take_left,
    drop_left]

/-! ### Self-delimiting encoders -/

/-- An encoding at the start of a stream determines its value and the rest of the stream. -/
def SelfDelimiting {α : Type} (encode : α → Bytes) : Prop :=
  ∀ a b rest rest', (encode a ++ rest).length < 2 ^ 64 → encode a ++ rest = encode b ++ rest' →
    a = b ∧ rest = rest'

section SelfDelimiting

variable {α β γ : Type} {encode : α → Bytes} {encode' : β → Bytes}

theorem lt_pow_of_append {a rest : Bytes} (h : (a ++ rest).length < 2 ^ 64) :
    a.length < 256 ^ 8 := by
  rw [length_append] at h
  have : (256 : Nat) ^ 8 = 2 ^ 64 := by norm_num
  omega

theorem SelfDelimiting.string : SelfDelimiting encodeBytes := by
  intro a b rest rest' hlen h
  have ha : a.length < 256 ^ 8 := lt_of_le_of_lt (length_le_encodeBytes a) (lt_pow_of_append hlen)
  have hb : b.length < 256 ^ 8 :=
    lt_of_le_of_lt (length_le_encodeBytes b) (lt_pow_of_append (h ▸ hlen))
  have hsplit := congrArg splitItem h
  rw [splitItem_encodeBytes rest ha, splitItem_encodeBytes rest' hb] at hsplit
  simpa using hsplit

theorem selfDelimiting_encodeList : SelfDelimiting encodeList := by
  intro a b rest rest' hlen h
  have hle (fields : Bytes) : fields.length ≤ (encodeList fields).length := by
    rw [length_encodeList]
    omega
  have ha : a.length < 256 ^ 8 := lt_of_le_of_lt (hle a) (lt_pow_of_append hlen)
  have hb : b.length < 256 ^ 8 := lt_of_le_of_lt (hle b) (lt_pow_of_append (h ▸ hlen))
  have hsplit := congrArg splitItem h
  rw [splitItem_encodeList rest ha, splitItem_encodeList rest' hb] at hsplit
  simpa using hsplit

variable (h : SelfDelimiting encode)

include h

theorem SelfDelimiting.eq {a b : α} (hlen : (encode a).length < 2 ^ 64) (heq : encode a = encode b) :
    a = b :=
  (h a b [] [] (by rwa [append_nil]) (by rw [heq])).1

theorem SelfDelimiting.comp {f : γ → α} (hf : Function.Injective f) :
    SelfDelimiting fun v => encode (f v) := by
  intro a b rest rest' hlen heq
  obtain ⟨hab, hrest⟩ := h _ _ _ _ hlen heq
  exact ⟨hf hab, hrest⟩

theorem SelfDelimiting.prod (h' : SelfDelimiting encode') :
    SelfDelimiting fun v : α × β => encode v.1 ++ encode' v.2 := by
  rintro ⟨a, b⟩ ⟨a', b'⟩ rest rest' hlen heq
  simp only [append_assoc] at hlen heq
  obtain ⟨rfl, htail⟩ := h _ _ _ _ hlen heq
  rw [length_append] at hlen
  obtain ⟨rfl, hrest⟩ := h' _ _ _ _ (by omega) htail
  exact ⟨rfl, hrest⟩

theorem SelfDelimiting.list :
    SelfDelimiting fun v => encodeList (encode v) := by
  intro a b rest rest' hlen heq
  obtain ⟨hfields, hrest⟩ := selfDelimiting_encodeList _ _ _ _ hlen heq
  refine ⟨h.eq ?_ hfields, hrest⟩
  rw [length_append, length_encodeList] at hlen
  omega

/-- An object that is written as the list of its fields. -/
theorem SelfDelimiting.fields (f : γ → α) (hf : Function.Injective f) {encode' : γ → Bytes}
    (heq : ∀ v, encode' v = encodeList (encode (f v))) : SelfDelimiting encode' := by
  rw [funext heq]
  exact h.list.comp hf

theorem SelfDelimiting.fields_eq (f : γ → α) {encode' : γ → Bytes}
    (heq : ∀ v, encode' v = encodeList (encode (f v))) {a b : γ}
    (hlen : (encode' a).length < 2 ^ 64) (hsame : encode' a = encode' b) : f a = f b := by
  rw [heq] at hlen
  rw [heq, heq] at hsame
  exact h.list.eq hlen hsame

theorem SelfDelimiting.eq_of_cons {a b : α} {byte : UInt8}
    (hlen : (byte :: encode a).length < 2 ^ 64) (heq : byte :: encode a = byte :: encode b) :
    a = b := by
  rw [length_cons] at hlen
  exact h.eq (by omega) (List.cons.inj heq).2

theorem SelfDelimiting.flatMap_inj (hne : ∀ v, encode v ≠ []) {as bs : List α}
    (hlen : (as.flatMap encode).length < 2 ^ 64) (heq : as.flatMap encode = bs.flatMap encode) :
    as = bs := by
  induction as generalizing bs with
  | nil =>
    cases bs with
    | nil => rfl
    | cons b bs =>
      rw [flatMap_nil, flatMap_cons] at heq
      exact absurd (append_eq_nil_iff.1 heq.symm).1 (hne b)
  | cons a as ih =>
    cases bs with
    | nil =>
      rw [flatMap_nil, flatMap_cons] at heq
      exact absurd (append_eq_nil_iff.1 heq).1 (hne a)
    | cons b bs =>
      rw [flatMap_cons] at hlen
      rw [flatMap_cons, flatMap_cons] at heq
      obtain ⟨rfl, htail⟩ := h _ _ _ _ hlen heq
      rw [length_append] at hlen
      rw [ih (by omega) htail]

theorem SelfDelimiting.vec (hne : ∀ v, encode v ≠ []) :
    SelfDelimiting fun vs : List α => encodeList (vs.flatMap encode) := by
  intro as bs rest rest' hlen heq
  obtain ⟨hfields, hrest⟩ := selfDelimiting_encodeList _ _ _ _ hlen heq
  refine ⟨h.flatMap_inj hne ?_ hfields, hrest⟩
  rw [length_append, length_encodeList] at hlen
  omega

end SelfDelimiting

theorem toBeBytes_injective : Function.Injective toBeBytes :=
  Function.LeftInverse.injective fromBeBytes_toBeBytes

theorem SelfDelimiting.uint {m : Nat} : SelfDelimiting fun n : Fin m => encodeUint n.val :=
  string.comp (toBeBytes_injective.comp Fin.val_injective)

theorem SelfDelimiting.byte : SelfDelimiting fun b : UInt8 => encodeUint b.toNat :=
  string.comp (toBeBytes_injective.comp fun _ _ h => UInt8.toNat_inj.1 h)

theorem SelfDelimiting.h256 : SelfDelimiting fun hash : H256 => encodeBytes hash.bytes :=
  string.comp H256.bytes_injective

theorem fixedBeBytes_succ (width n : Nat) :
    fixedBeBytes (width + 1) n = fixedBeBytes width (n / 256) ++ [UInt8.ofNat n] := by
  rw [fixedBeBytes, fixedBeBytes, range_succ, map_append]
  congr 1
  · apply map_congr_left
    intro i hi
    have hi := mem_range.1 hi
    rw [show 8 * (width + 1 - 1 - i) = 8 + 8 * (width - 1 - i) by omega, Nat.shiftRight_add,
      show n >>> 8 = n / 256 from Nat.shiftRight_eq_div_pow n 8]
  · simp

theorem fromBeBytes_fixedBeBytes (width n : Nat) :
    fromBeBytes (fixedBeBytes width n) = n % 256 ^ width := by
  induction width generalizing n with
  | zero => simp [fixedBeBytes, fromBeBytes, Nat.mod_one]
  | succ width ih =>
    have happend (bs : Bytes) (b : UInt8) :
        fromBeBytes (bs ++ [b]) = fromBeBytes bs * 256 + b.toNat := by
      simp [fromBeBytes]
    have hpow : (256 : Nat) ^ (width + 1) = 256 * 256 ^ width := by
      rw [Nat.pow_succ, Nat.mul_comm]
    rw [fixedBeBytes_succ, happend, ih, UInt8.toNat_ofNat', hpow, Nat.mod_mul]
    omega

theorem fixedBeBytes_injOn {width m n : Nat} (hm : m < 256 ^ width) (hn : n < 256 ^ width)
    (h : fixedBeBytes width m = fixedBeBytes width n) : m = n := by
  have hval := congrArg fromBeBytes h
  rwa [fromBeBytes_fixedBeBytes, fromBeBytes_fixedBeBytes, Nat.mod_eq_of_lt hm,
    Nat.mod_eq_of_lt hn] at hval

theorem addressBytes_injective :
    Function.Injective fun address : Address => fixedBeBytes 20 address.val := by
  intro a b h
  have hlt (address : Address) : address.val < 256 ^ 20 :=
    lt_of_lt_of_eq address.isLt (by norm_num)
  exact Fin.ext (fixedBeBytes_injOn (hlt a) (hlt b) h)

theorem SelfDelimiting.ofAddress : SelfDelimiting encodeAddress :=
  string.comp addressBytes_injective

end Ethrex.Rlp
