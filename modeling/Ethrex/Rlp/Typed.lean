import Ethrex.Rlp.Item

/-!
# Typed decoding

The decoders over the types built from booleans, integers, byte arrays, byte strings, vectors and
tuples. The one of `u8` also accepts a raw zero byte and a small byte behind a string header.
-/

namespace Ethrex.Rlp

open List

/-- The integers that are decoded from the payload of a string. -/
inductive IntTy where
  | u16
  | u32
  | u64
  | u128
  | usize
  | u256
  deriving DecidableEq, Repr

def IntTy.width : IntTy → Nat
  | .u16 => 2
  | .u32 => 4
  | .u64 => 8
  | .u128 => 16
  | .usize => 8
  | .u256 => 32

/-- The types with an encoder and a decoder. -/
inductive Ty where
  | bool
  | u8
  | int (i : IntTy)
  | array (n : Nat)
  | bytes
  | vec (t : Ty)
  | pair (a b : Ty)
  | triple (a b c : Ty)
  | quad (a b c d : Ty)
  deriving DecidableEq, Repr

namespace Ty

@[reducible] def Val : Ty → Type
  | bool => Bool
  | u8 => UInt8
  | int i => Fin (256 ^ i.width)
  | array n => FixedBytes n
  | bytes => Bytes
  | vec t => List t.Val
  | pair a b => a.Val × b.Val
  | triple a b c => a.Val × b.Val × c.Val
  | quad a b c d => a.Val × b.Val × c.Val × d.Val

def mentionsU8 : Ty → Bool
  | u8 => true
  | vec t => t.mentionsU8
  | pair a b => a.mentionsU8 || b.mentionsU8
  | triple a b c => a.mentionsU8 || b.mentionsU8 || c.mentionsU8
  | quad a b c d => a.mentionsU8 || b.mentionsU8 || c.mentionsU8 || d.mentionsU8
  | _ => false

end Ty

/-- `impl_length_integers`, from the position of the highest bit and the lowest byte. -/
def implLengthIntegers (bits lsb : Nat) : Nat :=
  let sigLen := (bits + 8) / 8
  1 + sigLen * (if sigLen > 1 ∨ lsb > 0x7f then 1 else 0)

def uintLength (n : Nat) : Nat := implLengthIntegers (Nat.log2 n) (n % 256)

def listLength (payloadLen : Nat) : Nat :=
  if payloadLen < 56 then 1 + payloadLen
  else 1 + (Nat.log2 payloadLen / 8 + 1) + payloadLen

def bytesLength (bytesLen : Nat) (firstByte : UInt8) : Nat :=
  if bytesLen = 1 ∧ firstByte.toNat ≤ 0x7f then 1
  else if bytesLen < 56 then 1 + bytesLen
  else 1 + (Nat.log2 bytesLen / 8 + 1) + bytesLen

/-- `<[u8] as RLPEncode>::length`, and the one of `[u8; N]`. -/
def sliceLength (data : Bytes) : Nat :=
  match data with
  | [] => 1
  | b :: _ => bytesLength data.length b

namespace Ty

def length : (t : Ty) → t.Val → Nat
  | bool, _ => 1
  | u8, v => uintLength v.toNat
  | int _, v => uintLength v.val
  | array _, v => sliceLength v.val
  | bytes, v => sliceLength v
  | vec t, v => if v.isEmpty then 1 else listLength (v.map t.length).sum
  | pair a b, v => listLength (a.length v.1 + b.length v.2)
  | triple a b c, v => listLength (a.length v.1 + b.length v.2.1 + c.length v.2.2)
  | quad a b c d, v =>
    listLength (a.length v.1 + b.length v.2.1 + c.length v.2.2.1 + d.length v.2.2.2)

/-- `RLPEncode::encode`.  A vector writes its header from the lengths of its items. -/
def encode : (t : Ty) → t.Val → Bytes
  | bool, v => if v then [0x01] else [rlpNull]
  | u8, v => encodeUint v.toNat
  | int _, v => encodeUint v.val
  | array _, v => encodeBytes v.val
  | bytes, v => encodeBytes v
  | vec t, v =>
    if v.isEmpty then [0xc0] else encodeLength (v.map t.length).sum ++ v.flatMap t.encode
  | pair a b, v => encodeList (a.encode v.1 ++ b.encode v.2)
  | triple a b c, v => encodeList (a.encode v.1 ++ (b.encode v.2.1 ++ c.encode v.2.2))
  | quad a b c d, v =>
    encodeList (a.encode v.1 ++ (b.encode v.2.1 ++ (c.encode v.2.2.1 ++ d.encode v.2.2.2)))

end Ty

/-- A decoder: the value and the bytes after it. -/
abbrev DecodeUnfinished (α : Type) := Bytes → Except RLPDecodeError (α × Bytes)

/-- `<bool as RLPDecode>::decode_unfinished`. -/
def decodeBool : DecodeUnfinished Bool
  | [] => .error .invalidLength
  | b :: rest =>
    if b = rlpNull then .ok (false, rest)
    else if b = 0x01 then .ok (true, rest)
    else .error .malformedBoolean

/-- `<u8 as RLPDecode>::decode_unfinished`. -/
def decodeU8 : DecodeUnfinished UInt8
  | [] => .error .invalidLength
  | first :: rest =>
    if first.toNat ≤ 0x7f then .ok (first, rest)
    else if first = rlpNull then .ok (0, rest)
    else
      match rest with
      | second :: rest' =>
        if first = rlpNull + 1 then .ok (second, rest') else .error .malformedData
      | [] => .error .malformedData

/-- A `u8` read in the way the other integers are. -/
def decodeU8Strict : DecodeUnfinished UInt8 := fun data => do
  let (value, rest) ← decodeUint 1 data
  .ok (UInt8.ofNat value, rest)

instance neZeroPow256 (n : Nat) : NeZero (256 ^ n) := ⟨by positivity⟩

/-- `decode_unfinished` of `u16`, `u32`, `u64`, `usize`, `u128` and `U256`. -/
def decodeInt (i : IntTy) : DecodeUnfinished (Fin (256 ^ i.width)) := fun data => do
  let (value, rest) ← decodeUint i.width data
  .ok (Fin.ofNat _ value, rest)

section Combinators

variable {α β : Type}

/-- The loop over the payload of a list. A decoder takes at least one byte, so the payload's length
bounds the rounds. -/
def decodeItems (decode : DecodeUnfinished α) : Nat → Bytes → Except RLPDecodeError (List α)
  | _, [] => .ok []
  | 0, _ :: _ => .error .invalidLength
  | fuel + 1, b :: bs => do
    let (item, rest) ← decode (b :: bs)
    let items ← decodeItems decode fuel rest
    .ok (item :: items)

/-- `<Vec<T> as RLPDecode>::decode_unfinished`. -/
def decodeVec (decode : DecodeUnfinished α) : DecodeUnfinished (List α)
  | [] => .error .invalidLength
  | b :: rest =>
    if b = 0xc0 then .ok ([], rest)
    else do
      let (isList, payload, inputRest) ← decodeRlpItem (b :: rest)
      if isList then do
        let items ← decodeItems decode payload.length payload
        .ok (items, inputRest)
      else .error .malformedData

def andThen (first : DecodeUnfinished α) (second : DecodeUnfinished β) :
    DecodeUnfinished (α × β) := fun data => do
  let (a, rest) ← first data
  let (b, rest) ← second rest
  .ok ((a, b), rest)

/-- `decode_unfinished` of a tuple: the elements fill the payload of a list. -/
def decodeTuple (elements : DecodeUnfinished α) : DecodeUnfinished α
  | [] => .error .invalidLength
  | b :: rest => do
    let (isList, payload, inputRest) ← decodeRlpItem (b :: rest)
    if isList then do
      let (value, remaining) ← elements payload
      if remaining.isEmpty then .ok (value, inputRest) else .error .malformedData
    else .error .malformedData

end Combinators

namespace Ty

/-- `decode_unfinished` of a type, over a decoder for `u8`. -/
def decodeWith (decodeU8 : DecodeUnfinished UInt8) : (t : Ty) → DecodeUnfinished t.Val
  | bool => decodeBool
  | u8 => decodeU8
  | int i => decodeInt i
  | array n => decodeFixed n
  | bytes => decodeBytes
  | vec t => decodeVec (t.decodeWith decodeU8)
  | pair a b => decodeTuple (andThen (a.decodeWith decodeU8) (b.decodeWith decodeU8))
  | triple a b c =>
    decodeTuple (andThen (a.decodeWith decodeU8)
      (andThen (b.decodeWith decodeU8) (c.decodeWith decodeU8)))
  | quad a b c d =>
    decodeTuple (andThen (a.decodeWith decodeU8) (andThen (b.decodeWith decodeU8)
      (andThen (c.decodeWith decodeU8) (d.decodeWith decodeU8))))

def decodeUnfinished (t : Ty) : DecodeUnfinished t.Val := t.decodeWith decodeU8

/-- The decoder that differs from `decodeUnfinished` in reading `u8` as the other integers. -/
def decodeStrict (t : Ty) : DecodeUnfinished t.Val := t.decodeWith decodeU8Strict

end Ty

variable {n : Nat}

theorem length_toBeBytes_eq_log2 (h : n ≠ 0) : (toBeBytes n).length = Nat.log2 n / 8 + 1 := by
  have hlow : 2 ^ Nat.log2 n ≤ n := Nat.log2_self_le h
  have hhigh : n < 2 ^ (Nat.log2 n + 1) := Nat.lt_log2_self
  have hpow (k : Nat) : 256 ^ k = 2 ^ (8 * k) := by
    rw [pow_mul]
    norm_num
  apply length_toBeBytes
  · rw [hpow]
    exact le_trans (Nat.pow_le_pow_right (by decide) (by omega)) hlow
  · rw [hpow]
    exact lt_of_lt_of_le hhigh (Nat.pow_le_pow_right (by decide) (by omega))

theorem listLength_eq (n : Nat) : listLength n = headerLength n + n := by
  rw [listLength, headerLength]
  split
  · rfl
  · rw [length_toBeBytes_eq_log2 (by omega)]

theorem length_encodeBytes_one (b : UInt8) :
    (encodeBytes [b]).length = if b.toNat ≤ 0x7f then 1 else 2 := by
  rw [encodeBytes]
  by_cases hb : b.toNat ≤ 0x7f
  · rw [if_pos hb, if_pos (UInt8.lt_iff_toNat_lt.2 (by rw [show rlpNull.toNat = 0x80 from rfl]; omega))]
    rfl
  have hlt : ¬ b < rlpNull := fun h => by
    have := UInt8.lt_iff_toNat_lt.1 h
    rw [show rlpNull.toNat = 0x80 from rfl] at this
    omega
  rw [if_neg hb, if_neg hlt]
  rfl

theorem sliceLength_eq (data : Bytes) : sliceLength data = (encodeBytes data).length := by
  match data with
  | [] => rfl
  | [b] =>
    rw [length_encodeBytes_one]
    show bytesLength 1 b = _
    rw [bytesLength]
    by_cases hb : b.toNat ≤ 0x7f
    · rw [if_pos ⟨rfl, hb⟩, if_pos hb]
    · rw [if_neg fun h => hb h.2, if_neg hb]
      rfl
  | b :: c :: bs =>
    rw [length_encodeBytes (by simp), ← listLength_eq]
    show bytesLength (b :: c :: bs).length b = _
    rw [bytesLength, if_neg (fun h => by simp at h), listLength]

theorem uintLength_eq (hn : n < 256 ^ 32) : uintLength n = (encodeUint n).length := by
  rw [uintLength, implLengthIntegers, encodeUint]
  by_cases h0 : n = 0
  · subst h0
    simp [toBeBytes, encodeBytes, encodeHeader]
  have hlen := length_toBeBytes_eq_log2 h0
  have hwidth := toBeBytes_length_le.2 hn
  by_cases hone : Nat.log2 n / 8 = 0
  · -- one byte, the lowest
    obtain ⟨b, hb⟩ := length_eq_one_iff.1 (hlen.trans (by rw [hone]))
    have hval := fromBeBytes_toBeBytes n
    rw [hb] at hval
    have hbyte : b.toNat = n := by simpa [fromBeBytes] using hval
    have hlt := b.toNat_lt
    rw [hb, length_encodeBytes_one, hbyte, show (Nat.log2 n + 8) / 8 = 1 by omega,
      Nat.mod_eq_of_lt (by omega)]
    by_cases hsmall : n ≤ 0x7f
    · rw [if_pos hsmall, if_neg (by omega)]
    · rw [if_neg hsmall, if_pos (by omega)]
  · rw [length_encodeBytes (by omega), if_pos (by omega), headerLength_of_lt (by omega), hlen]
    omega

theorem IntTy.val_lt (i : IntTy) (v : Fin (256 ^ i.width)) : v.val < 256 ^ 32 :=
  lt_of_lt_of_le v.isLt (Nat.pow_le_pow_right (by decide) (by cases i <;> decide))

theorem UInt8.toNat_lt_pow (v : UInt8) : v.toNat < 256 ^ 32 :=
  lt_of_lt_of_le v.toNat_lt (by norm_num)

theorem sum_map_length {α : Type} {length : α → Nat} {encode : α → Bytes}
    (h : ∀ v, length v = (encode v).length) (vs : List α) :
    (vs.map length).sum = (vs.flatMap encode).length := by
  rw [length_flatMap]
  exact congrArg List.sum (map_congr_left fun v _ => h v)

namespace Ty

theorem length_eq (t : Ty) (v : t.Val) : t.length v = (t.encode v).length := by
  induction t with
  | bool => cases v <;> rfl
  | u8 => exact uintLength_eq (UInt8.toNat_lt_pow v)
  | int i => exact uintLength_eq (i.val_lt v)
  | array n => exact sliceLength_eq v.val
  | bytes => exact sliceLength_eq v
  | vec t ih =>
    rw [length, encode]
    split
    · rfl
    · rw [sum_map_length ih, listLength_eq, length_append, encodeLength, length_encodeHeader]
  | pair a b iha ihb =>
    rw [length, encode, iha, ihb, listLength_eq, length_encodeList, length_append]
  | triple a b c iha ihb ihc =>
    rw [length, encode, iha, ihb, ihc, listLength_eq, length_encodeList, length_append,
      length_append, Nat.add_assoc]
  | quad a b c d iha ihb ihc ihd =>
    rw [length, encode, iha, ihb, ihc, ihd, listLength_eq, length_encodeList,
      length_append, length_append, length_append, Nat.add_assoc, Nat.add_assoc]

theorem encode_vec (t : Ty) (vs : List t.Val) :
    (vec t).encode vs = encodeList (vs.flatMap t.encode) := by
  rw [encode, encodeList, sum_map_length t.length_eq]
  cases vs with
  | nil => rfl
  | cons v vs => rfl

end Ty

end Ethrex.Rlp
