import Ethrex.Rlp.Length

/-!
# Item decoding is the inverse of item encoding

`decode_rlp_item` accepts exactly the strings that start with an encoded item within the limit, and
no step leaves the bounds of the input or of `usize`.
-/

namespace Ethrex.Rlp

open List

/-- The encoder of an item: `<[u8] as RLPEncode>::encode` for a string, `encode_length` and the
payload for a list. -/
def encodeItem (isList : Bool) (payload : Bytes) : Bytes :=
  if isList then encodeList payload else encodeBytes payload

/-! ### Big-endian integers without leading zeros -/

variable (data : Bytes)

theorem fromBeBytes_eq_ofDigits :
    fromBeBytes data = Nat.ofDigits 256 (data.reverse.map UInt8.toNat) := by
  have hbytes : ((data.reverse.map UInt8.toNat).map UInt8.ofNat).reverse = data := by
    simp [Function.comp_def]
  have hval := fromBeBytes_reverse (data.reverse.map UInt8.toNat) (by
    intro d hd
    obtain ⟨b, -, rfl⟩ := mem_map.1 hd
    exact b.toNat_lt)
  rwa [hbytes] at hval

variable {bs payload rest : Bytes} {n lengthOfLength : Nat}

theorem toBeBytes_fromBeBytes {b : UInt8} (hb : b ≠ 0) :
    toBeBytes (fromBeBytes (b :: bs)) = b :: bs := by
  have hdigits : Nat.digits 256 (fromBeBytes (b :: bs)) =
      (b :: bs).reverse.map UInt8.toNat := by
    rw [fromBeBytes_eq_ofDigits]
    apply Nat.digits_ofDigits 256 (by norm_num)
    · intro d hd
      obtain ⟨c, -, rfl⟩ := mem_map.1 hd
      exact c.toNat_lt
    · intro _
      have hlast : b.toNat ≠ 0 := fun h => hb (UInt8.toNat_inj.1 h)
      simpa using hlast
  rw [toBeBytes, hdigits]
  simp [Function.comp_def]

theorem leftPad_eq_ok {width : Nat} {data : Bytes} :
    leftPad width data = .ok n ↔ data = toBeBytes n ∧ n < 256 ^ width := by
  constructor
  · intro h
    match data, h with
    | [], h =>
      obtain rfl : 0 = n := by simpa [leftPad] using h
      exact ⟨by simp [toBeBytes], by positivity⟩
    | b :: bs, h =>
      rw [leftPad] at h
      split at h
      · cases h
      rename_i hb
      split at h
      · cases h
      rename_i hlen
      obtain rfl : fromBeBytes (b :: bs) = n := by simpa using h
      have hbytes : toBeBytes (fromBeBytes (b :: bs)) = b :: bs := toBeBytes_fromBeBytes hb
      refine ⟨hbytes.symm, toBeBytes_length_le.1 ?_⟩
      rw [hbytes]
      omega
  · rintro ⟨rfl, h⟩
    exact leftPad_toBeBytes h

theorem longBase_add {longBase : UInt8} (first : UInt8)
    (h : first.toNat = longBase.toNat + (toBeBytes n).length) :
    longBase + UInt8.ofNat (toBeBytes n).length = first := by
  apply UInt8.toNat_inj.1
  rw [ofNat_add_toNat (by have := first.toNat_lt; omega), h]

theorem shortBase_add {shortBase : UInt8} (first : UInt8) (h : first.toNat = shortBase.toNat + n) :
    shortBase + UInt8.ofNat n = first := by
  apply UInt8.toNat_inj.1
  rw [ofNat_add_toNat (by have := first.toNat_lt; omega), h]

/-- What the long arms accept: a length in its shortest form that needs the long form, and a
payload of that length. -/
theorem longItem_eq_ok {data : Bytes} {b : UInt8} (hdata : data = b :: bs) {isList isList' : Bool}
    (h : decodeRlpItem.longItem data isList lengthOfLength = .ok (isList', payload, rest)) :
    isList' = isList ∧ 56 ≤ payload.length ∧ payload.length ≤ maxRlpBytes ∧
      (toBeBytes payload.length).length = lengthOfLength ∧
      data = b :: (toBeBytes payload.length ++ (payload ++ rest)) := by
  subst hdata
  rw [decodeRlpItem.longItem] at h
  split at h
  · cases h
  rename_i hroom
  obtain ⟨length, hlength, h⟩ := bind_eq_ok.1 h
  split at h
  · cases h
  rename_i hlong
  split at h
  · cases h
  rename_i hfits
  simp only [Except.ok.injEq, Prod.mk.injEq, drop_succ_cons] at h
  obtain ⟨rfl, rfl, rfl⟩ := h
  rw [rlpShortItemLimit] at hlong
  simp only [length_cons] at hroom hfits
  rw [leftPad_eq_ok] at hlength
  obtain ⟨hbytes, -⟩ := hlength
  have hbytes' : bs.take lengthOfLength = toBeBytes length := hbytes
  have hpayload : ((bs.drop lengthOfLength).take length).length = length := by
    rw [length_take, length_drop]
    omega
  rw [hpayload, ← hbytes', length_take]
  refine ⟨rfl, by omega, by omega, by omega, ?_⟩
  rw [← drop_drop, take_append_drop, take_append_drop]

theorem encodeBytes_of_wrapped (h : ¬(payload.length = 1 ∧ payload.headD 0 < 0x80)) :
    encodeBytes payload = encodeHeader rlpNull 0xb7 payload.length ++ payload := by
  rcases encodeBytes_cases payload with ⟨b, rfl, hb, -⟩ | ⟨-, he⟩
  · exact absurd ⟨rfl, UInt8.lt_iff_toNat_lt.2 hb⟩ h
  · exact he

theorem encodeItem_of_decodeRlpItem {data : Bytes} {isList : Bool}
    (h : decodeRlpItem data = .ok (isList, payload, rest)) :
    payload.length ≤ maxRlpBytes ∧ data = encodeItem isList payload ++ rest := by
  have hmax := maxRlpBytes_eq
  match data, h with
  | b :: bs, h =>
    simp only [decodeRlpItem] at h
    split at h
    · -- a single byte below 0x80 is its own encoding
      rename_i hb
      simp only [Except.ok.injEq, Prod.mk.injEq, take_succ_cons, take_zero,
        drop_succ_cons, drop_zero] at h
      obtain ⟨rfl, rfl, rfl⟩ := h
      refine ⟨by simp; omega, ?_⟩
      have hlt : b < rlpNull := UInt8.lt_iff_toNat_lt.2 (by rw [show rlpNull.toNat = 0x80 from rfl]; omega)
      simp [encodeItem, encodeBytes, hlt]
    rename_i hsmall
    split at h
    · -- a short string
      rename_i hb
      split at h
      · cases h
      rename_i hroom
      split at h
      · cases h
      rename_i hwrapped
      simp only [Except.ok.injEq, Prod.mk.injEq, drop_succ_cons, drop_zero] at h hwrapped
      obtain ⟨rfl, rfl, rfl⟩ := h
      simp only [length_cons] at hroom
      have hlen : (bs.take (b.toNat - 0x80)).length = b.toNat - 0x80 := by
        rw [length_take]
        omega
      refine ⟨by omega, ?_⟩
      rw [encodeItem, if_neg (by decide), encodeBytes_of_wrapped (by rwa [hlen])]
      rcases encodeHeader_cases rlpNull 0xb7 (bs.take (b.toNat - 0x80)).length with ⟨-, he⟩ | ⟨hl, -⟩
      · rw [he, hlen, shortBase_add b (by rw [show rlpNull.toNat = 0x80 from rfl]; omega)]
        simp
      · omega
    split at h
    · -- a long string
      rename_i hnot hb
      obtain ⟨rfl, hlong, hfits, hlen, hdata⟩ := longItem_eq_ok rfl h
      refine ⟨hfits, ?_⟩
      rw [encodeItem, if_neg (by decide), encodeBytes_of_wrapped (fun hw => by omega)]
      rcases encodeHeader_cases rlpNull 0xb7 payload.length with ⟨hs, -⟩ | ⟨-, he⟩
      · omega
      · rw [he, longBase_add b (by rw [show (0xb7 : UInt8).toNat = 0xB7 from rfl]; omega)]
        simpa using hdata
    split at h
    · -- a short list
      rename_i hnot hnot' hb
      split at h
      · cases h
      rename_i hroom
      simp only [Except.ok.injEq, Prod.mk.injEq, drop_succ_cons, drop_zero] at h
      obtain ⟨rfl, rfl, rfl⟩ := h
      simp only [length_cons] at hroom
      have hlen : (bs.take (b.toNat - 0xC0)).length = b.toNat - 0xC0 := by
        rw [length_take]
        omega
      refine ⟨by omega, ?_⟩
      rw [encodeItem, if_pos rfl, encodeList, encodeLength]
      rcases encodeHeader_cases 0xc0 0xf7 (bs.take (b.toNat - 0xC0)).length with ⟨-, he⟩ | ⟨hl, -⟩
      · rw [he, hlen, shortBase_add b (by rw [show (0xc0 : UInt8).toNat = 0xC0 from rfl]; omega)]
        simp
      · omega
    · -- a long list
      rename_i hnot hnot' hnot''
      obtain ⟨rfl, hlong, hfits, hlen, hdata⟩ := longItem_eq_ok rfl h
      refine ⟨hfits, ?_⟩
      rw [encodeItem, if_pos rfl, encodeList, encodeLength]
      rcases encodeHeader_cases 0xc0 0xf7 payload.length with ⟨hs, -⟩ | ⟨-, he⟩
      · omega
      · rw [he, longBase_add b (by rw [show (0xf7 : UInt8).toNat = 0xF7 from rfl]; omega)]
        simpa using hdata

theorem decodeRlpItem_eq_ok {data : Bytes} {isList : Bool} :
    decodeRlpItem data = .ok (isList, payload, rest) ↔
      payload.length ≤ maxRlpBytes ∧ data = encodeItem isList payload ++ rest := by
  constructor
  · exact encodeItem_of_decodeRlpItem
  rintro ⟨hfits, rfl⟩
  cases isList with
  | true => exact decodeRlpItem_encodeList rest hfits
  | false => exact decodeRlpItem_encodeBytes rest hfits

theorem decodeBytes_eq_ok {data : Bytes} :
    decodeBytes data = .ok (payload, rest) ↔
      payload.length ≤ maxRlpBytes ∧ data = encodeBytes payload ++ rest := by
  constructor
  · intro h
    cases hitem : decodeRlpItem data with
    | error err => simp [decodeBytes, hitem, bind, Except.bind] at h
    | ok item =>
      obtain ⟨isList, payload', rest'⟩ := item
      cases isList with
      | true => simp [decodeBytes, hitem, bind, Except.bind] at h
      | false =>
        obtain ⟨rfl, rfl⟩ : payload' = payload ∧ rest' = rest := by
          simpa [decodeBytes, hitem, bind, Except.bind] using h
        exact decodeRlpItem_eq_ok.1 hitem
  · rintro ⟨hfits, rfl⟩
    exact decodeBytes_encodeBytes rest hfits

/-! ### The same function with every slice and sum checked -/

/-- A sum of two `usize` on a 64-bit target; `none` is an overflow. -/
def usizeAdd (a b : Nat) : Option Nat :=
  if a + b < 2 ^ 64 then some (a + b) else none

/-- `first_byte - base` on bytes; `none` is an underflow. -/
def byteSub (a b : Nat) : Option Nat :=
  if b ≤ a then some (a - b) else none

/-- `data[start..stop]`; `none` is a panic. -/
def slice (start stop : Nat) : Option Bytes :=
  if start ≤ stop ∧ stop ≤ data.length then some ((data.drop start).take (stop - start)) else none

/-- `data[start..]`; `none` is a panic. -/
def sliceFrom (start : Nat) : Option Bytes :=
  if start ≤ data.length then some (data.drop start) else none

/-- `decode_rlp_item` with the operations that could panic: the outer `none` is an index out of
bounds or an overflow. -/
def decodeRlpItemChecked :
    Option (Except RLPDecodeError (Bool × Bytes × Bytes)) :=
  if data.isEmpty then some (.error .invalidLength)
  else do
    let first ← data[0]?
    let firstByte := first.toNat
    if firstByte ≤ 0x7F then
      let payload ← slice data 0 1
      let rest ← sliceFrom data 1
      some (.ok (false, payload, rest))
    else if firstByte ≤ 0xB7 then
      let length ← byteSub firstByte 0x80
      shortItem false length
    else if firstByte ≤ 0xBF then
      let lengthOfLength ← byteSub firstByte 0xB7
      longItem false lengthOfLength
    else if firstByte ≤ 0xF7 then
      let length ← byteSub firstByte 0xC0
      shortItem true length
    else
      let lengthOfLength ← byteSub firstByte 0xF7
      longItem true lengthOfLength
where
  /-- The arms for short items; only the one for strings looks at a payload of one byte. -/
  shortItem (isList : Bool) (length : Nat) :
      Option (Except RLPDecodeError (Bool × Bytes × Bytes)) := do
    if length > maxRlpBytes then some (.error .invalidLength)
    else
      let stop ← usizeAdd length 1
      if data.length < stop then some (.error .invalidLength)
      else
        let payload ← slice data 1 stop
        let rest ← sliceFrom data stop
        if isList = false ∧ length = 1 then
          let only ← payload[0]?
          some (if only < 0x80 then .error .malformedData else .ok (isList, payload, rest))
        else some (.ok (isList, payload, rest))
  /-- The arms for long items.  `static_left_pad` copies into an array of eight bytes only after
  it has compared the lengths. -/
  longItem (isList : Bool) (lengthOfLength : Nat) :
      Option (Except RLPDecodeError (Bool × Bytes × Bytes)) := do
    let start ← usizeAdd lengthOfLength 1
    if data.length < start then some (.error .invalidLength)
    else
      let lengthBytes ← slice data 1 start
      match leftPad 8 lengthBytes with
      | .error err => some (.error err)
      | .ok length =>
        if length < rlpShortItemLimit then some (.error .malformedData)
        else if length > maxRlpBytes then some (.error .invalidLength)
        else
          let sum ← usizeAdd lengthOfLength length
          let stop ← usizeAdd sum 1
          if data.length < stop then some (.error .invalidLength)
          else
            let payload ← slice data start stop
            let rest ← sliceFrom data stop
            some (.ok (isList, payload, rest))

variable {a start : Nat}

theorem usizeAdd_eq {b : Nat} (h : a + b < 2 ^ 64) : usizeAdd a b = some (a + b) := if_pos h

theorem byteSub_eq {b : Nat} (h : b ≤ a) : byteSub a b = some (a - b) := if_pos h

theorem slice_eq {data : Bytes} {stop : Nat} (h : start ≤ stop) (h' : stop ≤ data.length) :
    slice data start stop = some ((data.drop start).take (stop - start)) := if_pos ⟨h, h'⟩

theorem sliceFrom_eq {data : Bytes} (h : start ≤ data.length) :
    sliceFrom data start = some (data.drop start) := if_pos h

theorem checked_longItem (data : Bytes) (isList : Bool) (h : lengthOfLength ≤ 8) :
    decodeRlpItemChecked.longItem data isList lengthOfLength =
      some (decodeRlpItem.longItem data isList lengthOfLength) := by
  have hmax := maxRlpBytes_eq
  rw [decodeRlpItemChecked.longItem, decodeRlpItem.longItem, usizeAdd_eq (by omega)]
  simp only [bind, Option.bind_some]
  split
  · rfl
  rename_i hroom
  rw [slice_eq (by omega) (by omega)]
  simp only [Option.bind_some, Nat.add_sub_cancel]
  cases leftPad 8 ((data.drop 1).take lengthOfLength) with
  | error err => rfl
  | ok length =>
    simp only [Except.bind]
    split
    · rfl
    by_cases hlarge : length > maxRlpBytes
    · rw [if_pos hlarge, if_pos (.inl hlarge)]
    rw [if_neg hlarge, usizeAdd_eq (by omega)]
    simp only [Option.bind_some]
    rw [usizeAdd_eq (by omega)]
    simp only [Option.bind_some]
    by_cases hshort : data.length < lengthOfLength + length + 1
    · rw [if_pos hshort, if_pos (.inr hshort)]
    rw [if_neg hshort, if_neg (by omega), slice_eq (by omega) (by omega),
      sliceFrom_eq (by omega)]
    simp only [Option.bind_some]
    rw [show lengthOfLength + length + 1 - (lengthOfLength + 1) = length by omega]

theorem checked_shortItem (isList : Bool) {length : Nat} (h : length < 56) :
    decodeRlpItemChecked.shortItem data isList length =
      some (if length > maxRlpBytes ∨ data.length < length + 1 then .error .invalidLength
        else if isList = false ∧ length = 1 ∧ ((data.drop 1).take length).headD 0 < 0x80 then
          .error .malformedData
        else .ok (isList, (data.drop 1).take length, data.drop (length + 1))) := by
  have hmax := maxRlpBytes_eq
  rw [decodeRlpItemChecked.shortItem, if_neg (by omega), usizeAdd_eq (by omega)]
  simp only [bind, Option.bind_some]
  by_cases hshort : data.length < length + 1
  · rw [if_pos hshort, if_pos (.inr hshort)]
  rw [if_neg hshort, if_neg (by omega), slice_eq (by omega) (by omega), sliceFrom_eq (by omega)]
  simp only [Option.bind_some, Nat.add_sub_cancel]
  by_cases hone : isList = false ∧ length = 1
  · obtain ⟨rfl, rfl⟩ := hone
    rw [if_pos ⟨rfl, rfl⟩]
    obtain ⟨b, hb⟩ : ∃ b, (data.drop 1).take 1 = [b] := by
      apply length_eq_one_iff.1
      rw [length_take, length_drop]
      omega
    rw [hb]
    simp
  · rw [if_neg hone, if_neg fun hw => hone ⟨hw.1, hw.2.1⟩]

theorem decodeRlpItemChecked_eq :
    decodeRlpItemChecked data = some (decodeRlpItem data) := by
  match data with
  | [] => rfl
  | b :: bs =>
    have hb := b.toNat_lt
    rw [decodeRlpItemChecked, if_neg (by simp)]
    simp only [getElem?_cons_zero, bind, Option.bind_some, decodeRlpItem]
    split
    · rw [slice_eq (by omega) (by simp), sliceFrom_eq (by simp)]
      rfl
    split
    · rw [byteSub_eq (by omega)]
      simp only [Option.bind_some]
      rw [checked_shortItem _ _ (by omega)]
      simp
    split
    · rw [byteSub_eq (by omega)]
      simp only [Option.bind_some]
      exact checked_longItem _ _ (by omega)
    split
    · rw [byteSub_eq (by omega)]
      simp only [Option.bind_some]
      rw [checked_shortItem _ _ (by omega)]
      simp
    · rw [byteSub_eq (by omega)]
      simp only [Option.bind_some]
      exact checked_longItem _ _ (by omega)

/-- A byte string is accepted exactly when it starts with the encoding of an item whose payload is
at most `2 ^ 30` bytes, and decoding never panics. -/
theorem decodeRlpItem_exact (data : Bytes) :
    (∀ (isList : Bool) (payload rest : Bytes),
      decodeRlpItem data = .ok (isList, payload, rest) ↔
        payload.length ≤ 2 ^ 30 ∧ data = encodeItem isList payload ++ rest) ∧
    decodeRlpItemChecked data = some (decodeRlpItem data) := by
  refine ⟨fun isList payload rest => ?_, decodeRlpItemChecked_eq data⟩
  rw [show (2 : Nat) ^ 30 = maxRlpBytes from rfl]
  exact decodeRlpItem_eq_ok

end Ethrex.Rlp
