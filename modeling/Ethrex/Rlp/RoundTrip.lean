import Ethrex.Rlp.Codec

/-!
# RLP round trips

An encoded item in front of any other bytes is split off and decoded back. The decoder refuses
payloads above `maxRlpBytes`.
-/

namespace Ethrex.Rlp

open List

/-! ### Lengths in big-endian form -/

theorem fromBeBytes_reverse (ds : List Nat) (h : ∀ d ∈ ds, d < 256) :
    fromBeBytes ((ds.map UInt8.ofNat).reverse) = Nat.ofDigits 256 ds := by
  rw [fromBeBytes, foldl_reverse]
  induction ds with
  | nil => rfl
  | cons d ds ih =>
    have hd : (UInt8.ofNat d).toNat = d := by
      rw [UInt8.toNat_ofNat']
      exact Nat.mod_eq_of_lt (h d (by simp))
    simp only [map_cons, foldr_cons, Nat.ofDigits_cons, hd,
      ih fun x hx => h x (by simp [hx])]
    ring

theorem fromBeBytes_toBeBytes (n : Nat) : fromBeBytes (toBeBytes n) = n := by
  rw [toBeBytes, fromBeBytes_reverse _ fun d hd => Nat.digits_lt_base (by norm_num) hd,
    Nat.ofDigits_digits]

variable {n : Nat} {payload fields : Bytes}

theorem toBeBytes_length_le {k : Nat} : (toBeBytes n).length ≤ k ↔ n < 256 ^ k := by
  simp [toBeBytes, Nat.digits_length_le_iff]

theorem toBeBytes_ne_nil (h : n ≠ 0) : toBeBytes n ≠ [] := by
  simp [toBeBytes, Nat.digits_ne_nil_iff_ne_zero.2 h]

theorem toBeBytes_head_ne_zero {b : UInt8} {bs : Bytes} (h : toBeBytes n = b :: bs) : b ≠ 0 := by
  have hn : n ≠ 0 := by
    rintro rfl
    simp [toBeBytes] at h
  have hlast := Nat.getLast_digit_ne_zero 256 hn
  have hlt : (Nat.digits 256 n).getLast (Nat.digits_ne_nil_iff_ne_zero.2 hn) < 256 :=
    Nat.digits_lt_base (by norm_num) (getLast_mem _)
  have hb : b = UInt8.ofNat ((Nat.digits 256 n).getLast (Nat.digits_ne_nil_iff_ne_zero.2 hn)) := by
    have := congrArg List.head? h
    rw [toBeBytes, head?_reverse, getLast?_map,
      getLast?_eq_some_getLast (Nat.digits_ne_nil_iff_ne_zero.2 hn)] at this
    simpa using this.symm
  intro h0
  have := congrArg UInt8.toNat (hb.symm.trans h0)
  rw [UInt8.toNat_ofNat', Nat.mod_eq_of_lt hlt] at this
  exact hlast this

theorem maxRlpBytes_eq : maxRlpBytes = 1073741824 := by norm_num [maxRlpBytes]

theorem leftPad_toBeBytes {width : Nat} (h : n < 256 ^ width) : leftPad width (toBeBytes n) = .ok n := by
  have hlen : (toBeBytes n).length ≤ width := toBeBytes_length_le.2 h
  have hval := fromBeBytes_toBeBytes n
  cases hbytes : toBeBytes n with
  | nil =>
    rw [hbytes] at hval
    rw [leftPad, ← hval]
    rfl
  | cons b bs =>
    rw [hbytes] at hlen hval
    rw [leftPad, if_neg (toBeBytes_head_ne_zero hbytes), if_neg (by omega), hval]

theorem toBeBytes_length_bounds (h0 : 56 ≤ n) (h : n < 256 ^ 8) :
    1 ≤ (toBeBytes n).length ∧ (toBeBytes n).length ≤ 8 := by
  constructor
  · have := toBeBytes_ne_nil (n := n) (by omega)
    exact length_pos_iff.2 this
  · exact toBeBytes_length_le.2 h

/-! ### Splitting off one item -/

theorem ofNat_add_toNat {base : UInt8} (h : base.toNat + n < 256) :
    (base + UInt8.ofNat n).toNat = base.toNat + n := by
  rw [UInt8.toNat_add, UInt8.toNat_ofNat', Nat.mod_eq_of_lt (show n < 2 ^ 8 by omega)]
  exact Nat.mod_eq_of_lt h

theorem lt_of_le_maxRlpBytes (h : n ≤ maxRlpBytes) : n < 256 ^ 8 :=
  lt_of_le_of_lt h (by norm_num [maxRlpBytes])

theorem longItem_toBeBytes (isList : Bool) (b : UInt8) (rest : Bytes) (h0 : 56 ≤ payload.length)
    (h : payload.length ≤ maxRlpBytes) :
    decodeRlpItem.longItem (b :: (toBeBytes payload.length ++ (payload ++ rest))) isList
      (toBeBytes payload.length).length = .ok (isList, payload, rest) := by
  rw [decodeRlpItem.longItem,
    if_neg (by simp only [length_cons, length_append]; omega)]
  simp only [drop_succ_cons, drop_zero, take_left, leftPad_toBeBytes (lt_of_le_maxRlpBytes h),
    bind, Except.bind]
  rw [if_neg (show ¬payload.length < rlpShortItemLimit by rw [rlpShortItemLimit]; omega),
    if_neg (by simp only [length_cons, length_append]; omega)]
  rw [drop_left, take_left, ← drop_drop, drop_left, drop_left]

theorem getItem_longItem_toBeBytes (b : UInt8) (rest : Bytes) (h : payload.length ≤ maxRlpBytes) :
    getItemWithPrefix.longItem (b :: (toBeBytes payload.length ++ (payload ++ rest)))
      (toBeBytes payload.length).length =
        .ok (b :: (toBeBytes payload.length ++ payload), rest) := by
  rw [getItemWithPrefix.longItem,
    if_neg (by simp only [length_cons, length_append]; omega)]
  simp only [drop_succ_cons, drop_zero, take_left, leftPad_toBeBytes (lt_of_le_maxRlpBytes h),
    bind, Except.bind]
  rw [if_neg (by simp only [length_cons, length_append]; omega)]
  simp only [take_succ_cons, ← append_assoc, ← length_append,
    take_left, drop_left]

theorem encodeHeader_cases (shortBase longBase : UInt8) (n : Nat) :
    (n < 56 ∧ encodeHeader shortBase longBase n = [shortBase + UInt8.ofNat n]) ∨
    (56 ≤ n ∧ encodeHeader shortBase longBase n =
      (longBase + UInt8.ofNat (toBeBytes n).length) :: toBeBytes n) := by
  rcases Nat.lt_or_ge n 56 with h | h
  · exact .inl ⟨h, by simp [encodeHeader, h]⟩
  · exact .inr ⟨h, by simp [encodeHeader, Nat.not_lt.2 h]⟩

/-- The first byte of a header says of which kind the item is and how long its length is. -/
theorem encodeHeader_head {shortBase longBase : UInt8} (hshort : shortBase.toNat ≤ 200)
    (hlong : longBase.toNat ≤ 247) (h : n < 256 ^ 8) :
    (n < 56 ∧ ∃ b : UInt8, b.toNat = shortBase.toNat + n ∧
      encodeHeader shortBase longBase n = [b]) ∨
    (56 ≤ n ∧ ∃ b : UInt8, b.toNat = longBase.toNat + (toBeBytes n).length ∧
      1 ≤ (toBeBytes n).length ∧ (toBeBytes n).length ≤ 8 ∧
      encodeHeader shortBase longBase n = b :: toBeBytes n) := by
  rcases encodeHeader_cases shortBase longBase n with ⟨hs, he⟩ | ⟨hl, he⟩
  · exact .inl ⟨hs, _, ofNat_add_toNat (by omega), he⟩
  · obtain ⟨hpos, hle⟩ := toBeBytes_length_bounds hl h
    exact .inr ⟨hl, _, ofNat_add_toNat (by omega), hpos, hle, he⟩

theorem encodeList_cases (h : fields.length < 256 ^ 8) :
    (fields.length < 56 ∧ ∃ b : UInt8, b.toNat = 0xc0 + fields.length ∧
      encodeList fields = b :: fields) ∨
    (56 ≤ fields.length ∧ ∃ b : UInt8, b.toNat = 0xf7 + (toBeBytes fields.length).length ∧
      1 ≤ (toBeBytes fields.length).length ∧ (toBeBytes fields.length).length ≤ 8 ∧
      encodeList fields = b :: (toBeBytes fields.length ++ fields)) := by
  rcases @encodeHeader_head _ 0xc0 0xf7 (by decide) (by decide) h with
    ⟨hs, b, hb, he⟩ | ⟨hl, b, hb, hpos, hle, he⟩
  · exact .inl ⟨hs, b, hb, by rw [encodeList, encodeLength, he, singleton_append]⟩
  · exact .inr ⟨hl, b, hb, hpos, hle, by rw [encodeList, encodeLength, he, cons_append]⟩

theorem decodeRlpItem_encodeList (rest : Bytes) (h : fields.length ≤ maxRlpBytes) :
    decodeRlpItem (encodeList fields ++ rest) = .ok (true, fields, rest) := by
  have hmax := maxRlpBytes_eq
  rcases encodeList_cases (lt_of_le_maxRlpBytes h) with ⟨hs, b, hb, he⟩ | ⟨hl, b, hb, hpos, hle, he⟩
  · simp only [he, cons_append, decodeRlpItem, hb]
    rw [if_neg (by omega), if_neg (by omega), if_neg (by omega), if_pos (by omega),
      if_neg (by simp only [length_cons, length_append]; omega)]
    simp
  · simp only [he, cons_append, append_assoc, decodeRlpItem, hb]
    rw [if_neg (by omega), if_neg (by omega), if_neg (by omega), if_neg (by omega),
      Nat.add_sub_cancel_left]
    exact longItem_toBeBytes true _ rest hl h

theorem decodeRlpItem_encodeList_self (fields : Bytes) (h : fields.length ≤ maxRlpBytes) :
    decodeRlpItem (encodeList fields) = .ok (true, fields, []) := by
  simpa using decodeRlpItem_encodeList [] h

theorem decodeRlpItem_encodeList_of_gt (h : maxRlpBytes < fields.length)
    (hlt : fields.length < 256 ^ 8) :
    decodeRlpItem (encodeList fields) = .error .invalidLength := by
  have hmax := maxRlpBytes_eq
  rcases encodeList_cases hlt with ⟨hs, -⟩ | ⟨hl, b, hb, hpos, hle, he⟩
  · omega
  simp only [he, decodeRlpItem, hb]
  rw [if_neg (by omega), if_neg (by omega), if_neg (by omega), if_neg (by omega),
    Nat.add_sub_cancel_left, decodeRlpItem.longItem,
    if_neg (by simp only [length_cons, length_append]; omega)]
  simp only [drop_succ_cons, drop_zero, take_left,
    leftPad_toBeBytes hlt, bind, Except.bind]
  rw [if_neg (show ¬fields.length < rlpShortItemLimit by rw [rlpShortItemLimit]; omega),
    if_pos (.inl h)]

theorem getItemWithPrefix_encodeList (rest : Bytes) (h : fields.length ≤ maxRlpBytes) :
    getItemWithPrefix (encodeList fields ++ rest) = .ok (encodeList fields, rest) := by
  rcases encodeList_cases (lt_of_le_maxRlpBytes h) with ⟨hs, b, hb, he⟩ | ⟨hl, b, hb, hpos, hle, he⟩
  · simp only [he, cons_append, getItemWithPrefix, hb]
    rw [if_neg (by omega), if_neg (by omega), if_neg (by omega), if_pos (by omega),
      getItemWithPrefix.shortItem,
      if_neg (by simp only [length_cons, length_append]; omega)]
    simp
  · simp only [he, cons_append, append_assoc, getItemWithPrefix, hb]
    rw [if_neg (by omega), if_neg (by omega), if_neg (by omega), if_neg (by omega),
      Nat.add_sub_cancel_left]
    exact getItem_longItem_toBeBytes _ rest h

theorem encodeBytes_cases (data : Bytes) :
    (∃ b, data = [b] ∧ b.toNat < 0x80 ∧ encodeBytes data = [b]) ∨
    ((∀ b, data = [b] → 0x80 ≤ b.toNat) ∧
      encodeBytes data = encodeHeader rlpNull 0xb7 data.length ++ data) := by
  match data with
  | [] => exact .inr ⟨by simp, rfl⟩
  | [b] =>
    by_cases hb : b < rlpNull
    · exact .inl ⟨b, rfl, UInt8.lt_iff_toNat_lt.1 hb, by simp [encodeBytes, hb]⟩
    refine .inr ⟨?_, by simp [encodeBytes, hb]⟩
    intro c hc
    obtain rfl : b = c := by simpa using hc
    exact Nat.not_lt.1 fun hlt => hb (UInt8.lt_iff_toNat_lt.2 hlt)
  | b :: c :: data => exact .inr ⟨by simp, rfl⟩

variable {data : Bytes}

theorem encodeBytes_head (h : data.length < 256 ^ 8) :
    (∃ b, data = [b] ∧ b.toNat < 0x80 ∧ encodeBytes data = [b]) ∨
    (data.length < 56 ∧ (∀ b, data = [b] → 0x80 ≤ b.toNat) ∧
      ∃ b : UInt8, b.toNat = 0x80 + data.length ∧ encodeBytes data = b :: data) ∨
    (56 ≤ data.length ∧ ∃ b : UInt8, b.toNat = 0xb7 + (toBeBytes data.length).length ∧
      1 ≤ (toBeBytes data.length).length ∧ (toBeBytes data.length).length ≤ 8 ∧
      encodeBytes data = b :: (toBeBytes data.length ++ data)) := by
  rcases encodeBytes_cases data with hone | ⟨hone, he⟩
  · exact .inl hone
  rcases @encodeHeader_head _ rlpNull 0xb7 (by decide) (by decide) h with
    ⟨hs, b, hb, hh⟩ | ⟨hl, b, hb, hpos, hle, hh⟩
  · exact .inr (.inl ⟨hs, hone, b, hb, by rw [he, hh, singleton_append]⟩)
  · exact .inr (.inr ⟨hl, b, hb, hpos, hle, by rw [he, hh, cons_append]⟩)

theorem decodeRlpItem_encodeBytes (rest : Bytes) (h : data.length ≤ maxRlpBytes) :
    decodeRlpItem (encodeBytes data ++ rest) = .ok (false, data, rest) := by
  have hmax := maxRlpBytes_eq
  rcases encodeBytes_head (lt_of_le_maxRlpBytes h) with
    ⟨b, rfl, hb, he⟩ | ⟨hs, hone, b, hb, he⟩ | ⟨hl, b, hb, hpos, hle, he⟩
  · simp only [he, cons_append, nil_append, decodeRlpItem]
    rw [if_pos (by omega)]
    simp
  · simp only [he, cons_append, decodeRlpItem, hb]
    rw [if_neg (by omega), if_pos (by omega),
      if_neg (by simp only [length_cons, length_append]; omega)]
    simp only [drop_succ_cons, drop_zero, Nat.add_sub_cancel_left, take_left,
      drop_left]
    rw [if_neg]
    rintro ⟨h1, hlt⟩
    obtain ⟨b, rfl⟩ := length_eq_one_iff.1 h1
    have := hone b rfl
    have hlt' : b.toNat < 0x80 := UInt8.lt_iff_toNat_lt.1 hlt
    omega
  · simp only [he, cons_append, append_assoc, decodeRlpItem, hb]
    rw [if_neg (by omega), if_neg (by omega), if_pos (by omega), Nat.add_sub_cancel_left]
    exact longItem_toBeBytes false _ rest hl h

theorem decodeBytes_encodeBytes (rest : Bytes) (h : data.length ≤ maxRlpBytes) :
    decodeBytes (encodeBytes data ++ rest) = .ok (data, rest) := by
  simp [decodeBytes, decodeRlpItem_encodeBytes rest h, bind, Except.bind]

theorem decodeBytes_encodeBytes_self (data : Bytes) (h : data.length ≤ maxRlpBytes) :
    decodeBytes (encodeBytes data) = .ok (data, []) := by
  simpa using decodeBytes_encodeBytes [] h

theorem getItemWithPrefix_encodeBytes (rest : Bytes) (h : data.length ≤ maxRlpBytes) :
    getItemWithPrefix (encodeBytes data ++ rest) = .ok (encodeBytes data, rest) := by
  rcases encodeBytes_head (lt_of_le_maxRlpBytes h) with
    ⟨b, rfl, hb, he⟩ | ⟨hs, -, b, hb, he⟩ | ⟨hl, b, hb, hpos, hle, he⟩
  · simp only [he, cons_append, nil_append, getItemWithPrefix]
    rw [if_pos (by omega)]
    simp
  · simp only [he, cons_append, getItemWithPrefix, hb]
    rw [if_neg (by omega), if_pos (by omega), getItemWithPrefix.shortItem,
      if_neg (by simp only [length_cons, length_append]; omega)]
    simp
  · simp only [he, cons_append, append_assoc, getItemWithPrefix, hb]
    rw [if_neg (by omega), if_neg (by omega), if_pos (by omega), Nat.add_sub_cancel_left]
    exact getItem_longItem_toBeBytes _ rest h

end Ethrex.Rlp
