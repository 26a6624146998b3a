import Ethrex.Rlp.Typed

/-!
# Canonical decoding

A decoder is exact when it accepts the encodings of its values and nothing else. All decoders are
exact but the one of `u8`, and an accepted byte string is an encoding exactly when each `u8` in it
is written as its encoding.
-/

namespace Ethrex.Rlp

open List

/-- A decoder accepts exactly the encodings of the values that fit. -/
def Exact {α : Type} (encode : α → Bytes) (Fits : α → Prop) (decode : DecodeUnfinished α) : Prop :=
  ∀ data v rest, decode data = .ok (v, rest) ↔ Fits v ∧ data = encode v ++ rest

theorem exact_bool : Exact Ty.bool.encode (fun _ => True) decodeBool := by
  intro data v rest
  constructor
  · intro h
    match data, h with
    | b :: bs, h =>
      rw [decodeBool] at h
      split at h
      · rename_i hb
        obtain ⟨rfl, rfl⟩ : false = v ∧ bs = rest := by simpa using h
        exact ⟨trivial, by rw [hb]; rfl⟩
      split at h
      · rename_i hb
        obtain ⟨rfl, rfl⟩ : true = v ∧ bs = rest := by simpa using h
        exact ⟨trivial, by rw [hb]; rfl⟩
      · cases h
  · rintro ⟨-, rfl⟩
    cases v <;> rfl

theorem exact_uint {width : Nat} (hwidth : width ≤ maxRlpBytes) :
    Exact encodeUint (· < 256 ^ width) (decodeUint width) := by
  intro data n rest
  constructor
  · intro h
    obtain ⟨⟨payload, rest'⟩, hbytes, h⟩ := bind_eq_ok.1 h
    obtain ⟨value, hpad, h⟩ := bind_eq_ok.1 h
    cases h
    obtain ⟨rfl, hlt⟩ := leftPad_eq_ok.1 hpad
    exact ⟨hlt, (decodeBytes_eq_ok.1 hbytes).2⟩
  · rintro ⟨hlt, rfl⟩
    exact decodeUint_encodeUint hlt hwidth rest

theorem exact_array (n : Nat) :
    Exact (Ty.array n).encode (fun _ => n ≤ maxRlpBytes) (decodeFixed n) := by
  intro data v rest
  constructor
  · intro h
    obtain ⟨⟨payload, rest'⟩, hbytes, h⟩ := bind_eq_ok.1 h
    obtain ⟨hfits, hdata⟩ := decodeBytes_eq_ok.1 hbytes
    simp only at h
    split at h
    · cases h
      exact ⟨by omega, hdata⟩
    · cases h
  · rintro ⟨hfits, rfl⟩
    obtain ⟨payload, rfl⟩ := v
    show decodeFixed _ (encodeBytes payload ++ rest) = _
    simp [decodeFixed, decodeBytes_encodeBytes rest hfits, bind, Except.bind]

section Combinators

variable {α β : Type} {encode : α → Bytes} {Fits : α → Prop} {decode : DecodeUnfinished α}
  {encode' : β → Bytes} {Fits' : β → Prop} {decode' : DecodeUnfinished β}

theorem Exact.map (h : Exact encode Fits decode) {f : α → β} {g : β → α}
    (hfits : ∀ b, Fits (g b) ↔ Fits' b) (hgf : ∀ a, Fits a → g (f a) = a)
    (hfg : ∀ b, f (g b) = b) :
    Exact (fun b => encode (g b)) Fits' (fun data => do
      let (value, rest) ← decode data
      .ok (f value, rest)) := by
  intro data v rest
  constructor
  · intro hd
    obtain ⟨⟨value, rest'⟩, hvalue, hd⟩ := bind_eq_ok.1 hd
    cases hd
    obtain ⟨hfit, hdata⟩ := (h _ _ _).1 hvalue
    exact ⟨(hfits _).1 (by rwa [hgf value hfit]), by simp only [hgf value hfit, hdata]⟩
  · rintro ⟨hfit, rfl⟩
    refine bind_eq_ok.2 ⟨_, (h _ _ _).2 ⟨(hfits v).2 hfit, rfl⟩, ?_⟩
    simp only [hfg]

theorem Exact.andThen (h : Exact encode Fits decode) (h' : Exact encode' Fits' decode') :
    Exact (fun v : α × β => encode v.1 ++ encode' v.2) (fun v => Fits v.1 ∧ Fits' v.2)
      (andThen decode decode') := by
  intro data v rest
  obtain ⟨a, b⟩ := v
  constructor
  · intro hd
    obtain ⟨first, hfirst, hd⟩ := bind_eq_ok.1 hd
    obtain ⟨second, hsecond, hd⟩ := bind_eq_ok.1 hd
    cases hd
    obtain ⟨hfits, hdata⟩ := (h _ _ _).1 hfirst
    obtain ⟨hfits', hdata'⟩ := (h' _ _ _).1 hsecond
    refine ⟨⟨hfits, hfits'⟩, ?_⟩
    rw [hdata, hdata', append_assoc]
  · rintro ⟨⟨hfits, hfits'⟩, rfl⟩
    have hfirst := (h (encode a ++ (encode' b ++ rest)) a (encode' b ++ rest)).2 ⟨hfits, rfl⟩
    have hsecond := (h' (encode' b ++ rest) b rest).2 ⟨hfits', rfl⟩
    rw [append_assoc]
    simp [Rlp.andThen, hfirst, hsecond, bind, Except.bind]

theorem decodeTuple_eq (elements : DecodeUnfinished α) (data : Bytes) :
    decodeTuple elements data = (do
      let (isList, payload, inputRest) ← decodeRlpItem data
      if isList then do
        let (value, remaining) ← elements payload
        if remaining.isEmpty then .ok (value, inputRest) else .error .malformedData
      else .error .malformedData) := by
  cases data <;> rfl

theorem decodeTuple_eq_ok {elements : DecodeUnfinished α} {data rest : Bytes} {v : α} :
    decodeTuple elements data = .ok (v, rest) ↔
      ∃ payload, payload.length ≤ maxRlpBytes ∧ data = encodeList payload ++ rest ∧
        elements payload = .ok (v, []) := by
  rw [decodeTuple_eq]
  constructor
  · intro h
    obtain ⟨⟨isList, payload, inputRest⟩, hitem, h⟩ := bind_eq_ok.1 h
    cases isList with
    | false => cases h
    | true =>
      obtain ⟨⟨value, remaining⟩, helements, h⟩ := bind_eq_ok.1 h
      cases remaining with
      | cons b bs => cases h
      | nil =>
        cases h
        obtain ⟨hfits, hdata⟩ := decodeRlpItem_eq_ok.1 hitem
        exact ⟨payload, hfits, hdata, helements⟩
  · rintro ⟨payload, hfits, rfl, helements⟩
    rw [decodeRlpItem_encodeList rest hfits]
    simp [helements, bind, Except.bind]

theorem Exact.tuple (h : Exact encode Fits decode)
    (hfits : ∀ v, (encode v).length ≤ maxRlpBytes → Fits v) :
    Exact (fun v => encodeList (encode v)) (fun v => (encode v).length ≤ maxRlpBytes)
      (decodeTuple decode) := by
  intro data v rest
  rw [decodeTuple_eq_ok]
  constructor
  · rintro ⟨payload, hlen, rfl, helements⟩
    obtain ⟨-, rfl⟩ := (h _ _ _).1 helements
    rw [append_nil] at hlen ⊢
    exact ⟨hlen, rfl⟩
  · rintro ⟨hlen, rfl⟩
    exact ⟨encode v, hlen, rfl, (h _ _ _).2 ⟨hfits v hlen, (append_nil _).symm⟩⟩

theorem decodeVec_eq (decode : DecodeUnfinished α) (data : Bytes) :
    decodeVec decode data = (do
      let (isList, payload, inputRest) ← decodeRlpItem data
      if isList then do
        let items ← decodeItems decode payload.length payload
        .ok (items, inputRest)
      else .error .malformedData) := by
  match data with
  | [] => rfl
  | b :: rest =>
    rw [decodeVec]
    split
    · rename_i hb
      have hitem : decodeRlpItem (b :: rest) = .ok (true, [], rest) := by
        rw [hb]
        exact @decodeRlpItem_encodeList [] rest (Nat.zero_le _)
      rw [hitem]
      rfl
    · rfl

theorem decodeVec_eq_ok {data rest : Bytes} {vs : List α} :
    decodeVec decode data = .ok (vs, rest) ↔
      ∃ payload, payload.length ≤ maxRlpBytes ∧ data = encodeList payload ++ rest ∧
        decodeItems decode payload.length payload = .ok vs := by
  rw [decodeVec_eq]
  constructor
  · intro h
    obtain ⟨⟨isList, payload, inputRest⟩, hitem, h⟩ := bind_eq_ok.1 h
    cases isList with
    | false => cases h
    | true =>
      obtain ⟨items, hitems, h⟩ := bind_eq_ok.1 h
      cases h
      obtain ⟨hfits, hdata⟩ := decodeRlpItem_eq_ok.1 hitem
      exact ⟨payload, hfits, hdata, hitems⟩
  · rintro ⟨payload, hfits, rfl, hitems⟩
    rw [decodeRlpItem_encodeList rest hfits]
    simp [hitems, bind, Except.bind]

theorem decodeItems_flatMap {vs : List α} {fuel : Nat} (hne : ∀ v, encode v ≠ [])
    (h : ∀ v ∈ vs, ∀ rest, decode (encode v ++ rest) = .ok (v, rest))
    (hfuel : (vs.flatMap encode).length ≤ fuel) :
    decodeItems decode fuel (vs.flatMap encode) = .ok vs := by
  induction vs generalizing fuel with
  | nil => cases fuel <;> rfl
  | cons v vs ih =>
    obtain ⟨b, bs, hb⟩ := exists_cons_of_ne_nil (hne v)
    have hitem := h v mem_cons_self (vs.flatMap encode)
    rw [flatMap_cons, length_append] at hfuel
    simp only [hb, length_cons] at hfuel
    obtain ⟨fuel, rfl⟩ : ∃ k, fuel = k + 1 := ⟨fuel - 1, by omega⟩
    have hitems := @ih fuel (fun w hw => h w (mem_cons_of_mem _ hw)) (by omega)
    rw [hb, cons_append] at hitem
    simp only [flatMap_cons, hb, cons_append, decodeItems, hitem, hitems, bind, Except.bind]

theorem Exact.decodeItems_eq_ok (h : Exact encode Fits decode) {fuel : Nat} {slice : Bytes}
    {vs : List α} (hne : ∀ v, encode v ≠ []) (hfuel : slice.length ≤ fuel) :
    decodeItems decode fuel slice = .ok vs ↔ (∀ v ∈ vs, Fits v) ∧ slice = vs.flatMap encode := by
  constructor
  · intro hd
    induction fuel generalizing slice vs with
    | zero =>
      obtain rfl : slice = [] := length_eq_zero_iff.1 (by omega)
      obtain rfl : [] = vs := by simpa [decodeItems] using hd
      simp
    | succ fuel ih =>
      match slice with
      | [] =>
        obtain rfl : [] = vs := by simpa [decodeItems] using hd
        simp
      | b :: bs =>
        rw [decodeItems] at hd
        obtain ⟨⟨item, rest⟩, hitem, hd⟩ := bind_eq_ok.1 hd
        obtain ⟨items, hitems, hd⟩ := bind_eq_ok.1 hd
        cases hd
        obtain ⟨hfits, hdata⟩ := (h _ _ _).1 hitem
        have hlen := congrArg List.length hdata
        have hpos : 0 < (encode item).length := length_pos_iff.2 (hne item)
        rw [length_append] at hlen
        obtain ⟨hall, hrest⟩ := ih (by simp only [length_cons] at *; omega) hitems
        exact ⟨forall_mem_cons.2 ⟨hfits, hall⟩, by rw [hdata, hrest, flatMap_cons]⟩
  · rintro ⟨hall, rfl⟩
    exact decodeItems_flatMap hne (fun v hv rest => (h _ _ _).2 ⟨hall v hv, rfl⟩) hfuel

theorem Exact.vec (h : Exact encode Fits decode) (hne : ∀ v, encode v ≠ [])
    (hfits : ∀ v, (encode v).length ≤ maxRlpBytes → Fits v) :
    Exact (fun vs : List α => encodeList (vs.flatMap encode))
      (fun vs => (vs.flatMap encode).length ≤ maxRlpBytes) (decodeVec decode) := by
  intro data vs rest
  rw [decodeVec_eq_ok]
  constructor
  · rintro ⟨payload, hlen, rfl, hitems⟩
    obtain ⟨-, rfl⟩ := (h.decodeItems_eq_ok hne le_rfl).1 hitems
    exact ⟨hlen, rfl⟩
  rintro ⟨hlen, rfl⟩
  refine ⟨_, hlen, rfl, (h.decodeItems_eq_ok hne le_rfl).2 ⟨fun v hv => hfits v ?_, rfl⟩⟩
  refine le_trans ?_ hlen
  rw [length_flatMap]
  exact le_sum_of_mem (mem_map_of_mem hv)

end Combinators

theorem exact_fin {m width : Nat} [NeZero m] (hm : m = 256 ^ width) (hwidth : width ≤ maxRlpBytes) :
    Exact (fun n : Fin m => encodeUint n) (fun _ => True) (fun data => do
      let (value, rest) ← decodeUint width data
      .ok (Fin.ofNat m value, rest)) :=
  (exact_uint hwidth).map (fun n => iff_of_true (hm ▸ n.isLt) trivial)
    (fun _ h => Nat.mod_eq_of_lt (hm ▸ h)) Fin.ofNat_val_eq_self

theorem exact_int (i : IntTy) : Exact (Ty.int i).encode (fun _ => True) (decodeInt i) :=
  exact_fin rfl (by cases i <;> norm_num [IntTy.width, maxRlpBytes])

theorem exact_u8 : Exact Ty.u8.encode (fun _ => True) decodeU8Strict :=
  (exact_uint (by norm_num [maxRlpBytes])).map (fun v => iff_of_true v.toNat_lt trivial)
    (fun _ h => UInt8.toNat_ofNat_of_lt' h) fun _ => UInt8.ofNat_toNat

theorem length_le_encodeBytes (data : Bytes) : data.length ≤ (encodeBytes data).length := by
  by_cases h : data.length = 1
  · obtain ⟨b, rfl⟩ := length_eq_one_iff.1 h
    rw [length_encodeBytes_one]
    split <;> simp
  · rw [length_encodeBytes h]
    omega

theorem encodeBytes_ne_nil (data : Bytes) : encodeBytes data ≠ [] := by
  intro h
  have hpos : 0 < (encodeBytes data).length := by
    by_cases hone : data.length = 1
    · have := length_le_encodeBytes data
      omega
    · have := headerLength_pos data.length
      rw [length_encodeBytes hone]
      omega
  rw [h] at hpos
  exact absurd hpos (by simp)

theorem encodeList_ne_nil (fields : Bytes) : encodeList fields ≠ [] := by
  intro h
  have := congrArg List.length h
  rw [length_encodeList] at this
  have := headerLength_pos fields.length
  simp at *
  omega

namespace Ty

theorem encode_ne_nil (t : Ty) (v : t.Val) : t.encode v ≠ [] := by
  cases t with
  | bool => cases v <;> simp [encode]
  | u8 | int | array | bytes => exact encodeBytes_ne_nil _
  | vec t =>
    rw [encode_vec]
    exact encodeList_ne_nil _
  | pair | triple | quad => exact encodeList_ne_nil _

def Fits : (t : Ty) → t.Val → Prop
  | array n, _ => n ≤ maxRlpBytes
  | bytes, v => v.length ≤ maxRlpBytes
  | vec t, v => (v.flatMap t.encode).length ≤ maxRlpBytes
  | pair a b, v => (a.encode v.1 ++ b.encode v.2).length ≤ maxRlpBytes
  | triple a b c, v => (a.encode v.1 ++ (b.encode v.2.1 ++ c.encode v.2.2)).length ≤ maxRlpBytes
  | quad a b c d, v =>
    (a.encode v.1 ++ (b.encode v.2.1 ++ (c.encode v.2.2.1 ++ d.encode v.2.2.2))).length ≤
      maxRlpBytes
  | _, _ => True

theorem fits_of_length {t : Ty} {v : t.Val} (h : (t.encode v).length ≤ maxRlpBytes) :
    t.Fits v := by
  have hlist (fields : Bytes) (hle : (encodeList fields).length ≤ maxRlpBytes) :
      fields.length ≤ maxRlpBytes := by
    rw [length_encodeList] at hle
    omega
  cases t with
  | bool | u8 | int => trivial
  | array n =>
    have hle := le_trans (length_le_encodeBytes v.val) h
    rwa [v.property] at hle
  | bytes => exact le_trans (length_le_encodeBytes v) h
  | vec t =>
    rw [encode_vec] at h
    exact hlist _ h
  | pair | triple | quad => exact hlist _ h

/-- Without the decoder of `u8` every type is decoded from its encodings only, and from all of
them that are within the limit. -/
theorem exact_decodeStrict (t : Ty) : Exact t.encode t.Fits t.decodeStrict := by
  induction t with
  | bool => exact exact_bool
  | u8 => exact exact_u8
  | int i => exact exact_int i
  | array n => exact exact_array n
  | bytes => exact fun data v rest => decodeBytes_eq_ok
  | vec t ih =>
    have h := ih.vec t.encode_ne_nil fun v hv => fits_of_length hv
    intro data v rest
    rw [encode_vec]
    exact h data v rest
  | pair a b iha ihb =>
    apply (iha.andThen ihb).tuple
    intro v hv
    rw [length_append] at hv
    exact ⟨fits_of_length (by omega), fits_of_length (by omega)⟩
  | triple a b c iha ihb ihc =>
    apply (iha.andThen (ihb.andThen ihc)).tuple
    intro v hv
    rw [length_append, length_append] at hv
    exact ⟨fits_of_length (by omega), fits_of_length (by omega), fits_of_length (by omega)⟩
  | quad a b c d iha ihb ihc ihd =>
    apply (iha.andThen (ihb.andThen (ihc.andThen ihd))).tuple
    intro v hv
    rw [length_append, length_append, length_append] at hv
    exact ⟨fits_of_length (by omega), fits_of_length (by omega), fits_of_length (by omega),
      fits_of_length (by omega)⟩

end Ty

/-! ### The decoder of `u8` -/

namespace Ty

theorem decodeWith_of_not_mentionsU8 (decode decode' : DecodeUnfinished UInt8) {t : Ty}
    (h : t.mentionsU8 = false) : t.decodeWith decode = t.decodeWith decode' := by
  induction t with
  | bool | int | array | bytes => rfl
  | u8 => cases h
  | vec t ih => rw [decodeWith, decodeWith, ih h]
  | pair a b iha ihb =>
    simp only [mentionsU8, Bool.or_eq_false_iff] at h
    rw [decodeWith, decodeWith, iha h.1, ihb h.2]
  | triple a b c iha ihb ihc =>
    simp only [mentionsU8, Bool.or_eq_false_iff] at h
    rw [decodeWith, decodeWith, iha h.1.1, ihb h.1.2, ihc h.2]
  | quad a b c d iha ihb ihc ihd =>
    simp only [mentionsU8, Bool.or_eq_false_iff] at h
    rw [decodeWith, decodeWith, iha h.1.1.1, ihb h.1.1.2, ihc h.1.2, ihd h.2]

theorem fits_of_decodeUnfinished {t : Ty} {data rest : Bytes} {v : t.Val}
    (h : t.decodeUnfinished data = .ok (v, rest)) (hdata : data = t.encode v ++ rest) :
    t.Fits v := by
  have hlist {fields payload : Bytes} (hlen : payload.length ≤ maxRlpBytes)
      (heq : encodeList payload ++ rest = encodeList fields ++ rest) :
      fields.length ≤ maxRlpBytes := by
    rwa [← encodeList_injective (append_cancel_right heq)]
  cases t with
  | bool | u8 | int => trivial
  | array n => exact ((exact_array n _ _ _).1 h).1
  | bytes => exact (decodeBytes_eq_ok.1 h).1
  | vec t =>
    obtain ⟨payload, hlen, rfl, -⟩ := decodeVec_eq_ok.1 h
    rw [encode_vec] at hdata
    exact hlist hlen hdata
  | pair | triple | quad =>
    obtain ⟨payload, hlen, rfl, -⟩ := decodeTuple_eq_ok.1 h
    exact hlist hlen hdata

end Ty

/-- The bytes start with a `u8` that is not written as its encoding: a raw zero byte, or the header
of one byte before a byte that needs none. -/
def looseU8 : Bytes → Bool
  | [] => false
  | first :: rest => first = 0 ∨ (first = 0x81 ∧ ∃ second ∈ rest.head?, second < 0x80)

/-- What follows the first item. -/
def skipItem (data : Bytes) : Bytes :=
  match getItemWithPrefix data with
  | .ok (_, rest) => rest
  | .error _ => []

def listPayload (data : Bytes) : Bytes :=
  match decodeRlpItem data with
  | .ok (_, payload, _) => payload
  | .error _ => []

/-- The bytes from each item of a payload on. -/
def itemStarts : Nat → Bytes → List Bytes
  | _, [] => []
  | 0, _ :: _ => []
  | fuel + 1, b :: bs => (b :: bs) :: itemStarts fuel (skipItem (b :: bs))

/-- The bytes from each `u8` of the type on. -/
def Ty.u8Starts : Ty → Bytes → List Bytes
  | u8, data => [data]
  | vec t, data =>
    (itemStarts (listPayload data).length (listPayload data)).flatMap t.u8Starts
  | pair a b, data =>
    a.u8Starts (listPayload data) ++ b.u8Starts (skipItem (listPayload data))
  | triple a b c, data =>
    a.u8Starts (listPayload data) ++ (b.u8Starts (skipItem (listPayload data)) ++
      c.u8Starts (skipItem^[2] (listPayload data)))
  | quad a b c d, data =>
    a.u8Starts (listPayload data) ++ (b.u8Starts (skipItem (listPayload data)) ++
      (c.u8Starts (skipItem^[2] (listPayload data)) ++
        d.u8Starts (skipItem^[3] (listPayload data))))
  | _, _ => []

theorem skipItem_encodeBytes {payload : Bytes} (h : payload.length ≤ maxRlpBytes) (rest : Bytes) :
    skipItem (encodeBytes payload ++ rest) = rest := by
  rw [skipItem, getItemWithPrefix_encodeBytes rest h]

theorem skipItem_encodeList {payload : Bytes} (h : payload.length ≤ maxRlpBytes) (rest : Bytes) :
    skipItem (encodeList payload ++ rest) = rest := by
  rw [skipItem, getItemWithPrefix_encodeList rest h]

theorem listPayload_encodeList {payload : Bytes} (h : payload.length ≤ maxRlpBytes)
    (rest : Bytes) : listPayload (encodeList payload ++ rest) = payload := by
  rw [listPayload, decodeRlpItem_encodeList rest h]

/-- The decoder takes `n` items. Of what it accepts, the strict one accepts the byte strings without
a loose `u8` among the given ones, and no other. -/
structure Tightens {α : Type} (n : Nat) (starts : Bytes → List Bytes)
    (decode strict : DecodeUnfinished α) : Prop where
  skip : ∀ {data v rest}, decode data = .ok (v, rest) → skipItem^[n] data = rest
  tight : ∀ {data r}, decode data = .ok r → (∀ start ∈ starts data, looseU8 start = false) →
    strict data = .ok r
  loose : ∀ {data r}, decode data = .ok r → ∀ start ∈ starts data, looseU8 start = true →
    ∀ r', strict data ≠ .ok r'

section Combinators

variable {α β : Type} {n m : Nat} {starts starts' : Bytes → List Bytes}
  {decode strict : DecodeUnfinished α} {decode' strict' : DecodeUnfinished β}

theorem Tightens.ok_iff (h : Tightens n starts decode strict) {data : Bytes} {r : α × Bytes}
    (hd : decode data = .ok r) :
    strict data = .ok r ↔ ∀ start ∈ starts data, looseU8 start = false := by
  constructor
  · intro hstrict start hstart
    by_contra hloose
    exact h.loose hd start hstart (by simpa using hloose) r hstrict
  · exact h.tight hd

/-- A decoder without `u8`. -/
theorem Tightens.refl (h : ∀ {data v rest}, decode data = .ok (v, rest) → skipItem data = rest) :
    Tightens 1 (fun _ => []) decode decode where
  skip := h
  tight h _ := h
  loose _ _ h := by cases h

theorem Tightens.andThen (h : Tightens n starts decode strict)
    (h' : Tightens m starts' decode' strict') :
    Tightens (m + n) (fun data => starts data ++ starts' (skipItem^[n] data))
      (Rlp.andThen decode decode') (Rlp.andThen strict strict') where
  skip {data v rest} hd := by
    obtain ⟨⟨a, middle⟩, hfirst, hd⟩ := bind_eq_ok.1 hd
    obtain ⟨⟨b, rest'⟩, hsecond, hd⟩ := bind_eq_ok.1 hd
    cases hd
    rw [Function.iterate_add_apply, h.skip hfirst, h'.skip hsecond]
  tight {data r} hd htight := by
    obtain ⟨⟨a, middle⟩, hfirst, hd⟩ := bind_eq_ok.1 hd
    obtain ⟨⟨b, rest⟩, hsecond, hd⟩ := bind_eq_ok.1 hd
    rw [h.skip hfirst, forall_mem_append] at htight
    exact bind_eq_ok.2 ⟨_, h.tight hfirst htight.1, bind_eq_ok.2 ⟨_, h'.tight hsecond htight.2, hd⟩⟩
  loose {data r} hd start hstart hloose r' hstrict := by
    obtain ⟨⟨a, middle⟩, hfirst, hd⟩ := bind_eq_ok.1 hd
    obtain ⟨⟨b, rest⟩, hsecond, hd⟩ := bind_eq_ok.1 hd
    obtain ⟨first, hstrict₁, hstrict⟩ := bind_eq_ok.1 hstrict
    obtain ⟨second, hstrict₂, -⟩ := bind_eq_ok.1 hstrict
    rw [h.skip hfirst] at hstart
    rcases mem_append.1 hstart with hstart | hstart
    · exact h.loose hfirst start hstart hloose _ hstrict₁
    · -- the strict decoder accepts the first part, so it leaves what the other one leaves
      have hnone : ∀ start ∈ starts data, looseU8 start = false := fun other hother =>
        Bool.eq_false_iff.2 fun hloose => h.loose hfirst other hother hloose _ hstrict₁
      rw [h.tight hfirst hnone] at hstrict₁
      cases hstrict₁
      exact h'.loose hsecond start hstart hloose _ hstrict₂

theorem Tightens.tuple (h : Tightens n starts decode strict) :
    Tightens 1 (fun data => starts (listPayload data)) (decodeTuple decode) (decodeTuple strict) where
  skip {data v rest} hd := by
    obtain ⟨payload, hlen, rfl, -⟩ := decodeTuple_eq_ok.1 hd
    exact skipItem_encodeList hlen rest
  tight {data r} hd htight := by
    obtain ⟨payload, hlen, rfl, helements⟩ := decodeTuple_eq_ok.1 hd
    rw [listPayload_encodeList hlen] at htight
    exact decodeTuple_eq_ok.2 ⟨payload, hlen, rfl, h.tight helements htight⟩
  loose {data r} hd start hstart hloose r' hstrict := by
    obtain ⟨payload, hlen, rfl, helements⟩ := decodeTuple_eq_ok.1 hd
    obtain ⟨payload', hlen', heq, hstrict⟩ := decodeTuple_eq_ok.1 hstrict
    obtain rfl : payload = payload' := by
      rw [← listPayload_encodeList hlen, heq, listPayload_encodeList hlen']
    rw [listPayload_encodeList hlen] at hstart
    exact h.loose helements start hstart hloose _ hstrict

theorem Tightens.items (h : Tightens 1 starts decode strict) {fuel : Nat} {slice : Bytes}
    {vs : List α} (hd : decodeItems decode fuel slice = .ok vs) :
    ((∀ start ∈ (itemStarts fuel slice).flatMap starts, looseU8 start = false) →
      decodeItems strict fuel slice = .ok vs) ∧
    ∀ start ∈ (itemStarts fuel slice).flatMap starts, looseU8 start = true →
      ∀ vs', decodeItems strict fuel slice ≠ .ok vs' := by
  -- on the rounds of the loop, which both decoders make at the same positions
  induction fuel generalizing slice vs with
  | zero =>
    cases slice with
    | nil => exact ⟨fun _ => hd, nofun⟩
    | cons b bs => cases hd
  | succ fuel ih =>
    cases slice with
    | nil => exact ⟨fun _ => hd, nofun⟩
    | cons b bs =>
      obtain ⟨⟨item, rest⟩, hitem, hd⟩ := bind_eq_ok.1 hd
      obtain ⟨items, hitems, hd⟩ := bind_eq_ok.1 hd
      obtain ⟨htight, hloose⟩ := ih hitems
      have hskip : skipItem (b :: bs) = rest := h.skip hitem
      rw [itemStarts, flatMap_cons, hskip]
      constructor
      · intro hall
        rw [forall_mem_append] at hall
        exact bind_eq_ok.2 ⟨_, h.tight hitem hall.1, bind_eq_ok.2 ⟨_, htight hall.2, hd⟩⟩
      · intro start hstart hstartLoose vs' hstrict
        obtain ⟨first, hfirst, hstrict⟩ := bind_eq_ok.1 hstrict
        obtain ⟨others, hothers, -⟩ := bind_eq_ok.1 hstrict
        rcases mem_append.1 hstart with hstart | hstart
        · exact h.loose hitem start hstart hstartLoose _ hfirst
        · have hnone : ∀ start ∈ starts (b :: bs), looseU8 start = false := fun other hother =>
            Bool.eq_false_iff.2 fun hl => h.loose hitem other hother hl _ hfirst
          rw [h.tight hitem hnone] at hfirst
          cases hfirst
          exact hloose start hstart hstartLoose _ hothers

theorem Tightens.vec (h : Tightens 1 starts decode strict) :
    Tightens 1 (fun data => (itemStarts (listPayload data).length (listPayload data)).flatMap starts)
      (decodeVec decode) (decodeVec strict) where
  skip {data v rest} hd := by
    obtain ⟨payload, hlen, rfl, -⟩ := decodeVec_eq_ok.1 hd
    exact skipItem_encodeList hlen rest
  tight {data r} hd htight := by
    obtain ⟨payload, hlen, rfl, hitems⟩ := decodeVec_eq_ok.1 hd
    rw [listPayload_encodeList hlen] at htight
    exact decodeVec_eq_ok.2 ⟨payload, hlen, rfl, (h.items hitems).1 htight⟩
  loose {data r} hd start hstart hloose r' hstrict := by
    obtain ⟨payload, hlen, rfl, hitems⟩ := decodeVec_eq_ok.1 hd
    obtain ⟨payload', hlen', heq, hstrict⟩ := decodeVec_eq_ok.1 hstrict
    obtain rfl : payload = payload' := by
      rw [← listPayload_encodeList hlen, heq, listPayload_encodeList hlen']
    rw [listPayload_encodeList hlen] at hstart
    exact (h.items hitems).2 start hstart hloose _ hstrict

end Combinators

theorem encodeUint_byte (v : UInt8) : encodeUint v.toNat =
    if v = 0 then [0x80] else if v < 0x80 then [v] else [0x81, v] := by
  by_cases h0 : v = 0
  · subst h0
    simp [encodeUint, toBeBytes, encodeBytes, encodeHeader, rlpNull]
  have hval : fromBeBytes [v] = v.toNat := by simp [fromBeBytes]
  rw [encodeUint, ← hval, toBeBytes_fromBeBytes h0, if_neg h0, encodeBytes]
  rfl

theorem decodeU8_eq_ok {data rest : Bytes} {v : UInt8} (h : decodeU8 data = .ok (v, rest)) :
    (v < 0x80 ∧ data = v :: rest) ∨ (v = 0 ∧ data = 0x80 :: rest) ∨ data = 0x81 :: v :: rest := by
  match data, h with
  | first :: tail, h =>
    rw [decodeU8.eq_def] at h
    simp only at h
    split at h
    · rename_i hfirst
      cases h
      exact .inl ⟨UInt8.lt_iff_toNat_lt.2 (Nat.lt_succ_of_le hfirst), rfl⟩
    split at h
    · rename_i hfirst
      cases h
      exact .inr (.inl ⟨rfl, by rw [hfirst]; rfl⟩)
    split at h
    · split at h
      · rename_i hfirst
        cases h
        exact .inr (.inr (by rw [hfirst]; rfl))
      · cases h
    · cases h

theorem tightens_u8 : Tightens 1 (fun data => [data]) decodeU8 decodeU8Strict where
  skip {data v rest} h := by
    rcases decodeU8_eq_ok h with ⟨hv, rfl⟩ | ⟨-, rfl⟩ | rfl
    · have hle : v.toNat ≤ 0x7f := Nat.le_of_lt_succ (UInt8.lt_iff_toNat_lt.1 hv)
      simp [skipItem, getItemWithPrefix, hle]
    · simp [skipItem, getItemWithPrefix, getItemWithPrefix.shortItem, maxRlpBytes]
    · simp [skipItem, getItemWithPrefix, getItemWithPrefix.shortItem, maxRlpBytes]
  tight {data r} h htight := by
    obtain ⟨v, rest⟩ := r
    refine (exact_u8 _ _ _).2 ⟨trivial, ?_⟩
    have hstart := htight data (by simp)
    show data = encodeUint v.toNat ++ rest
    rw [encodeUint_byte]
    rcases decodeU8_eq_ok h with ⟨hv, rfl⟩ | ⟨rfl, rfl⟩ | rfl
    · have hne : v ≠ 0 := by
        rintro rfl
        simp [looseU8] at hstart
      simp [hne, hv]
    · rfl
    · have hv : ¬ v < 0x80 := fun hlt => by simp [looseU8, hlt] at hstart
      have hne : v ≠ 0 := by
        rintro rfl
        exact hv (by decide)
      simp [hne, hv]
  loose {data r} h start hstart hloose r' hstrict := by
    obtain ⟨w, rest⟩ := r'
    obtain rfl := mem_singleton.1 hstart
    have hdata : start = encodeUint w.toNat ++ rest := ((exact_u8 _ _ _).1 hstrict).2
    rw [encodeUint_byte] at hdata
    rw [hdata] at hloose
    split at hloose
    · simp [looseU8] at hloose
    rename_i hne
    split at hloose
    · rename_i hlt
      have hw : w ≠ 0x81 := by
        rintro rfl
        exact absurd hlt (by decide)
      simp [looseU8, hne, hw] at hloose
    · rename_i hge
      simp [looseU8, hge] at hloose

namespace Ty

theorem tightens (t : Ty) : Tightens 1 t.u8Starts t.decodeUnfinished t.decodeStrict := by
  induction t with
  | bool =>
    refine .refl fun {data v rest} h => ?_
    obtain ⟨-, rfl⟩ := (exact_bool _ _ _).1 h
    cases v
    · exact @skipItem_encodeBytes [] (Nat.zero_le _) rest
    · exact @skipItem_encodeBytes [1] (by simp [maxRlpBytes]) rest
  | u8 => exact tightens_u8
  | int i =>
    refine .refl fun {data v rest} h => ?_
    obtain ⟨-, rfl⟩ := (exact_int i _ _ _).1 h
    refine skipItem_encodeBytes (le_trans (toBeBytes_length_le.2 (i.val_lt v)) ?_) rest
    norm_num [maxRlpBytes]
  | array n =>
    refine .refl fun {data v rest} h => ?_
    obtain ⟨hfits, rfl⟩ := (exact_array n _ _ _).1 h
    exact skipItem_encodeBytes (by rw [v.property]; exact hfits) rest
  | bytes =>
    refine .refl fun {data v rest} h => ?_
    obtain ⟨hfits, rfl⟩ := decodeBytes_eq_ok.1 h
    exact skipItem_encodeBytes hfits rest
  | vec t ih => exact ih.vec
  | pair a b iha ihb => exact (iha.andThen ihb).tuple
  | triple a b c iha ihb ihc => exact (iha.andThen (ihb.andThen ihc)).tuple
  | quad a b c d iha ihb ihc ihd => exact (iha.andThen (ihb.andThen (ihc.andThen ihd))).tuple

/-- An accepted byte string starts with the encoding of its value exactly when none of its `u8` is a
raw zero byte or a byte below `0x80` behind a header; without `u8` that is always so, and no other
byte string decodes to the value. -/
theorem decodeUnfinished_canonical_iff (t : Ty) :
    (∀ (data : Bytes) (v : t.Val) (rest : Bytes), t.decodeUnfinished data = .ok (v, rest) →
      (data = t.encode v ++ rest ↔ ∀ start ∈ t.u8Starts data, looseU8 start = false)) ∧
    (t.mentionsU8 = false → ∀ (data data' : Bytes) (v : t.Val) (rest : Bytes),
      t.decodeUnfinished data = .ok (v, rest) → t.decodeUnfinished data' = .ok (v, rest) →
      data = t.encode v ++ rest ∧ data' = data) := by
  constructor
  · intro data v rest h
    rw [← t.tightens.ok_iff h, t.exact_decodeStrict data v rest]
    exact ⟨fun hdata => ⟨fits_of_decodeUnfinished h hdata, hdata⟩, fun hstrict => hstrict.2⟩
  · intro hfree data data' v rest h h'
    have hsame : t.decodeUnfinished = t.decodeStrict := decodeWith_of_not_mentionsU8 _ _ hfree
    rw [hsame] at h h'
    have hdata := ((t.exact_decodeStrict _ _ _).1 h).2
    have hdata' := ((t.exact_decodeStrict _ _ _).1 h').2
    exact ⟨hdata, hdata'.trans hdata.symm⟩

theorem decodeUnfinished_canonical_pair :
    (pair (vec u8) (int .u64)).decodeUnfinished [0xc6, 0xc4, 0x05, 0x81, 0x90, 0x80, 0x07] =
      .ok (([0x05, 0x90, 0x00], 7), []) ∧
    (pair (vec u8) (int .u64)).u8Starts [0xc6, 0xc4, 0x05, 0x81, 0x90, 0x80, 0x07] =
      [[0x05, 0x81, 0x90, 0x80], [0x81, 0x90, 0x80], [0x80]] ∧
    [0xc6, 0xc4, 0x05, 0x81, 0x90, 0x80, 0x07] =
      (pair (vec u8) (int .u64)).encode ([0x05, 0x90, 0x00], 7) ++ [] := by
  have h : (pair (vec u8) (int .u64)).decodeUnfinished [0xc6, 0xc4, 0x05, 0x81, 0x90, 0x80, 0x07] =
      .ok (([0x05, 0x90, 0x00], 7), []) := by decide +kernel
  have hstarts : (pair (vec u8) (int .u64)).u8Starts [0xc6, 0xc4, 0x05, 0x81, 0x90, 0x80, 0x07] =
      [[0x05, 0x81, 0x90, 0x80], [0x81, 0x90, 0x80], [0x80]] := by decide +kernel
  refine ⟨h, hstarts, ((decodeUnfinished_canonical_iff _).1 _ _ _ h).2 ?_⟩
  rw [hstarts]
  decide

/-- A raw zero byte and a small byte behind a header decode as `u8`, alone and in a vector. -/
theorem decodeUnfinished_u8_malleable :
    u8.decodeUnfinished [0x00] = .ok (0, []) ∧ u8.encode 0 = [0x80] ∧
    u8.decodeUnfinished [0x81, 0x05] = .ok (5, []) ∧ u8.decodeUnfinished [0x05] = .ok (5, []) ∧
    (vec u8).decodeUnfinished [0xc2, 0x81, 0x05] = .ok ([5], []) ∧
    (vec u8).decodeUnfinished [0xc1, 0x05] = .ok ([5], []) := by
  refine ⟨rfl, ?_, rfl, rfl, by decide +kernel, by decide +kernel⟩
  simp [encode, encodeUint, toBeBytes, encodeBytes, encodeHeader, rlpNull]

end Ty

end Ethrex.Rlp
