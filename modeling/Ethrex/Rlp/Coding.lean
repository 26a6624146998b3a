import Ethrex.Rlp.Canonical

/-!
# Lengths and round trips

The implementations of one type as a record, and the types built from the base types by vectors and
tuples. A vector writes its header from the lengths of its items, which are computed apart from the
bytes.
-/

namespace Ethrex.Rlp

open List

/-- `RLPEncode` and, where there is one, `RLPDecode` of a type. -/
structure Coding (α : Type) where
  encode : α → Bytes
  length : α → Nat
  decode : Option (DecodeUnfinished α)
  /-- Every payload in the encoding is within the limit of the decoder. -/
  Fits : α → Prop

/-- `<String as RLPDecode>::decode_unfinished`. -/
def decodeString : DecodeUnfinished String := fun data => do
  let (bytes, rest) ← decodeBytes data
  match String.fromUTF8? ⟨bytes.toArray⟩ with
  | some value => .ok (value, rest)
  | none => .error .malformedData

namespace Coding

variable {α β γ δ ε : Type}

/-- The implementations of a type without components. -/
def base (t : Ty) : Coding t.Val := ⟨t.encode, t.length, some t.decodeUnfinished, t.Fits⟩

def string : Coding String where
  encode s := encodeBytes s.toUTF8.data.toList
  length s := sliceLength s.toUTF8.data.toList
  decode := some decodeString
  Fits s := s.toUTF8.data.toList.length ≤ maxRlpBytes

def vec (item : Coding α) : Coding (List α) where
  encode vs :=
    if vs.isEmpty then [0xc0]
    else encodeLength (vs.map item.length).sum ++ vs.flatMap item.encode
  length vs := if vs.isEmpty then 1 else listLength (vs.map item.length).sum
  decode := item.decode.map decodeVec
  Fits vs := (vs.flatMap item.encode).length ≤ maxRlpBytes ∧ ∀ v ∈ vs, item.Fits v

/-- Elements of a tuple that follow one another. -/
def andThen (a : Coding α) (b : Coding β) : Coding (α × β) where
  encode v := a.encode v.1 ++ b.encode v.2
  length v := a.length v.1 + b.length v.2
  decode := a.decode.bind fun first => b.decode.map (Rlp.andThen first)
  Fits v := a.Fits v.1 ∧ b.Fits v.2

def tuple (elements : Coding α) : Coding α where
  encode v := encodeList (elements.encode v)
  length v := listLength (elements.length v)
  decode := elements.decode.map decodeTuple
  Fits v := (elements.encode v).length ≤ maxRlpBytes ∧ elements.Fits v

def pair (a : Coding α) (b : Coding β) : Coding (α × β) := (a.andThen b).tuple

def triple (a : Coding α) (b : Coding β) (c : Coding γ) : Coding (α × β × γ) :=
  (a.andThen (b.andThen c)).tuple

def quad (a : Coding α) (b : Coding β) (c : Coding γ) (d : Coding δ) : Coding (α × β × γ × δ) :=
  (a.andThen (b.andThen (c.andThen d))).tuple

/-- Five elements have an encoder only. -/
def quint (a : Coding α) (b : Coding β) (c : Coding γ) (d : Coding δ) (e : Coding ε) :
    Coding (α × β × γ × δ × ε) :=
  { (a.andThen (b.andThen (c.andThen (d.andThen e)))).tuple with decode := none }

end Coding

/-- The types built from the base types, and their implementations. -/
inductive Built : {α : Type} → Coding α → Prop
  | bool : Built (.base .bool)
  | u8 : Built (.base .u8)
  | int (i : IntTy) : Built (.base (.int i))
  | array (n : Nat) : Built (.base (.array n))
  | bytes : Built (.base .bytes)
  | string : Built .string
  | vec {α : Type} {a : Coding α} : Built a → Built a.vec
  | pair {α β : Type} {a : Coding α} {b : Coding β} : Built a → Built b → Built (.pair a b)
  | triple {α β γ : Type} {a : Coding α} {b : Coding β} {c : Coding γ} :
    Built a → Built b → Built c → Built (.triple a b c)
  | quad {α β γ δ : Type} {a : Coding α} {b : Coding β} {c : Coding γ} {d : Coding δ} :
    Built a → Built b → Built c → Built d → Built (.quad a b c d)
  | quint {α β γ δ ε : Type} {a : Coding α} {b : Coding β} {c : Coding γ} {d : Coding δ}
      {e : Coding ε} :
    Built a → Built b → Built c → Built d → Built e → Built (.quint a b c d e)

/-- What the implementations of a type owe to the types built over it. -/
structure Coding.Sound {α : Type} (c : Coding α) : Prop where
  length_eq : ∀ v, c.length v = (c.encode v).length
  ne_nil : ∀ v, c.encode v ≠ []
  roundTrip : ∀ decode, c.decode = some decode → ∀ v, c.Fits v → ∀ rest,
    decode (c.encode v ++ rest) = .ok (v, rest)

namespace Coding

variable {α β : Type} {a : Coding α} {b : Coding β}

theorem sound_base {t : Ty} (h : ∀ v, t.Fits v → ∀ rest,
    t.decodeUnfinished (t.encode v ++ rest) = .ok (v, rest)) : (base t).Sound where
  length_eq := t.length_eq
  ne_nil := t.encode_ne_nil
  roundTrip decode hdecode := by
    cases hdecode
    exact h

theorem sound_of_exact {t : Ty} (h : t.mentionsU8 = false) : (base t).Sound := by
  refine sound_base fun v hv rest => ?_
  rw [Ty.decodeUnfinished, Ty.decodeWith_of_not_mentionsU8 _ decodeU8Strict h]
  exact (t.exact_decodeStrict _ _ _).2 ⟨hv, rfl⟩

theorem decodeU8_encodeUint (v : UInt8) (rest : Bytes) :
    decodeU8 (encodeUint v.toNat ++ rest) = .ok (v, rest) := by
  by_cases h0 : v = 0
  · subst h0
    simp [encodeUint, toBeBytes, encodeBytes, encodeHeader, decodeU8, rlpNull]
  have hval : fromBeBytes [v] = v.toNat := by simp [fromBeBytes]
  rw [encodeUint, ← hval, toBeBytes_fromBeBytes h0]
  rcases encodeBytes_cases [v] with ⟨b, hb, hlt, he⟩ | ⟨-, he⟩
  · obtain rfl : v = b := by simpa using hb
    have hle : v.toNat ≤ 0x7f := by omega
    simp [he, decodeU8, hle]
  · simp [he, encodeHeader, decodeU8, rlpNull]

theorem sound_string : string.Sound where
  length_eq s := sliceLength_eq _
  ne_nil s := encodeBytes_ne_nil _
  roundTrip decode hdecode s hfits rest := by
    cases hdecode
    have hread : String.fromUTF8? ⟨s.toUTF8.data.toList.toArray⟩ = some s := by
      simpa [String.fromUTF8?] using ⟨s.isValidUTF8, rfl⟩
    simp only [string, decodeString, decodeBytes_encodeBytes rest hfits, hread, bind, Except.bind]

theorem encode_vec (h : a.Sound) (vs : List α) :
    a.vec.encode vs = encodeList (vs.flatMap a.encode) := by
  simp only [vec, encodeList, sum_map_length h.length_eq]
  cases vs <;> rfl

theorem Sound.vec (h : a.Sound) : a.vec.Sound where
  length_eq vs := by
    rw [encode_vec h, length_encodeList, ← listLength_eq, ← sum_map_length h.length_eq]
    cases vs <;> rfl
  ne_nil vs := by
    rw [encode_vec h]
    exact encodeList_ne_nil _
  roundTrip decode hdecode vs hfits rest := by
    obtain ⟨item, hitem, rfl⟩ := Option.map_eq_some_iff.1 hdecode
    rw [encode_vec h]
    exact decodeVec_eq_ok.2 ⟨_, hfits.1, rfl, decodeItems_flatMap h.ne_nil
      (fun v hv => h.roundTrip item hitem v (hfits.2 v hv)) le_rfl⟩

theorem Sound.andThen (ha : a.Sound) (hb : b.Sound) : (a.andThen b).Sound where
  length_eq v := by
    simp only [Coding.andThen, length_append, ha.length_eq, hb.length_eq]
  ne_nil v h := ha.ne_nil v.1 (append_eq_nil_iff.1 h).1
  roundTrip decode hdecode v hfits rest := by
    obtain ⟨first, hfirst, hdecode⟩ := Option.bind_eq_some_iff.1 hdecode
    obtain ⟨second, hsecond, rfl⟩ := Option.map_eq_some_iff.1 hdecode
    have hf := ha.roundTrip first hfirst v.1 hfits.1
    have hs := hb.roundTrip second hsecond v.2 hfits.2
    simp [Coding.andThen, Rlp.andThen, hf, hs, bind, Except.bind]

theorem Sound.tuple (h : a.Sound) : a.tuple.Sound where
  length_eq v := by
    simp only [Coding.tuple, h.length_eq, listLength_eq, length_encodeList]
  ne_nil v := encodeList_ne_nil _
  roundTrip decode hdecode v hfits rest := by
    obtain ⟨elements, helements, rfl⟩ := Option.map_eq_some_iff.1 hdecode
    refine decodeTuple_eq_ok.2 ⟨_, hfits.1, rfl, ?_⟩
    simpa using h.roundTrip elements helements v hfits.2 []

theorem Sound.encodeOnly (h : a.Sound) : { a with decode := none }.Sound where
  length_eq := h.length_eq
  ne_nil := h.ne_nil
  roundTrip := nofun

end Coding

theorem Built.sound {α : Type} {c : Coding α} (h : Built c) : c.Sound := by
  induction h with
  | bool | int | array | bytes => exact Coding.sound_of_exact rfl
  | u8 => exact Coding.sound_base fun v _ => Coding.decodeU8_encodeUint v
  | string => exact Coding.sound_string
  | vec _ ih => exact ih.vec
  | pair _ _ ha hb => exact (ha.andThen hb).tuple
  | triple _ _ _ ha hb hc => exact (ha.andThen (hb.andThen hc)).tuple
  | quad _ _ _ _ ha hb hc hd => exact (ha.andThen (hb.andThen (hc.andThen hd))).tuple
  | quint _ _ _ _ _ ha hb hc hd he =>
    exact (ha.andThen (hb.andThen (hc.andThen (hd.andThen he)))).tuple.encodeOnly

/-- The computed length is the number of bytes written, so that the header of a vector is the one of
its items, and a decoder reads every value within the limit back. -/
theorem Built.length_and_roundTrip {α : Type} {c : Coding α} (h : Built c) :
    (∀ v, c.length v = (c.encode v).length) ∧
    (∀ vs, c.vec.encode vs = encodeList (vs.flatMap c.encode)) ∧
    (∀ decode, c.decode = some decode → ∀ v, c.Fits v → ∀ rest,
      decode (c.encode v ++ rest) = .ok (v, rest)) :=
  ⟨h.sound.length_eq, Coding.encode_vec h.sound, h.sound.roundTrip⟩

theorem Built.length_and_roundTrip_pairs :
    let c := (Coding.pair (.base .bool) .string).vec
    c.length [(true, "ab")] = (c.encode [(true, "ab")]).length ∧
    decodeVec (decodeTuple (andThen decodeBool decodeString)) (c.encode [(true, "ab")] ++ [0x05]) =
      .ok ([(true, "ab")], [0x05]) := by
  have h := (Built.vec (.pair .bool .string)).length_and_roundTrip
  exact ⟨h.1 _, h.2.2 _ rfl _ ⟨by decide +kernel, forall_mem_singleton.2
    ⟨by decide +kernel, trivial, Nat.le_of_ble_eq_true rfl⟩⟩ _⟩

end Ethrex.Rlp
