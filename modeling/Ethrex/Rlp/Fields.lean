import Ethrex.Rlp.RoundTrip

/-!
# Fields of a struct

The typed fields that `Encoder` writes and `Decoder` reads. An optional field that cannot be read as
its type is absent.
-/

namespace Ethrex.Rlp

/-! ### Integers and byte arrays -/

/-- `impl_encode`, and `<U256 as RLPEncode>::encode`. -/
def encodeUint (n : Nat) : Bytes := encodeBytes (toBeBytes n)

/-- `decode_unfinished` of an integer of `width` bytes. -/
def decodeUint (width : Nat) (data : Bytes) : Except RLPDecodeError (Nat × Bytes) := do
  let (bytes, rest) ← decodeBytes data
  let value ← leftPad width bytes
  .ok (value, rest)

/-- `<u64 as RLPDecode>::decode_unfinished`. -/
def decodeU64 (data : Bytes) : Except RLPDecodeError (U64 × Bytes) := do
  let (value, rest) ← decodeUint 8 data
  .ok (Fin.ofNat _ value, rest)

/-- `<U256 as RLPDecode>::decode_unfinished`. -/
def decodeU256 (data : Bytes) : Except RLPDecodeError (U256 × Bytes) := do
  let (value, rest) ← decodeUint 32 data
  .ok (Fin.ofNat _ value, rest)

/-- `<[u8; N] as RLPDecode>::decode_unfinished`. -/
def decodeFixed (n : Nat) (data : Bytes) : Except RLPDecodeError (FixedBytes n × Bytes) := do
  let (bytes, rest) ← decodeBytes data
  if h : bytes.length = n then .ok (⟨bytes, h⟩, rest) else .error .invalidLength

/-- `<H256 as RLPDecode>::decode_unfinished`. -/
def decodeH256 (data : Bytes) : Except RLPDecodeError (H256 × Bytes) := do
  let (bytes, rest) ← decodeFixed 32 data
  .ok (⟨bytes.val, bytes.property⟩, rest)

def encodeAddress (address : Address) : Bytes := encodeBytes (fixedBeBytes 20 address.val)

/-- `<Address as RLPDecode>::decode_unfinished`. -/
def decodeAddress (data : Bytes) : Except RLPDecodeError (Address × Bytes) := do
  let (bytes, rest) ← decodeFixed 20 data
  .ok (Fin.ofNat _ (fromBeBytes bytes.val), rest)

def RLPDecodeError.display : RLPDecodeError → String
  | .invalidLength => "InvalidLength"
  | .malformedData => "MalformedData"
  | .malformedBoolean => "MalformedBoolean"
  | .unexpectedList => "UnexpectedList"
  | .unexpectedString => "UnexpectedString"
  | .custom msg => msg

/-- `Decoder::decode_field` for a field with the given name and type. -/
def Decoder.decodeField {α : Type} (d : Decoder) (name type : String)
    (decode : Bytes → Except RLPDecodeError (α × Bytes)) : Except RLPDecodeError (α × Decoder) :=
  match decode d.payload with
  | .ok (field, rest) => .ok (field, { d with payload := rest })
  | .error err =>
    let shown := err.display
    .error (.custom s!"Error decoding field '{name}' of type {type}: {shown}")

def Decoder.decodeOptionalField {α : Type} (d : Decoder)
    (decode : Bytes → Except RLPDecodeError (α × Bytes)) : Option α × Decoder :=
  match decode d.payload with
  | .ok (field, rest) => (some field, { d with payload := rest })
  | .error _ => (none, d)

def encodeOptional {α : Type} (encode : α → Bytes) : Option α → Bytes
  | none => []
  | some a => encode a

/-- `RLPDecode::decode`: nothing may follow. -/
def decodeAll {α : Type} (decodeUnfinished : Bytes → Except RLPDecodeError (α × Bytes))
    (data : Bytes) : Except RLPDecodeError α := do
  let (decoded, remaining) ← decodeUnfinished data
  if remaining.isEmpty then .ok decoded else .error .invalidLength

variable {width n : Nat}

theorem decodeUint_encodeUint (h : n < 256 ^ width) (hwidth : width ≤ maxRlpBytes) (rest : Bytes) :
    decodeUint width (encodeUint n ++ rest) = .ok (n, rest) := by
  have hlen : (toBeBytes n).length ≤ maxRlpBytes := (toBeBytes_length_le.2 h).trans hwidth
  rw [decodeUint, encodeUint, decodeBytes_encodeBytes rest hlen]
  simp only [bind, Except.bind, leftPad_toBeBytes h]

end Ethrex.Rlp
