import Ethrex.Types

/-!
# RLP items

Byte strings and list headers on the encoding side, item splitting on the decoding side. Lengths
are natural numbers written without leading zeros, as the source computes from `to_be_bytes`.
-/

namespace Ethrex.Rlp

def rlpNull : UInt8 := 0x80

/-- `MAX_RLP_BYTES`: the largest payload the decoder accepts. -/
def maxRlpBytes : Nat := 1024 * 1024 * 1024

def rlpShortItemLimit : Nat := 56

/-- The errors of the decoder that the modelled functions return. -/
inductive RLPDecodeError where
  | invalidLength
  | malformedData
  | malformedBoolean
  | unexpectedList
  | unexpectedString
  | custom (msg : String)
  deriving DecidableEq, Repr

/-- The big-endian bytes of `n` from its first nonzero byte on. -/
def toBeBytes (n : Nat) : Bytes :=
  ((Nat.digits 256 n).map UInt8.ofNat).reverse

def fromBeBytes (bytes : Bytes) : Nat :=
  bytes.foldl (fun acc b => acc * 256 + b.toNat) 0

/-- The header of an item: the short form below 56 bytes, the long form otherwise.  Strings use
`0x80` and `0xb7` as the bases of the two forms, lists `0xc0` and `0xf7`. -/
def encodeHeader (shortBase longBase : UInt8) (len : Nat) : Bytes :=
  if len < 56 then
    [shortBase + UInt8.ofNat len]
  else
    let bytes := toBeBytes len
    (longBase + UInt8.ofNat bytes.length) :: bytes

/-- `encode_length`: the header of a list with a payload of `totalLen` bytes. -/
def encodeLength (totalLen : Nat) : Bytes :=
  encodeHeader 0xc0 0xf7 totalLen

def encodeBytes (data : Bytes) : Bytes :=
  match data with
  | [b] => if b < rlpNull then [b] else encodeHeader rlpNull 0xb7 1 ++ [b]
  | _ => encodeHeader rlpNull 0xb7 data.length ++ data

/-- `Encoder::finish` over the concatenated fields. -/
def encodeList (fields : Bytes) : Bytes :=
  encodeLength fields.length ++ fields

/-- `static_left_pad` for `width` bytes followed by `from_be_bytes`. -/
def leftPad (width : Nat) (data : Bytes) : Except RLPDecodeError Nat :=
  match data with
  | [] => .ok 0
  | b :: _ =>
    if b = 0 then .error .malformedData
    else if data.length > width then .error .invalidLength
    else .ok (fromBeBytes data)

/-- `decode_rlp_item`: whether the item is a list, its payload, and what follows it. -/
def decodeRlpItem (data : Bytes) : Except RLPDecodeError (Bool × Bytes × Bytes) :=
  match data with
  | [] => .error .invalidLength
  | b :: _ =>
    let firstByte := b.toNat
    if firstByte ≤ 0x7F then
      .ok (false, data.take 1, data.drop 1)
    else if firstByte ≤ 0xB7 then
      let length := firstByte - 0x80
      if length > maxRlpBytes ∨ data.length < length + 1 then .error .invalidLength
      else
        let payload := (data.drop 1).take length
        if length = 1 ∧ payload.headD 0 < 0x80 then .error .malformedData
        else .ok (false, payload, data.drop (length + 1))
    else if firstByte ≤ 0xBF then
      longItem false (firstByte - 0xB7)
    else if firstByte ≤ 0xF7 then
      let length := firstByte - 0xC0
      if length > maxRlpBytes ∨ data.length < length + 1 then .error .invalidLength
      else .ok (true, (data.drop 1).take length, data.drop (length + 1))
    else
      longItem true (firstByte - 0xF7)
where
  /-- The two arms for long strings and long lists, which differ in the flag only. -/
  longItem (isList : Bool) (lengthOfLength : Nat) :
      Except RLPDecodeError (Bool × Bytes × Bytes) :=
    if data.length < lengthOfLength + 1 then .error .invalidLength
    else do
      let length ← leftPad 8 ((data.drop 1).take lengthOfLength)
      if length < rlpShortItemLimit then .error .malformedData
      else if length > maxRlpBytes ∨ data.length < lengthOfLength + length + 1 then
        .error .invalidLength
      else
        .ok (isList, (data.drop (lengthOfLength + 1)).take length,
          data.drop (lengthOfLength + length + 1))

/-- `get_item_with_prefix`: the next item with its header, and what follows it.  Unlike
`decodeRlpItem` it does not reject items that are not written in their shortest form. -/
def getItemWithPrefix (data : Bytes) : Except RLPDecodeError (Bytes × Bytes) :=
  match data with
  | [] => .error .invalidLength
  | b :: _ =>
    let firstByte := b.toNat
    if firstByte ≤ 0x7F then .ok (data.take 1, data.drop 1)
    else if firstByte ≤ 0xB7 then shortItem (firstByte - 0x80)
    else if firstByte ≤ 0xBF then longItem (firstByte - 0xB7)
    else if firstByte ≤ 0xF7 then shortItem (firstByte - 0xC0)
    else longItem (firstByte - 0xF7)
where
  /-- The two arms for short strings and short lists. -/
  shortItem (length : Nat) : Except RLPDecodeError (Bytes × Bytes) :=
    if length > maxRlpBytes ∨ data.length < length + 1 then .error .invalidLength
    else .ok (data.take (length + 1), data.drop (length + 1))
  /-- The two arms for long strings and long lists. -/
  longItem (lengthOfLength : Nat) : Except RLPDecodeError (Bytes × Bytes) :=
    if data.length < lengthOfLength + 1 then .error .invalidLength
    else do
      let length ← leftPad 8 ((data.drop 1).take lengthOfLength)
      if length > maxRlpBytes ∨ data.length < lengthOfLength + length + 1 then
        .error .invalidLength
      else
        .ok (data.take (lengthOfLength + length + 1),
          data.drop (lengthOfLength + length + 1))

/-- `decode_bytes`: the payload of a string item, and what follows it. -/
def decodeBytes (data : Bytes) : Except RLPDecodeError (Bytes × Bytes) := do
  let (isList, payload, rest) ← decodeRlpItem data
  if isList then .error .unexpectedList else .ok (payload, rest)

/-- `Decoder`: the payload of a list that is still to be read, and what follows the list. -/
structure Decoder where
  payload : Bytes
  remaining : Bytes

def Decoder.new (buf : Bytes) : Except RLPDecodeError Decoder := do
  let (isList, payload, remaining) ← decodeRlpItem buf
  if isList then .ok ⟨payload, remaining⟩ else .error .unexpectedString

def Decoder.isDone (d : Decoder) : Bool :=
  d.payload.isEmpty

def Decoder.getEncodedItemRef (d : Decoder) : Except RLPDecodeError (Bytes × Decoder) := do
  let (field, rest) ← getItemWithPrefix d.payload
  .ok (field, { d with payload := rest })

def Decoder.finish (d : Decoder) : Except RLPDecodeError Bytes :=
  if d.payload.isEmpty then .ok d.remaining else .error .malformedData

end Ethrex.Rlp
