import Ethrex.Rlp.Codec

/-!
# Nibble paths

A key is a path of nibbles closed by the terminator 16. The consumed part of a path is kept next to
the rest: the database is addressed by it. Equality of the source looks at `data` only.
-/

namespace Ethrex.Mpt

structure Nibbles where
  data : List UInt8
  alreadyConsumed : List UInt8 := []
  deriving DecidableEq, Repr

/-- The source's kernel `expand_bytes_to_nibbles`: high nibble first. -/
def expandBytesToNibbles (bytes : Bytes) : List UInt8 :=
  bytes.flatMap fun (b : UInt8) => [b >>> 4, b &&& 0x0F]

/-- The source's kernel `pack_nibble_pairs`; a last unpaired nibble is not packed. -/
def packNibblePairs : List UInt8 → Bytes
  | hi :: lo :: nibbles => ((hi <<< 4) ||| lo) :: packNibblePairs nibbles
  | _ => []

def countCommonPrefix : List UInt8 → List UInt8 → Nat
  | x :: a, y :: b => if x = y then countCommonPrefix a b + 1 else 0
  | _, _ => 0

namespace Nibbles

def empty : Nibbles := { data := [] }

def fromHex (hex : List UInt8) : Nibbles := { data := hex }

def fromRaw (bytes : Bytes) (isLeaf : Bool) : Nibbles :=
  { data := expandBytesToNibbles bytes ++ if isLeaf then [16] else [] }

def fromBytes (bytes : Bytes) : Nibbles := fromRaw bytes true

variable (n : Nibbles)

def len : Nat := n.data.length

def isEmpty (n : Nibbles) : Bool := n.data.isEmpty

/-- `Nibbles::skip_prefix`: the path behind `p`, when `p` is at its start. -/
def skipPrefix (n p : Nibbles) : Option Nibbles :=
  if n.len ≥ p.len ∧ n.data.take p.len = p.data then
    some { data := n.data.drop p.len, alreadyConsumed := n.alreadyConsumed ++ p.data }
  else none

/-- `Nibbles::compare_prefix`: lexicographic comparison of the common length. -/
def comparePrefix (n p : Nibbles) : Ordering :=
  if n.len > p.len then
    compare (n.data.take p.len) p.data
  else
    compare n.data (p.data.take n.len)

def countPrefix (n other : Nibbles) : Nat :=
  countCommonPrefix n.data other.data

def next : Option UInt8 × Nibbles :=
  match n.data with
  | [] => (none, n)
  | x :: data => (some x, { data := data, alreadyConsumed := n.alreadyConsumed ++ [x] })

/-- `Nibbles::next_choice`: the nibble is consumed even when it is no choice index. -/
def nextChoice : Option (Fin 16) × Nibbles :=
  match n.next with
  | (some x, n) => (if h : x.toNat < 16 then some ⟨x.toNat, h⟩ else none, n)
  | (none, n) => (none, n)

def offset (k : Nat) : Nibbles :=
  { data := n.data.drop k, alreadyConsumed := n.alreadyConsumed ++ n.data.take k }

def slice (start stop : Nat) : Nibbles :=
  fromHex ((n.data.take stop).drop start)

def extend (n other : Nibbles) : Nibbles :=
  { n with data := n.data ++ other.data }

/-- `Nibbles::at`; out of range the source panics. -/
def at? (i : Nat) : Option Nat :=
  n.data[i]?.map UInt8.toNat

def prepend (nibble : UInt8) : Nibbles :=
  { n with data := nibble :: n.data }

def isLeaf : Bool :=
  n.data.getLast? == some 16

def concat (n other : Nibbles) : Nibbles :=
  { n with data := n.data ++ other.data }

def appendNew (nibble : UInt8) : Nibbles :=
  { n with data := n.data ++ [nibble] }

def current : Nibbles :=
  { data := n.alreadyConsumed }

def encodeCompact : Bytes :=
  let leafFlag : UInt8 := if n.isLeaf then 0x20 else 0x00
  let hex := if n.isLeaf then n.data.dropLast else n.data
  if hex.length % 2 = 1 then
    (0x10 + hex.headD 0 + leafFlag) :: packNibblePairs hex.tail
  else
    (0x00 + leafFlag) :: packNibblePairs hex

def compactToHex (compact : Bytes) : List UInt8 :=
  match expandBytesToNibbles compact with
  | [] => []
  | flag :: nibbles =>
    let base := flag :: nibbles ++ [16]
    let stop := if flag < 2 then base.length - 1 else base.length
    let chop := 2 - (flag &&& 1).toNat
    (base.drop chop).take (stop - chop)

def decodeCompact (compact : Bytes) : Nibbles :=
  fromHex (compactToHex compact)

end Nibbles

end Ethrex.Mpt
