import Ethrex.Rlp.Length

/-!
# Transactions

A legacy transaction is a list; any other is its type followed by a list, as a byte string. The
cells that cache the hash, the sender and the canonical form are left out.
-/

namespace Ethrex

open Rlp

/-- `TxType`, with its byte on the wire as `TxType.toByte`. -/
inductive TxType where
  | legacy
  | eip2930
  | eip1559
  | eip4844
  | eip7702
  | frame
  | feeToken
  | privileged
  deriving DecidableEq, Repr

def TxType.toByte : TxType → UInt8
  | .legacy => 0x00
  | .eip2930 => 0x01
  | .eip1559 => 0x02
  | .eip4844 => 0x03
  | .eip7702 => 0x04
  | .frame => 0x06
  | .feeToken => 0x7d
  | .privileged => 0x7e

inductive TxKind where
  | call (address : Address)
  | create

def TxKind.encode : TxKind → Bytes
  | .call address => encodeAddress address
  | .create => [rlpNull]

def encodeBool (b : Bool) : Bytes := if b then [0x01] else [rlpNull]

def encodeVec {α : Type} (encode : α → Bytes) (items : List α) : Bytes :=
  encodeList (items.flatMap encode)

def encodeHashes (hashes : List H256) : Bytes := encodeVec (fun hash => encodeBytes hash.bytes) hashes

/-- `AccessListItem`: an address and its storage keys. -/
abbrev AccessListItem := Address × List H256

def encodeAccessList (accessList : List AccessListItem) : Bytes :=
  encodeVec (fun item => encodeList (encodeAddress item.1 ++ encodeHashes item.2)) accessList

structure AuthorizationTuple where
  chainId : U256
  address : Address
  nonce : U64
  yParity : U256
  rSignature : U256
  sSignature : U256

def AuthorizationTuple.encode (t : AuthorizationTuple) : Bytes :=
  encodeList (encodeUint t.chainId ++ encodeAddress t.address ++ encodeUint t.nonce ++
    encodeUint t.yParity ++ encodeUint t.rSignature ++ encodeUint t.sSignature)

inductive FrameMode where
  | default
  | verify
  | sender
  deriving DecidableEq, Repr

def FrameMode.fromU8 (mode : UInt8) : Option FrameMode :=
  if mode = 0 then some .default
  else if mode = 1 then some .verify
  else if mode = 2 then some .sender
  else none

structure Frame where
  mode : UInt8
  flags : UInt8
  target : Option Address
  gasLimit : U64
  value : U256
  data : Bytes

def encodeTarget (target : Option Address) : Bytes :=
  match target with
  | some address => (TxKind.call address).encode
  | none => TxKind.create.encode

namespace Frame

def encode (f : Frame) : Bytes :=
  encodeList (encodeUint f.mode.toNat ++ encodeUint f.flags.toNat ++ encodeTarget f.target ++
    encodeUint f.gasLimit ++ encodeUint f.value ++ encodeBytes f.data)

def executionMode (f : Frame) : FrameMode := (FrameMode.fromU8 f.mode).getD .default

def expiryVerifier : Address := 0x8141

def isExpiryVerifier (f : Frame) : Bool :=
  f.executionMode = .verify ∧ f.target = some expiryVerifier

end Frame

structure FrameSignature where
  scheme : UInt8
  signer : Option Address
  msg : Bytes
  signature : Bytes

def FrameSignature.encode (s : FrameSignature) : Bytes :=
  encodeList (encodeUint s.scheme.toNat ++ encodeTarget s.signer ++ encodeBytes s.msg ++
    encodeBytes s.signature)

structure LegacyTransaction where
  nonce : U64
  gasPrice : U256
  gas : U64
  /-- `to`. -/
  recipient : TxKind
  value : U256
  data : Bytes
  v : U256
  r : U256
  s : U256

def LegacyTransaction.encode (t : LegacyTransaction) : Bytes :=
  encodeList (encodeUint t.nonce ++ encodeUint t.gasPrice ++ encodeUint t.gas ++
    t.recipient.encode ++ encodeUint t.value ++ encodeBytes t.data ++ encodeUint t.v ++
    encodeUint t.r ++ encodeUint t.s)

structure EIP2930Transaction where
  chainId : U64
  nonce : U64
  gasPrice : U256
  gasLimit : U64
  recipient : TxKind
  value : U256
  data : Bytes
  accessList : List AccessListItem
  signatureYParity : Bool
  signatureR : U256
  signatureS : U256

def EIP2930Transaction.encode (t : EIP2930Transaction) : Bytes :=
  encodeList (encodeUint t.chainId ++ encodeUint t.nonce ++ encodeUint t.gasPrice ++
    encodeUint t.gasLimit ++ t.recipient.encode ++ encodeUint t.value ++ encodeBytes t.data ++
    encodeAccessList t.accessList ++ encodeBool t.signatureYParity ++ encodeUint t.signatureR ++
    encodeUint t.signatureS)

structure EIP1559Transaction where
  chainId : U64
  nonce : U64
  maxPriorityFeePerGas : U64
  maxFeePerGas : U64
  gasLimit : U64
  recipient : TxKind
  value : U256
  data : Bytes
  accessList : List AccessListItem
  signatureYParity : Bool
  signatureR : U256
  signatureS : U256

def EIP1559Transaction.encode (t : EIP1559Transaction) : Bytes :=
  encodeList (encodeUint t.chainId ++ encodeUint t.nonce ++ encodeUint t.maxPriorityFeePerGas ++
    encodeUint t.maxFeePerGas ++ encodeUint t.gasLimit ++ t.recipient.encode ++
    encodeUint t.value ++ encodeBytes t.data ++ encodeAccessList t.accessList ++
    encodeBool t.signatureYParity ++ encodeUint t.signatureR ++ encodeUint t.signatureS)

structure EIP4844Transaction where
  chainId : U64
  nonce : U64
  maxPriorityFeePerGas : U64
  maxFeePerGas : U64
  gas : U64
  recipient : Address
  value : U256
  data : Bytes
  accessList : List AccessListItem
  maxFeePerBlobGas : U256
  blobVersionedHashes : List H256
  signatureYParity : Bool
  signatureR : U256
  signatureS : U256

def EIP4844Transaction.encode (t : EIP4844Transaction) : Bytes :=
  encodeList (encodeUint t.chainId ++ encodeUint t.nonce ++ encodeUint t.maxPriorityFeePerGas ++
    encodeUint t.maxFeePerGas ++ encodeUint t.gas ++ encodeAddress t.recipient ++
    encodeUint t.value ++ encodeBytes t.data ++ encodeAccessList t.accessList ++
    encodeUint t.maxFeePerBlobGas ++ encodeHashes t.blobVersionedHashes ++
    encodeBool t.signatureYParity ++ encodeUint t.signatureR ++ encodeUint t.signatureS)

structure EIP7702Transaction where
  chainId : U64
  nonce : U64
  maxPriorityFeePerGas : U64
  maxFeePerGas : U64
  gasLimit : U64
  recipient : Address
  value : U256
  data : Bytes
  accessList : List AccessListItem
  authorizationList : List AuthorizationTuple
  signatureYParity : Bool
  signatureR : U256
  signatureS : U256

def EIP7702Transaction.encode (t : EIP7702Transaction) : Bytes :=
  encodeList (encodeUint t.chainId ++ encodeUint t.nonce ++ encodeUint t.maxPriorityFeePerGas ++
    encodeUint t.maxFeePerGas ++ encodeUint t.gasLimit ++ encodeAddress t.recipient ++
    encodeUint t.value ++ encodeBytes t.data ++ encodeAccessList t.accessList ++
    encodeVec AuthorizationTuple.encode t.authorizationList ++ encodeBool t.signatureYParity ++
    encodeUint t.signatureR ++ encodeUint t.signatureS)

structure PrivilegedL2Transaction where
  chainId : U64
  nonce : U64
  maxPriorityFeePerGas : U64
  maxFeePerGas : U64
  gasLimit : U64
  recipient : TxKind
  value : U256
  data : Bytes
  accessList : List AccessListItem
  /-- `from`. -/
  origin : Address

def PrivilegedL2Transaction.encode (t : PrivilegedL2Transaction) : Bytes :=
  encodeList (encodeUint t.chainId ++ encodeUint t.nonce ++ encodeUint t.maxPriorityFeePerGas ++
    encodeUint t.maxFeePerGas ++ encodeUint t.gasLimit ++ t.recipient.encode ++
    encodeUint t.value ++ encodeBytes t.data ++ encodeAccessList t.accessList ++
    encodeAddress t.origin)

structure FeeTokenTransaction where
  chainId : U64
  nonce : U64
  maxPriorityFeePerGas : U64
  maxFeePerGas : U64
  gasLimit : U64
  recipient : TxKind
  value : U256
  data : Bytes
  accessList : List AccessListItem
  feeToken : Address
  signatureYParity : Bool
  signatureR : U256
  signatureS : U256

def FeeTokenTransaction.encode (t : FeeTokenTransaction) : Bytes :=
  encodeList (encodeUint t.chainId ++ encodeUint t.nonce ++ encodeUint t.maxPriorityFeePerGas ++
    encodeUint t.maxFeePerGas ++ encodeUint t.gasLimit ++ t.recipient.encode ++
    encodeUint t.value ++ encodeBytes t.data ++ encodeAccessList t.accessList ++
    encodeAddress t.feeToken ++ encodeBool t.signatureYParity ++ encodeUint t.signatureR ++
    encodeUint t.signatureS)

structure FrameTransaction where
  chainId : U64
  nonce : U64
  sender : Address
  frames : List Frame
  signatures : List FrameSignature
  maxPriorityFeePerGas : U64
  maxFeePerGas : U64
  maxFeePerBlobGas : U256
  blobVersionedHashes : List H256

namespace FrameTransaction

def encode (t : FrameTransaction) : Bytes :=
  encodeList (encodeUint t.chainId ++ encodeUint t.nonce ++ encodeAddress t.sender ++
    encodeVec Frame.encode t.frames ++ encodeVec FrameSignature.encode t.signatures ++
    encodeUint t.maxPriorityFeePerGas ++ encodeUint t.maxFeePerGas ++
    encodeUint t.maxFeePerBlobGas ++ encodeHashes t.blobVersionedHashes)

/-! The gas that a frame transaction reserves.  Sums stop at the largest `u64`. -/

def saturatingAdd (a b : Nat) : Nat := min (a + b) (2 ^ 64 - 1)

def saturatingMul (a b : Nat) : Nat := min (a * b) (2 ^ 64 - 1)

variable (t : FrameTransaction)

def signatureVerificationCost : Nat :=
  (t.signatures.map fun s =>
    if s.scheme = 0 then 100 else if s.scheme = 1 then 2800 else if s.scheme = 2 then 6700 else 0).sum

def dataFields : List Bytes :=
  t.frames.map Frame.data ++
    t.signatures.flatMap fun s =>
      [(s.signer.map fun signer => fixedBeBytes 20 signer.val).getD [], s.msg, s.signature]

def dataCost : Nat :=
  t.dataFields.flatten.foldl (fun acc byte => saturatingAdd acc (if byte = 0 then 4 else 16)) 0

def calldataTokens : Nat :=
  saturatingMul (t.dataFields.foldl (fun acc field => saturatingAdd acc field.length) 0) 4

def calldataFloorGas : Nat := saturatingMul t.calldataTokens 16

def mandatoryGas : Nat :=
  saturatingAdd (saturatingAdd 15000 (saturatingMul t.frames.length 475)) t.signatureVerificationCost

def standardGasLimit : Nat :=
  saturatingAdd (saturatingAdd t.mandatoryGas t.dataCost)
    (t.frames.foldl (fun acc frame => saturatingAdd acc frame.gasLimit) 0)

def calldataFloorTotal : Nat := saturatingAdd t.mandatoryGas t.calldataFloorGas

def maxGas : Nat := max t.standardGasLimit t.calldataFloorTotal

def expiryDeadline : Option U64 :=
  (t.frames.find? Frame.isExpiryVerifier).bind fun frame =>
    if frame.data.length = 8 then some (Fin.ofNat _ (fromBeBytes frame.data)) else none

end FrameTransaction

inductive Transaction where
  | legacy (tx : LegacyTransaction)
  | eip2930 (tx : EIP2930Transaction)
  | eip1559 (tx : EIP1559Transaction)
  | eip4844 (tx : EIP4844Transaction)
  | eip7702 (tx : EIP7702Transaction)
  | feeToken (tx : FeeTokenTransaction)
  | privileged (tx : PrivilegedL2Transaction)
  | frame (tx : FrameTransaction)

variable (t : Transaction)

namespace Transaction

def txType : Transaction → TxType
  | .legacy _ => .legacy
  | .eip2930 _ => .eip2930
  | .eip1559 _ => .eip1559
  | .eip4844 _ => .eip4844
  | .eip7702 _ => .eip7702
  | .feeToken _ => .feeToken
  | .privileged _ => .privileged
  | .frame _ => .frame

def encodeInner : Transaction → Bytes
  | .legacy tx => tx.encode
  | .eip2930 tx => tx.encode
  | .eip1559 tx => tx.encode
  | .eip4844 tx => tx.encode
  | .eip7702 tx => tx.encode
  | .feeToken tx => tx.encode
  | .privileged tx => tx.encode
  | .frame tx => tx.encode

def encodeCanonical : Bytes :=
  match t with
  | .legacy tx => tx.encode
  | _ => t.txType.toByte :: t.encodeInner

def encodeCanonicalLen : Nat :=
  (match t with
    | .legacy _ => 0
    | _ => 1) + t.encodeInner.length

def encode (t : Transaction) : Bytes :=
  match t with
  | .legacy tx => tx.encode
  | _ => encodeBytes t.encodeCanonical

def gasLimit : Transaction → U64
  | .legacy tx => tx.gas
  | .eip2930 tx => tx.gasLimit
  | .eip1559 tx => tx.gasLimit
  | .eip4844 tx => tx.gas
  | .eip7702 tx => tx.gasLimit
  | .feeToken tx => tx.gasLimit
  | .privileged tx => tx.gasLimit
  | .frame tx => Fin.ofNat _ tx.maxGas

def nonce : Transaction → U64
  | .legacy tx => tx.nonce
  | .eip2930 tx => tx.nonce
  | .eip1559 tx => tx.nonce
  | .eip4844 tx => tx.nonce
  | .eip7702 tx => tx.nonce
  | .feeToken tx => tx.nonce
  | .privileged tx => tx.nonce
  | .frame tx => tx.nonce

def maxPriorityFee : Transaction → Option U64
  | .legacy _ => none
  | .eip2930 _ => none
  | .eip1559 tx => some tx.maxPriorityFeePerGas
  | .eip4844 tx => some tx.maxPriorityFeePerGas
  | .eip7702 tx => some tx.maxPriorityFeePerGas
  | .feeToken tx => some tx.maxPriorityFeePerGas
  | .privileged tx => some tx.maxPriorityFeePerGas
  | .frame tx => some tx.maxPriorityFeePerGas

def maxFeePerGas : Transaction → Option U64
  | .legacy _ => none
  | .eip2930 _ => none
  | .eip1559 tx => some tx.maxFeePerGas
  | .eip4844 tx => some tx.maxFeePerGas
  | .eip7702 tx => some tx.maxFeePerGas
  | .feeToken tx => some tx.maxFeePerGas
  | .privileged tx => some tx.maxFeePerGas
  | .frame tx => some tx.maxFeePerGas

def toU256 (n : U64) : U256 := Fin.ofNat _ n.val

/-- `Transaction::gas_price`: the maximal fee where there is no price. -/
def gasPrice : Transaction → U256
  | .legacy tx => tx.gasPrice
  | .eip2930 tx => tx.gasPrice
  | .eip1559 tx => toU256 tx.maxFeePerGas
  | .eip4844 tx => toU256 tx.maxFeePerGas
  | .eip7702 tx => toU256 tx.maxFeePerGas
  | .feeToken tx => toU256 tx.maxFeePerGas
  | .privileged tx => toU256 tx.maxFeePerGas
  | .frame tx => toU256 tx.maxFeePerGas

def gasTipCap : U256 := (t.maxPriorityFee.map toU256).getD t.gasPrice

def gasFeeCap : U256 := (t.maxFeePerGas.map toU256).getD t.gasPrice

def effectiveGasTip (baseFee : Option U64) : Option U256 :=
  match baseFee with
  | none => some t.gasTipCap
  | some baseFee =>
    if t.gasFeeCap < toU256 baseFee then none
    else some (min (t.gasFeeCap - toU256 baseFee) t.gasTipCap)

def blobVersionedHashes : Transaction → List H256
  | .eip4844 tx => tx.blobVersionedHashes
  | .frame tx => tx.blobVersionedHashes
  | _ => []

def isProtected : Transaction → Bool
  | .legacy tx => 256 ≤ tx.v.val ∨ tx.v ≠ 27 ∧ tx.v ≠ 28 ∧ tx.v ≠ 1 ∧ tx.v ≠ 0
  | _ => true

end Transaction

namespace Transaction

/-- Nothing is put around a legacy transaction in a block; any other is a byte string. -/
def envelope : Nat :=
  match t with
  | .legacy _ => 0
  | _ => headerLength t.encodeCanonicalLen

variable (t : Transaction)

theorem length_encodeCanonical : t.encodeCanonical.length = t.encodeCanonicalLen := by
  cases t <;> simp [encodeCanonical, encodeCanonicalLen, encodeInner, Nat.add_comm]

theorem encodeInner_eq : ∃ fields, t.encodeInner = encodeList fields := by
  cases t <;> exact ⟨_, rfl⟩

theorem encodeInner_length_pos : 0 < t.encodeInner.length := by
  obtain ⟨fields, hfields⟩ := t.encodeInner_eq
  have := headerLength_pos fields.length
  rw [hfields, length_encodeList]
  omega

theorem typed_eq {t : Transaction} (h : t.txType ≠ .legacy) :
    t.encode = encodeBytes t.encodeCanonical ∧
      t.encodeCanonical = t.txType.toByte :: t.encodeInner ∧
      t.envelope = headerLength t.encodeCanonicalLen := by
  cases t with
  | legacy tx => exact absurd rfl h
  | eip2930 tx => exact ⟨rfl, rfl, rfl⟩
  | eip1559 tx => exact ⟨rfl, rfl, rfl⟩
  | eip4844 tx => exact ⟨rfl, rfl, rfl⟩
  | eip7702 tx => exact ⟨rfl, rfl, rfl⟩
  | feeToken tx => exact ⟨rfl, rfl, rfl⟩
  | privileged tx => exact ⟨rfl, rfl, rfl⟩
  | frame tx => exact ⟨rfl, rfl, rfl⟩

/-- What a transaction takes in a block: its canonical form and the envelope. -/
theorem length_encode : t.encode.length = t.envelope + t.encodeCanonicalLen := by
  by_cases htype : t.txType = .legacy
  · cases t with
    | legacy tx => simp [encode, envelope, encodeCanonicalLen, encodeInner]
    | _ => cases htype
  obtain ⟨hencode, hcanonical, henvelope⟩ := typed_eq htype
  have hpos := t.encodeInner_length_pos
  have hne : t.encodeCanonical.length ≠ 1 := by
    rw [hcanonical, List.length_cons]
    omega
  rw [hencode, length_encodeBytes hne, length_encodeCanonical, henvelope]

end Transaction

end Ethrex
