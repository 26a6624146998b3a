import Ethrex.Block.Unique

/-!
# What signatures cover

The bytes that are hashed and signed. Two signed objects with the same bytes are of one kind and
agree in everything but their signatures.
-/

namespace Ethrex

open Rlp List Rlp.SelfDelimiting

inductive CryptoError where
  | invalidSignature
  | invalidRecoveryId
  | recoveryFailed
  | invalidPoint (msg : String)
  | invalidInput (msg : String)
  | verificationFailed
  | unsupported (msg : String)
  | other (msg : String)
  deriving DecidableEq, Repr

/-- The part of `Crypto` that senders are computed with. -/
structure Crypto where
  keccak256 : Bytes → H256
  recoverSigner : FixedBytes 65 → H256 → Except CryptoError Address

theorem length_signature (r s : U256) (yParity : UInt8) :
    (fixedBeBytes 32 r.val ++ fixedBeBytes 32 s.val ++ [yParity]).length = 65 := by
  simp [length_fixedBeBytes]

/-- A signature in the form `r || s || v`. -/
def signature (r s : U256) (yParity : UInt8) : FixedBytes 65 :=
  ⟨fixedBeBytes 32 r.val ++ fixedBeBytes 32 s.val ++ [yParity], length_signature r s yParity⟩

def parityByte (yParity : Bool) : UInt8 := if yParity then 1 else 0

def deriveLegacyChainId (v : U256) : Option U64 :=
  if v.val < 2 ^ 64 then
    if v.val < 35 then none else some (Fin.ofNat _ ((v.val - 35) / 2))
  else none

/-- The parity of the signature of a legacy transaction: `v` is 27 or 28, or 35 or 36 and twice the
chain id. -/
def legacyParity (v : Nat) (chainId : Option U64) : Except CryptoError Bool :=
  match chainId with
  | some chainId =>
    if v < 35 + chainId.val * 2 then .error .invalidSignature
    else
      let rest := v - (35 + chainId.val * 2)
      if rest = 0 then .ok false else if rest = 1 then .ok true else .error .invalidSignature
  | none =>
    if v = 27 then .ok false else if v = 28 then .ok true else .error .invalidSignature

/-- What the signature of a legacy transaction covers: chain id and two zeros close the list under
replay protection. -/
def LegacyTransaction.encodeUnsigned (t : LegacyTransaction) : Bytes :=
  match deriveLegacyChainId t.v with
  | none =>
    encodeList (encodeUint t.nonce ++ encodeUint t.gasPrice ++ encodeUint t.gas ++
      t.recipient.encode ++ encodeUint t.value ++ encodeBytes t.data)
  | some chainId =>
    encodeList (encodeUint t.nonce ++ encodeUint t.gasPrice ++ encodeUint t.gas ++
      t.recipient.encode ++ encodeUint t.value ++ encodeBytes t.data ++ encodeUint chainId ++
      encodeUint 0 ++ encodeUint 0)

def EIP2930Transaction.encodeUnsigned (t : EIP2930Transaction) : Bytes :=
  encodeList (encodeUint t.chainId ++ encodeUint t.nonce ++ encodeUint t.gasPrice ++
    encodeUint t.gasLimit ++ t.recipient.encode ++ encodeUint t.value ++ encodeBytes t.data ++
    encodeAccessList t.accessList)

def EIP1559Transaction.encodeUnsigned (t : EIP1559Transaction) : Bytes :=
  encodeList (encodeUint t.chainId ++ encodeUint t.nonce ++ encodeUint t.maxPriorityFeePerGas ++
    encodeUint t.maxFeePerGas ++ encodeUint t.gasLimit ++ t.recipient.encode ++
    encodeUint t.value ++ encodeBytes t.data ++ encodeAccessList t.accessList)

def EIP4844Transaction.encodeUnsigned (t : EIP4844Transaction) : Bytes :=
  encodeList (encodeUint t.chainId ++ encodeUint t.nonce ++ encodeUint t.maxPriorityFeePerGas ++
    encodeUint t.maxFeePerGas ++ encodeUint t.gas ++ encodeAddress t.recipient ++
    encodeUint t.value ++ encodeBytes t.data ++ encodeAccessList t.accessList ++
    encodeUint t.maxFeePerBlobGas ++ encodeHashes t.blobVersionedHashes)

def EIP7702Transaction.encodeUnsigned (t : EIP7702Transaction) : Bytes :=
  encodeList (encodeUint t.chainId ++ encodeUint t.nonce ++ encodeUint t.maxPriorityFeePerGas ++
    encodeUint t.maxFeePerGas ++ encodeUint t.gasLimit ++ encodeAddress t.recipient ++
    encodeUint t.value ++ encodeBytes t.data ++ encodeAccessList t.accessList ++
    encodeVec AuthorizationTuple.encode t.authorizationList)

def FeeTokenTransaction.encodeUnsigned (t : FeeTokenTransaction) : Bytes :=
  encodeList (encodeUint t.chainId ++ encodeUint t.nonce ++ encodeUint t.maxPriorityFeePerGas ++
    encodeUint t.maxFeePerGas ++ encodeUint t.gasLimit ++ t.recipient.encode ++
    encodeUint t.value ++ encodeBytes t.data ++ encodeAccessList t.accessList ++
    encodeAddress t.feeToken)

namespace Transaction

/-- `Transaction::signing_payload`: the bytes that are signed, and the signature. -/
def signingPayload (t : Transaction) : Except CryptoError (Option (Bytes × FixedBytes 65)) :=
  match t with
  | .legacy tx =>
    if tx.v.val < 2 ^ 64 then do
      let yParity ← legacyParity tx.v.val (deriveLegacyChainId tx.v)
      .ok (some (tx.encodeUnsigned, signature tx.r tx.s (parityByte yParity)))
    else .error .invalidSignature
  | .eip2930 tx =>
    .ok (some (t.txType.toByte :: tx.encodeUnsigned,
      signature tx.signatureR tx.signatureS (parityByte tx.signatureYParity)))
  | .eip1559 tx =>
    .ok (some (t.txType.toByte :: tx.encodeUnsigned,
      signature tx.signatureR tx.signatureS (parityByte tx.signatureYParity)))
  | .eip4844 tx =>
    .ok (some (t.txType.toByte :: tx.encodeUnsigned,
      signature tx.signatureR tx.signatureS (parityByte tx.signatureYParity)))
  | .eip7702 tx =>
    .ok (some (t.txType.toByte :: tx.encodeUnsigned,
      signature tx.signatureR tx.signatureS (parityByte tx.signatureYParity)))
  | .privileged _ => .ok none
  | .frame _ => .ok none
  | .feeToken tx =>
    .ok (some (t.txType.toByte :: tx.encodeUnsigned,
      signature tx.signatureR tx.signatureS (parityByte tx.signatureYParity)))

def computeSender (crypto : Crypto) (t : Transaction) : Except CryptoError Address :=
  match t with
  | .privileged tx => .ok tx.origin
  | .frame tx => .ok tx.sender
  | _ => do
    match ← t.signingPayload with
    | none => .error .invalidSignature
    | some (payload, sig) => crypto.recoverSigner sig (crypto.keccak256 payload)

end Transaction

/-! ### Authorizations and frame signatures -/

def magic : UInt8 := 0x05

def AuthorizationTuple.encodeUnsigned (t : AuthorizationTuple) : Bytes :=
  encodeList (encodeUint t.chainId ++ encodeAddress t.address ++ encodeUint t.nonce)

def FrameSignature.elide (s : FrameSignature) : FrameSignature :=
  if s.msg.isEmpty then { s with signature := [] } else s

/-- The list under the hash of `compute_sig_hash`. -/
def FrameTransaction.encodeUnsigned (t : FrameTransaction) : Bytes :=
  encodeList (encodeUint t.chainId ++ encodeUint t.nonce ++ encodeAddress t.sender ++
    encodeVec Frame.encode t.frames ++
    encodeVec FrameSignature.encode (t.signatures.map FrameSignature.elide) ++
    encodeUint t.maxPriorityFeePerGas ++ encodeUint t.maxFeePerGas ++
    encodeUint t.maxFeePerBlobGas ++ encodeHashes t.blobVersionedHashes)

/-- What is signed: a transaction, an authorization, or a frame transaction by its own
signatures. -/
inductive SignedObject where
  | transaction (tx : Transaction)
  | authorization (t : AuthorizationTuple)
  | frame (tx : FrameTransaction)

/-- A transaction type or an authorization. -/
inductive SignedKind where
  | transaction (type : TxType)
  | authorization
  deriving DecidableEq, Repr

def EIP2930Transaction.unsigned (t : EIP2930Transaction) : EIP2930Transaction :=
  { t with signatureYParity := false, signatureR := 0, signatureS := 0 }

def EIP1559Transaction.unsigned (t : EIP1559Transaction) : EIP1559Transaction :=
  { t with signatureYParity := false, signatureR := 0, signatureS := 0 }

def EIP4844Transaction.unsigned (t : EIP4844Transaction) : EIP4844Transaction :=
  { t with signatureYParity := false, signatureR := 0, signatureS := 0 }

def EIP7702Transaction.unsigned (t : EIP7702Transaction) : EIP7702Transaction :=
  { t with signatureYParity := false, signatureR := 0, signatureS := 0 }

def FeeTokenTransaction.unsigned (t : FeeTokenTransaction) : FeeTokenTransaction :=
  { t with signatureYParity := false, signatureR := 0, signatureS := 0 }

def LegacyTransaction.unsigned (t : LegacyTransaction) : LegacyTransaction :=
  { t with v := 0, r := 0, s := 0 }

def AuthorizationTuple.unsigned (t : AuthorizationTuple) : AuthorizationTuple :=
  { t with yParity := 0, rSignature := 0, sSignature := 0 }

def FrameTransaction.unsigned (t : FrameTransaction) : FrameTransaction :=
  { t with signatures := t.signatures.map FrameSignature.elide }

def Transaction.unsigned : Transaction → Transaction
  | .legacy tx => .legacy tx.unsigned
  | .eip2930 tx => .eip2930 tx.unsigned
  | .eip1559 tx => .eip1559 tx.unsigned
  | .eip4844 tx => .eip4844 tx.unsigned
  | .eip7702 tx => .eip7702 tx.unsigned
  | .feeToken tx => .feeToken tx.unsigned
  | .privileged tx => .privileged tx
  | .frame tx => .frame tx

/-- `Transaction::chain_id`: for a legacy transaction, whether it is protected and for which
chain. -/
def Transaction.chainId : Transaction → Option U64
  | .legacy tx => deriveLegacyChainId tx.v
  | .eip2930 tx => some tx.chainId
  | .eip1559 tx => some tx.chainId
  | .eip4844 tx => some tx.chainId
  | .eip7702 tx => some tx.chainId
  | .feeToken tx => some tx.chainId
  | .privileged tx => some tx.chainId
  | .frame tx => some tx.chainId

namespace SignedObject

def kind : SignedObject → SignedKind
  | .transaction tx => .transaction tx.txType
  | .authorization _ => .authorization
  | .frame _ => .transaction .frame

def payload : SignedObject → Option Bytes
  | .transaction tx =>
    match tx.signingPayload with
    | .ok (some (payload, _)) => some payload
    | _ => none
  | .authorization t => some (magic :: t.encodeUnsigned)
  | .frame tx => some (TxType.frame.toByte :: tx.encodeUnsigned)

def unsigned : SignedObject → SignedObject
  | .transaction tx => .transaction tx.unsigned
  | .authorization t => .authorization t.unsigned
  | .frame tx => .frame tx.unsigned

def chainId : SignedObject → Option U64
  | .transaction tx => tx.chainId
  | .authorization _ => none
  | .frame tx => some tx.chainId

end SignedObject

/-- Objects with the same encoding agree in what is signed. -/
def Determines {α : Type} (encode : α → Bytes) (unsigned : α → α) : Prop :=
  ∀ {t t'}, (encode t).length < 2 ^ 64 → encode t = encode t' → unsigned t = unsigned t'

theorem Rlp.SelfDelimiting.determines {α β : Type} {encode : β → Bytes} (h : SelfDelimiting encode)
    (f : α → β) {encode' : α → Bytes} {unsigned : α → α}
    (heq : ∀ t, encode' t = encodeList (encode (f t)))
    (hf : ∀ t t', f t = f t' → unsigned t = unsigned t') : Determines encode' unsigned :=
  fun hlen hsame => hf _ _ (h.fields_eq f heq hlen hsame)

theorem EIP2930Transaction.unsigned_eq : Determines encodeUnsigned unsigned := by
  refine (uint.prod (uint.prod (uint.prod (uint.prod (TxKind.selfDelimiting.prod (uint.prod
    (string.prod ofAccessList))))))).determines
    (fun t => (t.chainId, t.nonce, t.gasPrice, t.gasLimit, t.recipient, t.value, t.data,
    t.accessList))
    (fun t => by simp only [encodeUnsigned, append_assoc]) ?_
  rintro ⟨⟩ ⟨⟩ h
  simpa [unsigned] using h

theorem EIP1559Transaction.unsigned_eq : Determines encodeUnsigned unsigned := by
  refine (uint.prod (uint.prod (uint.prod (uint.prod (uint.prod (TxKind.selfDelimiting.prod
    (uint.prod (string.prod ofAccessList)))))))).determines
    (fun t => (t.chainId, t.nonce, t.maxPriorityFeePerGas, t.maxFeePerGas, t.gasLimit,
    t.recipient, t.value, t.data, t.accessList))
    (fun t => by simp only [encodeUnsigned, append_assoc]) ?_
  rintro ⟨⟩ ⟨⟩ h
  simpa [unsigned] using h

theorem EIP4844Transaction.unsigned_eq : Determines encodeUnsigned unsigned := by
  refine (uint.prod (uint.prod (uint.prod (uint.prod (uint.prod (ofAddress.prod (uint.prod
    (string.prod (ofAccessList.prod (uint.prod ofHashes)))))))))).determines
    (fun t => (t.chainId, t.nonce, t.maxPriorityFeePerGas, t.maxFeePerGas, t.gas, t.recipient,
    t.value, t.data, t.accessList, t.maxFeePerBlobGas, t.blobVersionedHashes))
    (fun t => by simp only [encodeUnsigned, append_assoc]) ?_
  rintro ⟨⟩ ⟨⟩ h
  simpa [unsigned] using h

theorem EIP7702Transaction.unsigned_eq : Determines encodeUnsigned unsigned := by
  refine (uint.prod (uint.prod (uint.prod (uint.prod (uint.prod (ofAddress.prod (uint.prod
    (string.prod (ofAccessList.prod AuthorizationTuple.selfDelimiting_vec))))))))).determines
    (fun t => (t.chainId, t.nonce, t.maxPriorityFeePerGas, t.maxFeePerGas, t.gasLimit,
    t.recipient, t.value, t.data, t.accessList, t.authorizationList))
    (fun t => by simp only [encodeUnsigned, append_assoc]) ?_
  rintro ⟨⟩ ⟨⟩ h
  simpa [unsigned] using h

theorem FeeTokenTransaction.unsigned_eq : Determines encodeUnsigned unsigned := by
  refine (uint.prod (uint.prod (uint.prod (uint.prod (uint.prod (TxKind.selfDelimiting.prod
    (uint.prod (string.prod (ofAccessList.prod ofAddress))))))))).determines
    (fun t => (t.chainId, t.nonce, t.maxPriorityFeePerGas, t.maxFeePerGas, t.gasLimit,
    t.recipient, t.value, t.data, t.accessList, t.feeToken))
    (fun t => by simp only [encodeUnsigned, append_assoc]) ?_
  rintro ⟨⟩ ⟨⟩ h
  simpa [unsigned] using h

theorem AuthorizationTuple.unsigned_eq : Determines encodeUnsigned unsigned := by
  refine (uint.prod (ofAddress.prod uint)).determines
    (fun t => (t.chainId, t.address, t.nonce))
    (fun t => by simp only [encodeUnsigned, append_assoc]) ?_
  rintro ⟨⟩ ⟨⟩ h
  simpa [unsigned] using h

theorem FrameTransaction.unsigned_eq : Determines encodeUnsigned unsigned :=
  -- The bytes are the encoding of the transaction with its own signatures left out.
  fun hlen h => selfDelimiting.eq hlen h

/-- The six fields in front decide them, and whether anything follows decides the protection. -/
theorem LegacyTransaction.unsigned_eq {t t' : LegacyTransaction}
    (hlen : t.encodeUnsigned.length < 2 ^ 64) (h : t.encodeUnsigned = t'.encodeUnsigned) :
    t.unsigned = t'.unsigned ∧ deriveLegacyChainId t.v = deriveLegacyChainId t'.v := by
  let tail : Option U64 → Bytes := fun chainId =>
    chainId.elim [] fun chainId => encodeUint chainId ++ (encodeUint 0 ++ encodeUint 0)
  have hencode (t : LegacyTransaction) : t.encodeUnsigned =
      encodeList (encodeUint t.nonce ++ (encodeUint t.gasPrice ++ (encodeUint t.gas ++
        (t.recipient.encode ++ (encodeUint t.value ++ encodeBytes t.data)))) ++
        tail (deriveLegacyChainId t.v)) := by
    rw [encodeUnsigned]
    cases hchain : deriveLegacyChainId t.v <;> simp [tail]
  rw [hencode] at hlen h
  rw [hencode] at h
  have hlist := encodeList_injective h
  rw [length_encodeList] at hlen
  have hshort := lt_of_le_of_lt (Nat.le_add_left _ _) hlen
  obtain ⟨hfields, htail⟩ := (uint.prod (uint.prod (uint.prod (TxKind.selfDelimiting.prod
    (uint.prod string))))) (t.nonce, t.gasPrice, t.gas, t.recipient, t.value,
    t.data) (t'.nonce, t'.gasPrice, t'.gas, t'.recipient, t'.value, t'.data) _ _ hshort hlist
  refine ⟨?_, ?_⟩
  · cases t
    cases t'
    simpa [unsigned] using hfields
  have hne (chainId : U64) (rest : Bytes) : encodeUint chainId ++ rest ≠ [] := fun hnil =>
    encodeBytes_ne_nil _ (append_eq_nil_iff.1 hnil).1
  cases hc : deriveLegacyChainId t.v with
  | none =>
    cases hc' : deriveLegacyChainId t'.v with
    | none => rfl
    | some chainId =>
      rw [hc, hc'] at htail
      exact absurd htail.symm (hne _ _)
  | some chainId =>
    cases hc' : deriveLegacyChainId t'.v with
    | none =>
      rw [hc, hc'] at htail
      exact absurd htail (hne _ _)
    | some chainId' =>
      rw [hc, hc'] at htail
      rw [hc, length_append] at hshort
      have hshort' := lt_of_le_of_lt (Nat.le_add_left _ _) hshort
      obtain ⟨rfl, -⟩ := uint chainId chainId' _ _ hshort' htail
      rfl

theorem Determines.of_payload {α : Type} {encode : α → Bytes} {unsigned : α → α}
    (h : Determines encode unsigned) {t t' : α} {b : UInt8} {bytes : Bytes}
    (ht : some (b :: encode t) = some bytes) (ht' : some (b :: encode t') = some bytes)
    (hlen : bytes.length < 2 ^ 64) : unsigned t = unsigned t' := by
  obtain rfl := Option.some.inj ht
  rw [length_cons] at hlen
  exact h (by omega) (List.cons.inj (Option.some.inj ht').symm).2

namespace SignedObject

def toByte : SignedKind → UInt8
  | .transaction type => type.toByte
  | .authorization => magic

theorem toByte_injective : Function.Injective toByte := by
  rintro (a | _) (b | _) h
  · rw [TxType.toByte_injective h]
  · cases a <;> exact absurd h (by decide)
  · cases b <;> exact absurd h (by decide)
  · rfl

theorem toByte_lt (kind : SignedKind) : (toByte kind).toNat < 0x80 := by
  cases kind with
  | transaction type => exact type.toByte_lt
  | authorization => decide

variable {bytes : Bytes} {x : SignedObject}

theorem payload_legacy {tx : LegacyTransaction}
    (h : (transaction (.legacy tx)).payload = some bytes) : bytes = tx.encodeUnsigned := by
  simp only [payload, Transaction.signingPayload] at h
  by_cases hv : tx.v.val < 2 ^ 64
  · rw [if_pos hv] at h
    cases hparity : legacyParity tx.v.val (deriveLegacyChainId tx.v) with
    | error err => simp [hparity, bind, Except.bind] at h
    | ok yParity =>
      simp only [hparity, bind, Except.bind, Option.some.injEq] at h
      exact h.symm
  · rw [if_neg hv] at h
    cases h

theorem payload_head (h : x.payload = some bytes) (hlen : bytes.length < 2 ^ 64) :
    ∃ b bs, bytes = b :: bs ∧
      (x.kind = .transaction .legacy ∧ 0xc0 ≤ b.toNat ∨
        x.kind ≠ .transaction .legacy ∧ b = toByte x.kind) := by
  cases x with
  | authorization t => exact ⟨_, _, (Option.some.inj h).symm, .inr ⟨nofun, rfl⟩⟩
  | frame tx => exact ⟨_, _, (Option.some.inj h).symm, .inr ⟨nofun, rfl⟩⟩
  | transaction tx =>
    cases tx with
    | legacy tx =>
      obtain rfl := payload_legacy h
      have hlist : ∃ fields, tx.encodeUnsigned = encodeList fields := by
        rw [LegacyTransaction.encodeUnsigned]
        split <;> exact ⟨_, rfl⟩
      obtain ⟨fields, hfields⟩ := hlist
      obtain ⟨b, bs, heq, hb⟩ := encodeList_head (hfields ▸ hlen)
      exact ⟨b, bs, hfields.trans heq, .inl ⟨rfl, hb⟩⟩
    | privileged tx => cases h
    | frame tx => cases h
    | _ => exact ⟨_, _, (Option.some.inj h).symm, .inr ⟨nofun, rfl⟩⟩

theorem kind_eq {y : SignedObject} (hx : x.payload = some bytes) (hy : y.payload = some bytes)
    (hlen : bytes.length < 2 ^ 64) : x.kind = y.kind := by
  obtain ⟨b, bs, rfl, hb⟩ := payload_head hx hlen
  obtain ⟨b', bs', heq, hb'⟩ := payload_head hy hlen
  obtain ⟨rfl, rfl⟩ := List.cons.inj heq
  rcases hb with ⟨hkind, hb⟩ | ⟨hkind, hb⟩ <;> rcases hb' with ⟨hkind', hb'⟩ | ⟨hkind', hb'⟩
  · rw [hkind, hkind']
  · have := toByte_lt y.kind
    rw [← hb'] at this
    omega
  · have := toByte_lt x.kind
    rw [← hb] at this
    omega
  · exact toByte_injective (hb.symm.trans hb')

theorem kind_legacy (h : x.kind = .transaction .legacy) : ∃ tx, x = .transaction (.legacy tx) := by
  cases x with
  | transaction tx =>
    cases tx with
    | legacy tx => exact ⟨tx, rfl⟩
    | _ => cases h
  | _ => cases h

theorem chainId_unsigned (h : x.kind ≠ .transaction .legacy) : x.unsigned.chainId = x.chainId := by
  cases x with
  | transaction tx =>
    cases tx with
    | legacy tx => exact absurd rfl h
    | _ => rfl
  | _ => rfl

/-- Signatures cannot be moved: equal bytes come from objects of one kind that agree in every field
but the signature values, legacy transactions also in their protection. -/
theorem unsigned_eq_of_payload_eq {x y : SignedObject} {bytes : Bytes}
    (hx : x.payload = some bytes) (hy : y.payload = some bytes) (hlen : bytes.length < 2 ^ 64) :
    x.kind = y.kind ∧ x.unsigned = y.unsigned ∧ x.chainId = y.chainId := by
  have hkind := kind_eq hx hy hlen
  have hlegacy (h : x.kind = .transaction .legacy) :
      x.unsigned = y.unsigned ∧ x.chainId = y.chainId := by
    obtain ⟨tx, rfl⟩ := kind_legacy h
    obtain ⟨tx', rfl⟩ := kind_legacy (hkind.symm.trans h)
    have hbytes := payload_legacy hx
    obtain ⟨hfields, hchain⟩ :=
      LegacyTransaction.unsigned_eq (hbytes ▸ hlen) (hbytes.symm.trans (payload_legacy hy))
    exact ⟨by simp only [unsigned, Transaction.unsigned, hfields], hchain⟩
  have hunsigned : x.unsigned = y.unsigned := by
    cases x with
    | authorization t =>
      cases y with
      | authorization t' =>
        rw [unsigned, unsigned, AuthorizationTuple.unsigned_eq.of_payload hx hy hlen]
      | transaction tx' => cases hkind
      | frame tx' => cases hkind
    | frame tx =>
      cases y with
      | authorization t' => cases hkind
      | transaction tx' => cases tx' <;> cases hkind; cases hy
      | frame tx' =>
        rw [unsigned, unsigned, FrameTransaction.unsigned_eq.of_payload hx hy hlen]
    | transaction tx =>
      cases y with
      | authorization t' => cases hkind
      | frame tx' => cases tx <;> cases hkind; cases hx
      | transaction tx' =>
        cases tx <;> cases tx' <;> cases hkind
        case legacy.legacy.refl => exact (hlegacy rfl).1
        case privileged.privileged.refl => cases hx
        case frame.frame.refl => cases hx
        case eip2930.eip2930.refl tx tx' =>
          simp only [unsigned, Transaction.unsigned, EIP2930Transaction.unsigned_eq.of_payload hx hy hlen]
        case eip1559.eip1559.refl tx tx' =>
          simp only [unsigned, Transaction.unsigned, EIP1559Transaction.unsigned_eq.of_payload hx hy hlen]
        case eip4844.eip4844.refl tx tx' =>
          simp only [unsigned, Transaction.unsigned, EIP4844Transaction.unsigned_eq.of_payload hx hy hlen]
        case eip7702.eip7702.refl tx tx' =>
          simp only [unsigned, Transaction.unsigned, EIP7702Transaction.unsigned_eq.of_payload hx hy hlen]
        case feeToken.feeToken.refl tx tx' =>
          simp only [unsigned, Transaction.unsigned, FeeTokenTransaction.unsigned_eq.of_payload hx hy hlen]
  by_cases hkind' : x.kind = .transaction .legacy
  · exact ⟨hkind, hlegacy hkind'⟩
  · refine ⟨hkind, hunsigned, ?_⟩
    rw [← chainId_unsigned hkind', hunsigned, chainId_unsigned (hkind ▸ hkind')]

def signedTransfer (r : U256) : LegacyTransaction where
  nonce := 0
  gasPrice := 10
  gas := 21000
  recipient := .call 0xb0b
  value := 1
  data := []
  v := 37
  r
  s := 1

theorem unsigned_eq_of_payload_eq_transfer :
    ∃ bytes : Bytes, (transaction (.legacy (signedTransfer 1))).payload = some bytes ∧
      (transaction (.legacy (signedTransfer 2))).payload = some bytes ∧
      (transaction (.legacy (signedTransfer 1))).unsigned =
        (transaction (.legacy (signedTransfer 2))).unsigned := by
  have hchain : deriveLegacyChainId 37 = some 1 := by decide
  have hpayload (r : U256) : (transaction (.legacy (signedTransfer r))).payload =
      some (signedTransfer r).encodeUnsigned := by
    have hparity : legacyParity (37 : U256).val (some 1) = .ok false := by decide
    simp only [payload, Transaction.signingPayload, signedTransfer, hchain, hparity, bind,
      Except.bind]
    rw [if_pos (by decide)]
  have hsame : (signedTransfer 2).encodeUnsigned = (signedTransfer 1).encodeUnsigned := by
    simp only [LegacyTransaction.encodeUnsigned, signedTransfer, hchain]
  have hpayload' := hpayload 2
  rw [hsame] at hpayload'
  refine ⟨_, hpayload 1, hpayload', ?_⟩
  exact (unsigned_eq_of_payload_eq (hpayload 1) hpayload' (by decide +kernel)).2.1

end SignedObject

end Ethrex
