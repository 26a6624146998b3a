import Ethrex.Block.Transaction
import Ethrex.Rlp.Unique

/-!
# Transactions are determined by their encodings

The first byte of a canonical form gives the type, and the fields of a list are told apart one after
another.
-/

namespace Ethrex

open Rlp Rlp.SelfDelimiting List Function

/-- The string of a recipient: empty for a creation, twenty bytes for a call. -/
def TxKind.bytes : TxKind → Bytes
  | .call address => fixedBeBytes 20 address.val
  | .create => []

theorem TxKind.selfDelimiting : SelfDelimiting TxKind.encode := by
  have hbytes : Injective bytes := by
    rintro (a | _) (b | _) h
    · rw [addressBytes_injective h]
    · exact absurd (congrArg List.length h) (by simp [bytes, length_fixedBeBytes])
    · exact absurd (congrArg List.length h) (by simp [bytes, length_fixedBeBytes])
    · rfl
  have hencode : TxKind.encode = fun kind => encodeBytes kind.bytes := by
    funext kind
    cases kind <;> rfl
  rw [hencode]
  exact string.comp hbytes

theorem Rlp.SelfDelimiting.ofTarget : SelfDelimiting encodeTarget := by
  let kind : Option Address → TxKind := fun target => target.elim .create .call
  have hkind : Injective kind := by
    rintro (_ | a) (_ | b) h
    · rfl
    · cases h
    · cases h
    · rw [TxKind.call.inj h]
  have hencode : encodeTarget = fun target => (kind target).encode := by
    funext target
    cases target <;> rfl
  rw [hencode]
  exact TxKind.selfDelimiting.comp hkind

theorem Rlp.SelfDelimiting.ofBool : SelfDelimiting encodeBool := by
  let bytes : Bool → Bytes := fun b => if b then [0x01] else []
  have hbytes : Injective bytes := by decide
  have hencode : encodeBool = fun b => encodeBytes (bytes b) := by
    funext b
    cases b <;> rfl
  rw [hencode]
  exact string.comp hbytes

theorem Rlp.SelfDelimiting.ofHashes : SelfDelimiting encodeHashes :=
  h256.vec fun hash => encodeBytes_ne_nil hash.bytes

theorem Rlp.SelfDelimiting.ofAccessList : SelfDelimiting encodeAccessList :=
  (ofAddress.prod ofHashes).list.vec
    fun _ => encodeList_ne_nil _

/-!
### Structures

The tuple of its fields determines a structure.
-/

theorem AuthorizationTuple.selfDelimiting : SelfDelimiting AuthorizationTuple.encode := by
  refine (uint.prod (ofAddress.prod (uint.prod (uint.prod (uint.prod uint))))).fields
    (fun t => (t.chainId, t.address, t.nonce, t.yParity, t.rSignature, t.sSignature))
    ?_ fun t => by simp only [encode, append_assoc]
  rintro ⟨⟩ ⟨⟩ h
  simpa using h

theorem AuthorizationTuple.selfDelimiting_vec : SelfDelimiting (encodeVec AuthorizationTuple.encode) :=
  AuthorizationTuple.selfDelimiting.vec fun _ => encodeList_ne_nil _

theorem Frame.selfDelimiting : SelfDelimiting Frame.encode := by
  refine (byte.prod (byte.prod (ofTarget.prod (uint.prod (uint.prod string))))).fields
    (fun t => (t.mode, t.flags, t.target, t.gasLimit, t.value, t.data))
    ?_ fun t => by simp only [encode, append_assoc]
  rintro ⟨⟩ ⟨⟩ h
  simpa using h

theorem Frame.selfDelimiting_vec : SelfDelimiting (encodeVec Frame.encode) :=
  Frame.selfDelimiting.vec fun _ => encodeList_ne_nil _

theorem FrameSignature.selfDelimiting : SelfDelimiting FrameSignature.encode := by
  refine (byte.prod (ofTarget.prod (string.prod string))).fields
    (fun t => (t.scheme, t.signer, t.msg, t.signature))
    ?_ fun t => by simp only [encode, append_assoc]
  rintro ⟨⟩ ⟨⟩ h
  simpa using h

theorem FrameSignature.selfDelimiting_vec : SelfDelimiting (encodeVec FrameSignature.encode) :=
  FrameSignature.selfDelimiting.vec fun _ => encodeList_ne_nil _

theorem LegacyTransaction.selfDelimiting : SelfDelimiting LegacyTransaction.encode := by
  refine (uint.prod (uint.prod (uint.prod (TxKind.selfDelimiting.prod (uint.prod (string.prod
    (uint.prod (uint.prod uint)))))))).fields
    (fun t => (t.nonce, t.gasPrice, t.gas, t.recipient, t.value, t.data, t.v, t.r, t.s))
    ?_ fun t => by simp only [encode, append_assoc]
  rintro ⟨⟩ ⟨⟩ h
  simpa using h

theorem EIP2930Transaction.selfDelimiting : SelfDelimiting EIP2930Transaction.encode := by
  refine (uint.prod (uint.prod (uint.prod (uint.prod (TxKind.selfDelimiting.prod (uint.prod
    (string.prod (ofAccessList.prod (ofBool.prod (uint.prod uint)))))))))).fields
    (fun t => (t.chainId, t.nonce, t.gasPrice, t.gasLimit, t.recipient, t.value, t.data,
    t.accessList, t.signatureYParity, t.signatureR, t.signatureS))
    ?_ fun t => by simp only [encode, append_assoc]
  rintro ⟨⟩ ⟨⟩ h
  simpa using h

theorem EIP1559Transaction.selfDelimiting : SelfDelimiting EIP1559Transaction.encode := by
  refine (uint.prod (uint.prod (uint.prod (uint.prod (uint.prod (TxKind.selfDelimiting.prod
    (uint.prod (string.prod (ofAccessList.prod (ofBool.prod (uint.prod uint))))))))))).fields
    (fun t => (t.chainId, t.nonce, t.maxPriorityFeePerGas, t.maxFeePerGas, t.gasLimit,
    t.recipient, t.value, t.data, t.accessList, t.signatureYParity, t.signatureR, t.signatureS))
    ?_ fun t => by simp only [encode, append_assoc]
  rintro ⟨⟩ ⟨⟩ h
  simpa using h

theorem EIP4844Transaction.selfDelimiting : SelfDelimiting EIP4844Transaction.encode := by
  refine (uint.prod (uint.prod (uint.prod (uint.prod (uint.prod (ofAddress.prod (uint.prod
    (string.prod (ofAccessList.prod (uint.prod (ofHashes.prod (ofBool.prod (uint.prod
    uint))))))))))))).fields
    (fun t => (t.chainId, t.nonce, t.maxPriorityFeePerGas, t.maxFeePerGas, t.gas, t.recipient,
    t.value, t.data, t.accessList, t.maxFeePerBlobGas, t.blobVersionedHashes, t.signatureYParity,
    t.signatureR, t.signatureS))
    ?_ fun t => by simp only [encode, append_assoc]
  rintro ⟨⟩ ⟨⟩ h
  simpa using h

theorem EIP7702Transaction.selfDelimiting : SelfDelimiting EIP7702Transaction.encode := by
  refine (uint.prod (uint.prod (uint.prod (uint.prod (uint.prod (ofAddress.prod (uint.prod
    (string.prod (ofAccessList.prod (AuthorizationTuple.selfDelimiting_vec.prod (ofBool.prod
    (uint.prod uint)))))))))))).fields
    (fun t => (t.chainId, t.nonce, t.maxPriorityFeePerGas, t.maxFeePerGas, t.gasLimit,
    t.recipient, t.value, t.data, t.accessList, t.authorizationList, t.signatureYParity,
    t.signatureR, t.signatureS))
    ?_ fun t => by simp only [encode, append_assoc]
  rintro ⟨⟩ ⟨⟩ h
  simpa using h

theorem PrivilegedL2Transaction.selfDelimiting : SelfDelimiting PrivilegedL2Transaction.encode := by
  refine (uint.prod (uint.prod (uint.prod (uint.prod (uint.prod (TxKind.selfDelimiting.prod
    (uint.prod (string.prod (ofAccessList.prod ofAddress))))))))).fields
    (fun t => (t.chainId, t.nonce, t.maxPriorityFeePerGas, t.maxFeePerGas, t.gasLimit,
    t.recipient, t.value, t.data, t.accessList, t.origin))
    ?_ fun t => by simp only [encode, append_assoc]
  rintro ⟨⟩ ⟨⟩ h
  simpa using h

theorem FeeTokenTransaction.selfDelimiting : SelfDelimiting FeeTokenTransaction.encode := by
  refine (uint.prod (uint.prod (uint.prod (uint.prod (uint.prod (TxKind.selfDelimiting.prod
    (uint.prod (string.prod (ofAccessList.prod (ofAddress.prod (ofBool.prod (uint.prod
    uint)))))))))))).fields
    (fun t => (t.chainId, t.nonce, t.maxPriorityFeePerGas, t.maxFeePerGas, t.gasLimit,
    t.recipient, t.value, t.data, t.accessList, t.feeToken, t.signatureYParity, t.signatureR,
    t.signatureS))
    ?_ fun t => by simp only [encode, append_assoc]
  rintro ⟨⟩ ⟨⟩ h
  simpa using h

theorem FrameTransaction.selfDelimiting : SelfDelimiting FrameTransaction.encode := by
  refine (uint.prod (uint.prod (ofAddress.prod (Frame.selfDelimiting_vec.prod
    (FrameSignature.selfDelimiting_vec.prod (uint.prod (uint.prod (uint.prod
    ofHashes)))))))).fields
    (fun t => (t.chainId, t.nonce, t.sender, t.frames, t.signatures, t.maxPriorityFeePerGas,
    t.maxFeePerGas, t.maxFeePerBlobGas, t.blobVersionedHashes))
    ?_ fun t => by simp only [encode, append_assoc]
  rintro ⟨⟩ ⟨⟩ h
  simpa using h

theorem encodeList_head {fields : Bytes} (h : (encodeList fields).length < 2 ^ 64) :
    ∃ b bs, encodeList fields = b :: bs ∧ 0xc0 ≤ b.toNat := by
  rw [length_encodeList] at h
  rcases @encodeList_cases fields (by norm_num; omega) with
    ⟨-, b, hb, he⟩ | ⟨-, b, hb, -, -, he⟩
  · exact ⟨b, _, he, by omega⟩
  · exact ⟨b, _, he, by omega⟩

theorem TxType.toByte_injective : Injective TxType.toByte := by
  intro a b h
  cases a <;> cases b <;> first | rfl | exact absurd h (by decide)

theorem TxType.toByte_lt (type : TxType) : type.toByte.toNat < 0x80 := by
  cases type <;> decide

namespace Transaction

variable {t t' : Transaction}

variable (hlen : t.encodeCanonical.length < 2 ^ 64)

include hlen

theorem encodeCanonical_head :
    ∃ b bs, t.encodeCanonical = b :: bs ∧
      (t.txType = .legacy ∧ 0xc0 ≤ b.toNat ∨ t.txType ≠ .legacy ∧ b = t.txType.toByte) := by
  by_cases htype : t.txType = .legacy
  · cases t with
    | legacy tx =>
      obtain ⟨b, bs, heq, hb⟩ := encodeList_head hlen
      exact ⟨b, bs, heq, .inl ⟨rfl, hb⟩⟩
    | _ => cases htype
  · exact ⟨_, _, (typed_eq htype).2.1, .inr ⟨htype, rfl⟩⟩

theorem txType_of_encodeCanonical (h : t.encodeCanonical = t'.encodeCanonical) :
    t.txType = t'.txType := by
  obtain ⟨b, bs, heq, hb⟩ := encodeCanonical_head hlen
  obtain ⟨b', bs', heq', hb'⟩ := encodeCanonical_head (h ▸ hlen)
  obtain ⟨rfl, -⟩ : b = b' ∧ bs = bs' := by
    rw [heq, heq'] at h
    exact List.cons.inj h
  rcases hb with ⟨htype, hb⟩ | ⟨htype, hb⟩ <;> rcases hb' with ⟨htype', hb'⟩ | ⟨htype', hb'⟩
  · rw [htype, htype']
  · have := t'.txType.toByte_lt
    rw [← hb'] at this
    omega
  · have := t.txType.toByte_lt
    rw [← hb] at this
    omega
  · exact TxType.toByte_injective (hb.symm.trans hb')

theorem eq_of_encodeCanonical (h : t.encodeCanonical = t'.encodeCanonical) : t = t' := by
  have htype := txType_of_encodeCanonical hlen h
  cases t <;> cases t' <;> cases htype
  case legacy tx tx' => rw [LegacyTransaction.selfDelimiting.eq hlen h]
  case eip2930 tx tx' => rw [EIP2930Transaction.selfDelimiting.eq_of_cons hlen h]
  case eip1559 tx tx' => rw [EIP1559Transaction.selfDelimiting.eq_of_cons hlen h]
  case eip4844 tx tx' => rw [EIP4844Transaction.selfDelimiting.eq_of_cons hlen h]
  case eip7702 tx tx' => rw [EIP7702Transaction.selfDelimiting.eq_of_cons hlen h]
  case feeToken tx tx' => rw [FeeTokenTransaction.selfDelimiting.eq_of_cons hlen h]
  case privileged tx tx' => rw [PrivilegedL2Transaction.selfDelimiting.eq_of_cons hlen h]
  case frame tx tx' => rw [FrameTransaction.selfDelimiting.eq_of_cons hlen h]

end Transaction

end Ethrex
