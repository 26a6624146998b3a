import Ethrex.Rlp.Fields

/-!
# Block headers

The cell that caches the hash of a header is an optional field; it plays no part in the encoding.
-/

namespace Ethrex

open Rlp

/-- The defaults are those of the derived `Default`. -/
structure BlockHeader where
  cachedHash : Option H256 := none
  parentHash : H256 := .ofNat 0
  ommersHash : H256 := .ofNat 0
  coinbase : Address := 0
  stateRoot : H256 := .ofNat 0
  transactionsRoot : H256 := .ofNat 0
  receiptsRoot : H256 := .ofNat 0
  logsBloom : FixedBytes 256 := .zero 256
  difficulty : U256 := 0
  number : U64 := 0
  gasLimit : U64 := 0
  gasUsed : U64 := 0
  timestamp : U64 := 0
  extraData : Bytes := []
  prevRandao : H256 := .ofNat 0
  nonce : U64 := 0
  baseFeePerGas : Option U64 := none
  withdrawalsRoot : Option H256 := none
  blobGasUsed : Option U64 := none
  excessBlobGas : Option U64 := none
  parentBeaconBlockRoot : Option H256 := none
  requestsHash : Option H256 := none
  blockAccessListHash : Option H256 := none
  slotNumber : Option U64 := none
  burnedFees : Option U64 := none
  deriving DecidableEq

namespace BlockHeader

/-- The fields behind the parent hash, as `<BlockHeader as RLPEncode>::encode` writes them. -/
def encodeTail (header : BlockHeader) : Bytes :=
  encodeBytes header.ommersHash.bytes ++
  encodeAddress header.coinbase ++
  encodeBytes header.stateRoot.bytes ++
  encodeBytes header.transactionsRoot.bytes ++
  encodeBytes header.receiptsRoot.bytes ++
  encodeBytes header.logsBloom.val ++
  encodeUint header.difficulty ++
  encodeUint header.number ++
  encodeUint header.gasLimit ++
  encodeUint header.gasUsed ++
  encodeUint header.timestamp ++
  encodeBytes header.extraData ++
  encodeBytes header.prevRandao.bytes ++
  encodeBytes (fixedBeBytes 8 header.nonce) ++
  encodeOptional (fun n : U64 => encodeUint n) header.baseFeePerGas ++
  encodeOptional (fun h : H256 => encodeBytes h.bytes) header.withdrawalsRoot ++
  encodeOptional (fun n : U64 => encodeUint n) header.blobGasUsed ++
  encodeOptional (fun n : U64 => encodeUint n) header.excessBlobGas ++
  encodeOptional (fun h : H256 => encodeBytes h.bytes) header.parentBeaconBlockRoot ++
  encodeOptional (fun h : H256 => encodeBytes h.bytes) header.requestsHash ++
  encodeOptional (fun h : H256 => encodeBytes h.bytes) header.blockAccessListHash ++
  encodeOptional (fun n : U64 => encodeUint n) header.slotNumber ++
  encodeOptional (fun n : U64 => encodeUint n) header.burnedFees

def encode (header : BlockHeader) : Bytes :=
  encodeList (encodeBytes header.parentHash.bytes ++ header.encodeTail)

def decodeUnfinished (rlp : Bytes) : Except RLPDecodeError (BlockHeader × Bytes) := do
  let h256 := "primitive_types::H256"
  let decoder ← Decoder.new rlp
  let (parentHash, decoder) ← decoder.decodeField "parent_hash" h256 decodeH256
  let (ommersHash, decoder) ← decoder.decodeField "ommers_hash" h256 decodeH256
  let (coinbase, decoder) ← decoder.decodeField "coinbase" "primitive_types::H160" decodeAddress
  let (stateRoot, decoder) ← decoder.decodeField "state_root" h256 decodeH256
  let (transactionsRoot, decoder) ← decoder.decodeField "transactions_root" h256 decodeH256
  let (receiptsRoot, decoder) ← decoder.decodeField "receipts_root" h256 decodeH256
  let (logsBloom, decoder) ← decoder.decodeField "logs_bloom" "ethbloom::Bloom" (decodeFixed 256)
  let (difficulty, decoder) ← decoder.decodeField "difficulty" "primitive_types::U256" decodeU256
  let (number, decoder) ← decoder.decodeField "number" "u64" decodeU64
  let (gasLimit, decoder) ← decoder.decodeField "gas_limit" "u64" decodeU64
  let (gasUsed, decoder) ← decoder.decodeField "gas_used" "u64" decodeU64
  let (timestamp, decoder) ← decoder.decodeField "timestamp" "u64" decodeU64
  let (extraData, decoder) ← decoder.decodeField "extra_data" "bytes::bytes::Bytes" decodeBytes
  let (prevRandao, decoder) ← decoder.decodeField "prev_randao" h256 decodeH256
  let (nonce, decoder) ← decoder.decodeField "nonce" "[u8; 8]" (decodeFixed 8)
  let (baseFeePerGas, decoder) := decoder.decodeOptionalField decodeU64
  let (withdrawalsRoot, decoder) := decoder.decodeOptionalField decodeH256
  let (blobGasUsed, decoder) := decoder.decodeOptionalField decodeU64
  let (excessBlobGas, decoder) := decoder.decodeOptionalField decodeU64
  let (parentBeaconBlockRoot, decoder) := decoder.decodeOptionalField decodeH256
  let (requestsHash, decoder) := decoder.decodeOptionalField decodeH256
  let (blockAccessListHash, decoder) := decoder.decodeOptionalField decodeH256
  let (slotNumber, decoder) := decoder.decodeOptionalField decodeU64
  let (burnedFees, decoder) := decoder.decodeOptionalField decodeU64
  let rest ← decoder.finish
  .ok ({
    parentHash, ommersHash, coinbase, stateRoot, transactionsRoot, receiptsRoot, logsBloom,
    difficulty, number, gasLimit, gasUsed, timestamp, extraData, prevRandao,
    nonce := Fin.ofNat _ (fromBeBytes nonce.val)
    baseFeePerGas, withdrawalsRoot, blobGasUsed, excessBlobGas, parentBeaconBlockRoot,
    requestsHash, blockAccessListHash, slotNumber, burnedFees }, rest)

def decode (rlp : Bytes) : Except RLPDecodeError BlockHeader := decodeAll decodeUnfinished rlp

variable (keccak256 : Bytes → H256)

def computeBlockHash (header : BlockHeader) : H256 := keccak256 header.encode

/-- `BlockHeader::hash`: the cached hash when there is one. -/
def hash (header : BlockHeader) : H256 := header.cachedHash.getD (header.computeBlockHash keccak256)

end BlockHeader

/-! ### Validation against the parent -/

/-- The errors of `validate_block_header`. -/
inductive InvalidBlockHeaderError where
  | gasUsedGreaterThanGasLimit
  | gasLimitTooFarFromParent
  | baseFeePerGasIncorrect
  | timestampNotGreaterThanParent
  | blockNumberNotOneGreater
  | extraDataTooLong
  | difficultyNotZero
  | nonceNotZero
  | ommersHashNotDefault
  | parentHashIncorrect
  /-- The source divides by zero. -/
  | panic
  deriving DecidableEq, Repr

def initialBaseFee : U64 := 1000000000

def defaultOmmersHash : H256 :=
  .ofNat 0x1dcc4de8dec75d7aab85b567b6ccd41ad312451b948a7413f0a142fd40d49347

def checkGasLimit (gasLimit parentGasLimit : U64) : Bool :=
  let maxAdjustmentDelta := parentGasLimit / 1024
  gasLimit < parentGasLimit + maxAdjustmentDelta &&
    gasLimit > parentGasLimit - maxAdjustmentDelta && gasLimit ≥ 5000

def calculateBaseFeePerGas (blockGasLimit parentGasLimit parentGasUsed parentBaseFeePerGas
    elasticityMultiplier : U64) : Except InvalidBlockHeaderError (Option U64) :=
  if !checkGasLimit blockGasLimit parentGasLimit then .ok none
  else if elasticityMultiplier = 0 then .error .panic
  else
    let parentGasTarget := parentGasLimit.val / elasticityMultiplier.val
    let fee := parentBaseFeePerGas.val
    if parentGasUsed.val = parentGasTarget then .ok (some parentBaseFeePerGas)
    else if parentGasTarget = 0 then .error .panic
    else
      let next :=
        if parentGasTarget < parentGasUsed.val then
          fee + max (fee * (parentGasUsed.val - parentGasTarget) / parentGasTarget / 8) 1
        else fee - fee * (parentGasTarget - parentGasUsed.val) / parentGasTarget / 8
      .ok (if h : next < 2 ^ 64 then some ⟨next, h⟩ else none)

def validateBlockHeader (keccak256 : Bytes → H256) (header parentHeader : BlockHeader)
    (elasticityMultiplier : U64) : Except InvalidBlockHeaderError Unit := do
  if header.gasUsed > header.gasLimit then .error .gasUsedGreaterThanGasLimit
  else
    match ← calculateBaseFeePerGas header.gasLimit parentHeader.gasLimit parentHeader.gasUsed
      (parentHeader.baseFeePerGas.getD initialBaseFee) elasticityMultiplier with
    | none => .error .gasLimitTooFarFromParent
    | some expectedBaseFeePerGas =>
      if expectedBaseFeePerGas ≠ header.baseFeePerGas.getD initialBaseFee then
        .error .baseFeePerGasIncorrect
      else if header.timestamp ≤ parentHeader.timestamp then .error .timestampNotGreaterThanParent
      else if header.number ≠ parentHeader.number + 1 then .error .blockNumberNotOneGreater
      else if header.extraData.length > 32 then .error .extraDataTooLong
      else if header.difficulty ≠ 0 then .error .difficultyNotZero
      else if header.nonce ≠ 0 then .error .nonceNotZero
      else if header.ommersHash ≠ defaultOmmersHash then .error .ommersHashNotDefault
      else if header.parentHash ≠ parentHeader.hash keccak256 then .error .parentHashIncorrect
      else .ok ()

theorem linked_of_validateBlockHeader {keccak256 : Bytes → H256}
    {header parentHeader : BlockHeader} {elasticityMultiplier : U64}
    (h : validateBlockHeader keccak256 header parentHeader elasticityMultiplier = .ok ()) :
    header.number = parentHeader.number + 1 ∧
      header.parentHash = parentHeader.hash keccak256 ∧
      parentHeader.timestamp < header.timestamp := by
  rw [validateBlockHeader] at h
  split at h
  · cases h
  obtain ⟨fee, -, h⟩ := bind_eq_ok.1 h
  cases fee with
  | none => cases h
  | some fee =>
    simp only [ite_eq_iff, reduceCtorEq, and_false, false_or, and_true, not_not] at h
    exact ⟨h.2.2.1, h.2.2.2.2.2.2.2, not_le.1 h.2.1⟩

end Ethrex
