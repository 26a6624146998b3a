import Ethrex.Payload.Fill

/-!
# The size of a built payload

From Osaka on the builder stops when its estimate of the RLP size reaches `MAX_RLP_BLOCK_SIZE`. The
block also takes string headers of typed transactions, longer list headers, and the header fields
written at the end. It fits when no selection from the queues leaves too little room for these.
-/

namespace Ethrex.Payload

open Rlp List
open TransactionQueue (firstHeads headOf insertHead new)

variable {σ κ : Type} {b : Builder σ κ} {c c' : PayloadBuildContext σ}

theorem length_encodeUint_bounds (n : U64) :
    1 ≤ (encodeUint n).length ∧ (encodeUint n).length ≤ 9 := by
  have hbytes : (toBeBytes n).length ≤ 8 :=
    toBeBytes_length_le.2 (n.isLt.trans_eq (by norm_num))
  rw [encodeUint]
  rcases encodeBytes_cases (toBeBytes n) with ⟨_, _, _, h⟩ | ⟨_, h⟩
  · simp [h]
  · rw [h, length_append, length_encodeHeader, headerLength_of_lt (by omega)]
    omega

theorem length_encodeOptional_uint_le (a : Option U64) :
    (encodeOptional (fun n : U64 => encodeUint n) a).length ≤ 9 := by
  cases a with
  | none => exact Nat.zero_le _
  | some n => exact (length_encodeUint_bounds n).2

theorem length_encodeFixed {n : Nat} (a b : FixedBytes n) (h : n ≠ 1) :
    (encodeBytes a.val).length = (encodeBytes b.val).length := by
  rw [length_encodeBytes (by rw [a.property]; exact h),
    length_encodeBytes (by rw [b.property]; exact h), a.property, b.property]

theorem length_encodeOptional_hash (a : Option H256) :
    (encodeOptional (fun h : H256 => encodeBytes h.bytes) a).length =
      if a.isSome then 33 else 0 := by
  cases a with
  | none => rfl
  | some h => exact length_encodeH256 h

theorem length_encodeOptional_hash_le (a : Option H256) :
    (encodeOptional (fun h : H256 => encodeBytes h.bytes) a).length ≤ 33 := by
  rw [length_encodeOptional_hash]
  split <;> omega

/-- The fields of a header that a build writes. -/
structure FinalFields where
  stateRoot : H256
  transactionsRoot : H256
  receiptsRoot : H256
  logsBloom : FixedBytes 256
  gasUsed : U64
  blobGasUsed : Option U64
  requestsHash : Option H256
  blockAccessListHash : Option H256
  burnedFees : Option U64

def FinalFields.write (f : FinalFields) (h : BlockHeader) : BlockHeader :=
  { h with
    stateRoot := f.stateRoot
    transactionsRoot := f.transactionsRoot
    receiptsRoot := f.receiptsRoot
    logsBloom := f.logsBloom
    gasUsed := f.gasUsed
    blobGasUsed := f.blobGasUsed
    requestsHash := f.requestsHash
    blockAccessListHash := f.blockAccessListHash
    burnedFees := f.burnedFees }

def FinalFields.of (h : BlockHeader) : FinalFields where
  stateRoot := h.stateRoot
  transactionsRoot := h.transactionsRoot
  receiptsRoot := h.receiptsRoot
  logsBloom := h.logsBloom
  gasUsed := h.gasUsed
  blobGasUsed := h.blobGasUsed
  requestsHash := h.requestsHash
  blockAccessListHash := h.blockAccessListHash
  burnedFees := h.burnedFees

theorem FinalFields.write_of (h : BlockHeader) : (FinalFields.of h).write h = h := rfl

def FinalFields.bytes (f : FinalFields) : Nat :=
  (encodeUint f.gasUsed).length +
    (encodeOptional (fun n : U64 => encodeUint n) f.blobGasUsed).length +
    (encodeOptional (fun h : H256 => encodeBytes h.bytes) f.requestsHash).length +
    (encodeOptional (fun h : H256 => encodeBytes h.bytes) f.blockAccessListHash).length +
    (encodeOptional (fun n : U64 => encodeUint n) f.burnedFees).length

theorem FinalFields.length_write (f g : FinalFields) (h : BlockHeader) :
    (encodeBytes (f.write h).parentHash.bytes ++ (f.write h).encodeTail).length + g.bytes =
      (encodeBytes (g.write h).parentHash.bytes ++ (g.write h).encodeTail).length + f.bytes := by
  have hbloom := length_encodeFixed f.logsBloom g.logsBloom (by decide)
  delta BlockHeader.encodeTail FinalFields.write FinalFields.bytes
  simp only [length_append, length_encodeH256, hbloom]
  omega

theorem FinalFields.bytes_bounds (f : FinalFields) : 1 ≤ f.bytes ∧ f.bytes ≤ 93 := by
  have hgas := length_encodeUint_bounds f.gasUsed
  have hblob := length_encodeOptional_uint_le f.blobGasUsed
  have hrequests := length_encodeOptional_hash_le f.requestsHash
  have hbal := length_encodeOptional_hash_le f.blockAccessListHash
  have hburned := length_encodeOptional_uint_le f.burnedFees
  rw [FinalFields.bytes]
  omega

variable {f : FinalFields} {baseFeePerBlobGas : U256} {vm : σ} {template : Block}

theorem FinalFields.length_encode_le {g : FinalFields} (h : BlockHeader) (hle : f.bytes ≤ g.bytes) :
    (f.write h).encode.length ≤ (g.write h).encode.length := by
  have hfields := FinalFields.length_write f g h
  have := headerLength_mono (show
    (encodeBytes (f.write h).parentHash.bytes ++ (f.write h).encodeTail).length ≤
      (encodeBytes (g.write h).parentHash.bytes ++ (g.write h).encodeTail).length by omega)
  rw [BlockHeader.encode, BlockHeader.encode, length_encodeList, length_encodeList]
  omega

theorem FinalFields.length_encode_write_le {h : BlockHeader} (hsmall : h.encode.length + 95 < 2 ^ 24) :
    (f.write h).encode.length ≤ h.encode.length + 95 := by
  have hfields := FinalFields.length_write f (.of h) h
  have hnew := f.bytes_bounds
  have hold := (FinalFields.of h).bytes_bounds
  rw [FinalFields.write_of] at hfields
  have hlength : h.encode.length = headerLength (encodeBytes h.parentHash.bytes ++ h.encodeTail).length +
      (encodeBytes h.parentHash.bytes ++ h.encodeTail).length := by
    rw [BlockHeader.encode, length_encodeList]
  have hpos := headerLength_pos (encodeBytes h.parentHash.bytes ++ h.encodeTail).length
  have hwritten : (encodeBytes (f.write h).parentHash.bytes ++ (f.write h).encodeTail).length <
      256 ^ 3 := by omega
  have hheader := headerLength_le hwritten
  rw [BlockHeader.encode, length_encodeList]
  omega

theorem length_encodeOptional_le {a : Option U64} (a' : Option U64) (ha : a = none ∨ a = some 0)
    (hsome : a.isSome → a'.isSome) :
    (encodeOptional (fun n : U64 => encodeUint n) a).length ≤
      (encodeOptional (fun n : U64 => encodeUint n) a').length := by
  rcases ha with rfl | rfl
  · exact Nat.zero_le _
  · obtain ⟨n, rfl⟩ := Option.isSome_iff_exists.1 (hsome rfl)
    exact (length_encodeUint_bounds n).1

theorem FinalFields.bytes_of_le {h : BlockHeader} (hgas : h.gasUsed = 0)
    (hblob : h.blobGasUsed = none ∨ h.blobGasUsed = some 0)
    (hblobSome : h.blobGasUsed.isSome → f.blobGasUsed.isSome)
    (hrequests : h.requestsHash.isSome → f.requestsHash.isSome)
    (hbal : h.blockAccessListHash = none) (hburned : h.burnedFees = none) :
    (FinalFields.of h).bytes ≤ f.bytes := by
  have hgasLe : (encodeUint h.gasUsed).length ≤ (encodeUint f.gasUsed).length := by
    rw [hgas]
    exact (length_encodeUint_bounds f.gasUsed).1
  have hblobLe := length_encodeOptional_le f.blobGasUsed hblob hblobSome
  have hburnedLe := length_encodeOptional_le f.burnedFees (.inl hburned) (by simp [hburned])
  have hrequestsLe : (encodeOptional (fun h : H256 => encodeBytes h.bytes) h.requestsHash).length ≤
      (encodeOptional (fun h : H256 => encodeBytes h.bytes) f.requestsHash).length := by
    rw [length_encodeOptional_hash, length_encodeOptional_hash]
    split
    · rename_i hsome
      rw [if_pos (hrequests hsome)]
    · exact Nat.zero_le _
  have hbalLe : (encodeOptional (fun h : H256 => encodeBytes h.bytes) h.blockAccessListHash).length ≤
      (encodeOptional (fun h : H256 => encodeBytes h.bytes) f.blockAccessListHash).length := by
    rw [hbal]
    exact Nat.zero_le _
  delta FinalFields.bytes FinalFields.of
  exact Nat.add_le_add (Nat.add_le_add (Nat.add_le_add (Nat.add_le_add hgasLe hblobLe) hrequestsLe)
    hbalLe) hburnedLe

/-! ### The steps around the loop -/

theorem ofMachine_eq {α : Type} {result : Except String α × σ} {a : α}
    (h : ofMachine c result = .ok (a, c')) : c' = { c with vm := result.2 } := by
  obtain ⟨result, vm⟩ := result
  cases result with
  | error e => cases h
  | ok a' =>
    cases h
    rfl

theorem startPayload_eq {payload : Block}
    (h : startPayload b payload baseFeePerBlobGas vm = .ok c) :
    ∃ vm', c = { PayloadBuildContext.new b.rules payload baseFeePerBlobGas vm with vm := vm' } := by
  rw [startPayload] at h
  split at h
  · obtain ⟨result, hcall, h⟩ := bind_eq_ok.1 h
    cases h
    exact ⟨_, ofMachine_eq hcall⟩
  · cases h
    exact ⟨vm, rfl⟩

theorem extractRequests_eq (h : extractRequests b c = .ok c') :
    c'.payload = c.payload ∧ (b.rules.prague → c'.requests.isSome) := by
  rw [extractRequests] at h
  split at h
  · obtain ⟨result, hcall, h⟩ := bind_eq_ok.1 h
    cases h
    refine ⟨?_, fun _ => rfl⟩
    rw [ofMachine_eq hcall]
  · rename_i hprague
    cases h
    exact ⟨rfl, fun htrue => absurd htrue hprague⟩

theorem finalizePayload_eq (h : finalizePayload b c = .ok c') :
    c'.payload.body = c.payload.body ∧ ∃ f : FinalFields,
      c'.payload.header = f.write c.payload.header ∧
      f.blobGasUsed = c.payload.header.blobGasUsed ∧
      f.requestsHash = c.requests.map b.digests.requestsHash := by
  simp only [finalizePayload] at h
  split at h
  · cases h
  rename_i stateRoot hroot
  cases h
  refine ⟨rfl, .of (finalHeader b c stateRoot (b.machine.takeBal c.vm).1), ?_, rfl, rfl⟩
  simp only [FinalFields.of, FinalFields.write, finalHeader]

theorem finishPayload_eq (h : finishPayload b c = .ok c') :
    c'.payload.body = c.payload.body ∧ ∃ f : FinalFields,
      c'.payload.header = f.write c.payload.header ∧
      f.blobGasUsed = c.payload.header.blobGasUsed ∧
      (b.rules.prague → f.requestsHash.isSome) := by
  have hentered : (enterPostTxPhase b c).payload = c.payload := by
    rw [enterPostTxPhase]
    split <;> rfl
  rw [finishPayload] at h
  obtain ⟨extracted, hextract, h⟩ := bind_eq_ok.1 h
  obtain ⟨⟨_, paid⟩, hwithdrawals, h⟩ := bind_eq_ok.1 h
  obtain ⟨hpayload, hsome⟩ := extractRequests_eq hextract
  have hpaid := ofMachine_eq hwithdrawals
  have hsame : paid.payload = c.payload := by
    rw [hpaid]
    exact hpayload.trans hentered
  obtain ⟨hbody, f, hheader, hblob, hrequests⟩ := finalizePayload_eq h
  refine ⟨by rw [hbody, hsame], f, by rw [hheader, hsame], by rw [hblob, hsame], ?_⟩
  intro hprague
  rw [hrequests, Option.isSome_map, hpaid]
  exact hsome hprague

/-! ### The size of the block -/

def encodedBytes (txs : List Transaction) : Nat := (txs.map fun tx => tx.encode.length).sum

/-- How much longer than the empty payload and its transactions a finished block may be: 92 bytes in
the fields of the header that a build writes, and three in the headers of the lists of the block, of
the block header and of the transactions. -/
def finalGrowth : Nat := 92 + 3 * 3

/-- The block takes the bytes of the empty payload and of its transactions, and little more. -/
structure Filled (template built : Block) : Prop where
  lower : template.length + encodedBytes built.body.transactions ≤ built.length
  upper : template.length + encodedBytes built.body.transactions + finalGrowth < 2 ^ 24 →
    built.length ≤ template.length + encodedBytes built.body.transactions + finalGrowth

theorem filled_of_body {built : Block} (hempty : template.body.transactions = [])
    (hommers : built.body.ommers = template.body.ommers)
    (hwithdrawals : built.body.withdrawals = template.body.withdrawals)
    (hlower : template.header.encode.length ≤ built.header.encode.length)
    (hupper : template.header.encode.length + 95 < 2 ^ 24 →
      built.header.encode.length ≤ template.header.encode.length + 95) :
    Filled template built := by
  have hlist := headerLength_pos (encodedBytes built.body.transactions)
  have htemplate : template.fields.length = template.header.encode.length + 1 +
      (encodeVec BlockHeader.encode template.body.ommers).length +
      (encodeOptional (encodeVec Withdrawal.encode) template.body.withdrawals).length := by
    simp only [Block.fields, length_append, hempty]
    rfl
  have hbuilt : built.fields.length = built.header.encode.length +
      (headerLength (encodedBytes built.body.transactions) +
        encodedBytes built.body.transactions) +
      (encodeVec BlockHeader.encode template.body.ommers).length +
      (encodeOptional (encodeVec Withdrawal.encode) template.body.withdrawals).length := by
    simp only [Block.fields, length_append, length_encodeVec Transaction.encode, hommers,
      hwithdrawals, encodedBytes]
  have hgrown := headerLength_mono (show template.fields.length ≤ built.fields.length by omega)
  have hpos := headerLength_pos template.fields.length
  have hgrowth : finalGrowth = 101 := rfl
  have hpow : 256 ^ 3 = 2 ^ 24 := by norm_num
  constructor
  · rw [Block.length, Block.length, Block.encode, Block.encode, length_encodeList,
      length_encodeList]
    omega
  · rw [Block.length, Block.length, Block.encode, Block.encode, length_encodeList,
      length_encodeList]
    intro hsmall
    have hheader := hupper (by omega)
    have htxs := headerLength_le (k := 3) (show encodedBytes built.body.transactions < 256 ^ 3 by omega)
    have hfields := headerLength_le (k := 3) (show built.fields.length < 256 ^ 3 by omega)
    omega

variable {args : BuildPayloadArgs} {parentBlock : BlockHeader} {excessBlobGas : Option U64}
  {extraData : Bytes}

theorem createPayload_eq {rules : Rules} {digests : Digests}
    (h : createPayload rules digests args parentBlock excessBlobGas extraData = .ok template) :
    template.body.transactions = [] ∧ template.header.gasUsed = 0 ∧
      (template.header.blobGasUsed = none ∨ template.header.blobGasUsed = some 0) ∧
      template.header.requestsHash.isSome = rules.prague ∧
      template.header.blockAccessListHash = none ∧ template.header.burnedFees = none := by
  rw [createPayload] at h
  obtain ⟨fee, -, h⟩ := bind_eq_ok.1 h
  cases h
  refine ⟨rfl, rfl, ?_, ?_, rfl, rfl⟩
  · cases rules.cancun
    · exact .inl rfl
    · exact .inr rfl
  · cases rules.prague <;> rfl

theorem filled_of_written {rules : Rules} {digests : Digests} {built : Block}
    (hcreate : createPayload rules digests args parentBlock excessBlobGas extraData = .ok template)
    (hommers : built.body.ommers = template.body.ommers)
    (hwithdrawals : built.body.withdrawals = template.body.withdrawals)
    (hheader : built.header = f.write template.header)
    (hblobSome : template.header.blobGasUsed.isSome → f.blobGasUsed.isSome)
    (hrequestsSome : rules.prague → f.requestsHash.isSome) : Filled template built := by
  obtain ⟨hempty, hgas, hblob, hrequests, hbal, hburned⟩ := createPayload_eq hcreate
  have hle := FinalFields.length_encode_le template.header
    (FinalFields.bytes_of_le hgas hblob hblobSome (by rwa [hrequests]) hbal hburned)
  rw [FinalFields.write_of] at hle
  apply filled_of_body hempty hommers hwithdrawals
  · rw [hheader]
    exact hle
  · rw [hheader]
    exact FinalFields.length_encode_write_le

variable {plainTxs blobTxs : TransactionQueue}

/-- What a build takes from the queues, and what its estimate says of it. -/
theorem buildPayload_filled
    (hcreate : createPayload b.rules b.digests args parentBlock excessBlobGas extraData =
      .ok template)
    (hbuild : buildPayload b template baseFeePerBlobGas vm plainTxs blobTxs = .ok c) :
    Filled template c.payload ∧
      ↑c.payload.body.transactions ≤ plainTxs.transactions + blobTxs.transactions ∧
      (b.rules.osaka → template.length ≤ maxRlpBlockSize →
        template.length + canonicalBytes c.payload.body.transactions ≤ maxRlpBlockSize) := by
  rw [buildPayload] at hbuild
  obtain ⟨start, hstart, hbuild⟩ := bind_eq_ok.1 hbuild
  obtain ⟨vm', rfl⟩ := startPayload_eq hstart
  obtain ⟨filled, hfill, hbuild⟩ := bind_eq_ok.1 hbuild
  have hempty := (createPayload_eq hcreate).1
  have hprogress := fillTransactions_progress hempty hfill
  obtain ⟨hbody, f, hheader, hfblob, hfsome⟩ := finishPayload_eq hbuild
  rw [hbody]
  refine ⟨?_, fillTransactions_transactions_le hempty hfill, fun hosaka hfits =>
    hprogress.counted.trans (hprogress.bounded hosaka hfits)⟩
  refine filled_of_written hcreate ?_ ?_ ?_ ?_ hfsome
  · rw [hbody]
    exact hprogress.ommers
  · rw [hbody]
    exact hprogress.withdrawals
  · rw [hheader, hprogress.header]
    rfl
  · rw [hfblob]
    exact hprogress.blobGas

/-- Every selection from the queues that the estimate lets into the block leaves room for the string
headers of its typed transactions and for the growth of the headers. -/
def RoomForHeaders (template : Block) (queued : Multiset Transaction) : Prop :=
  ∀ chosen : List Transaction, ↑chosen ≤ queued →
    template.length + canonicalBytes chosen ≤ maxRlpBlockSize →
    template.length + encodedBytes chosen + finalGrowth ≤ maxRlpBlockSize

/-- From Osaka on, queues with room for the headers give a block within the limit, whatever the
transactions do when they are executed. -/
theorem built_fits {args : BuildPayloadArgs} {parentBlock : BlockHeader}
    {excessBlobGas : Option U64} {extraData : Bytes} {template : Block} {baseFeePerBlobGas : U256}
    {vm : σ} {plainTxs blobTxs : TransactionQueue} (hosaka : b.rules.osaka)
    (hcreate : createPayload b.rules b.digests args parentBlock excessBlobGas extraData =
      .ok template)
    (hfits : template.length ≤ maxRlpBlockSize)
    (hroom : RoomForHeaders template (plainTxs.transactions + blobTxs.transactions))
    (hbuild : buildPayload b template baseFeePerBlobGas vm plainTxs blobTxs = .ok c) :
    c.payload.length ≤ maxRlpBlockSize := by
  obtain ⟨hfilled, hchosen, hestimate⟩ := buildPayload_filled hcreate hbuild
  have hlimit : maxRlpBlockSize < 2 ^ 24 := by decide
  have hspare := hroom _ hchosen (hestimate hosaka hfits)
  exact (hfilled.upper (hspare.trans_lt hlimit)).trans hspare

/-!
### A block that is too large

One sender has 64 transactions of 131062 bytes, each a transfer with zero bytes as calldata that
pays the calldata floor. The estimate with all of them is 28 bytes below the limit; in the block
each has a string header of four bytes.
-/

variable (size nonce : Nat)

/-- A transfer with so many zero bytes of calldata. -/
def paddedTransfer : Transaction :=
  .eip1559 {
    chainId := 1
    nonce := Fin.ofNat _ nonce
    maxPriorityFeePerGas := 1
    maxFeePerGas := 100
    gasLimit := 1400000
    recipient := .call 0x1000
    value := 0
    data := List.replicate size 0
    accessList := []
    signatureYParity := false
    signatureR := 1
    signatureS := 1 }

theorem encodeCanonicalLen_paddedTransfer {size nonce : Nat} (hnonce : nonce < 128)
    (hlower : 65536 ≤ size) (hupper : size < 131072) :
    (paddedTransfer size nonce).encodeCanonicalLen = size + 43 := by
  have hnonce : (encodeUint ((Fin.ofNat (2 ^ 64) nonce : U64) : Nat)).length = 1 := by
    revert nonce
    decide +kernel
  have hdata : (encodeBytes (List.replicate size 0)).length = size + 4 := by
    rw [length_encodeBytes (by rw [length_replicate]; omega), length_replicate,
      headerLength_of_le (k := 2) (by omega) (by omega) (by omega)]
    omega
  have hfields : ∃ fields, (paddedTransfer size nonce).encodeInner = encodeList fields ∧
      fields.length = size + 38 := by
    refine ⟨_, rfl, ?_⟩
    simp only [length_append, hnonce, hdata]
    show 1 + 1 + 1 + 1 + 4 + 21 + 1 + (size + 4) + 1 + 1 + 1 + 1 = size + 38
    omega
  obtain ⟨fields, hinner, hlength⟩ := hfields
  show 1 + (paddedTransfer size nonce).encodeInner.length = size + 43
  rw [hinner, length_encodeList, hlength,
    headerLength_of_le (k := 2) (by omega) (by omega) (by omega)]
  omega

theorem length_encode_paddedTransfer {size nonce : Nat} (hnonce : nonce < 128)
    (hlower : 65536 ≤ size) (hupper : size < 131072) :
    (paddedTransfer size nonce).encode.length = size + 47 := by
  have henvelope : (paddedTransfer size nonce).envelope =
      headerLength (paddedTransfer size nonce).encodeCanonicalLen := rfl
  rw [Transaction.length_encode, henvelope,
    encodeCanonicalLen_paddedTransfer hnonce hlower hupper,
    headerLength_of_le (k := 2) (by omega) (by omega) (by omega)]
  omega

/-- What the execution of a transfer reports that uses so much gas. -/
def transferReport (gas : U64) : ExecutionReport where
  isSuccess := true
  gasUsed := gas
  gasSpent := gas
  stateGasUsed := 0
  logs := []
  payerAddress := none
  frameResults := none

/-- A machine on which every transaction uses the floor price of 131019 bytes of calldata. -/
def transferMachine : Machine Unit Unit where
  executeTx _ _ _ _ := (.ok (transferReport 1331190), ())
  undoLastTx _ := (.error "Transaction backup not found. Was BackupHook enabled?", ())
  setBalIndex _ _ := ()
  recordTouchedAddress _ _ := ()
  extendTouchedAddresses _ _ := ()
  txCheckpoint _ := none
  txRestore _ _ := ()
  applySystemCalls _ _ := (.ok (), ())
  extractRequests _ _ _ := (.ok [], ())
  processWithdrawals _ _ := (.ok (), ())
  takeBal _ := (none, ())
  stateRoot _ := .ok (.repeatByte 1)

/-- A build on L1 under the rules of Osaka. -/
def osakaBuilder : Builder Unit Unit where
  machine := transferMachine
  digests := {
    hash := fun _ => .repeatByte 0
    transactionsRoot := fun _ => .repeatByte 2
    receiptsRoot := fun _ => .repeatByte 3
    withdrawalsRoot := fun _ => .repeatByte 4
    requestsHash := fun _ => .repeatByte 5
    bloomFromLogs := fun _ => FixedBytes.zero 256 }
  rules := {
    eip155 := true
    shanghai := true
    cancun := true
    prague := true
    osaka := true
    amsterdam := false
    hegota := false
    lStar := false }
  sidecars := ⟨fun _ => none, fun _ => none⟩
  maxBlobs := 9
  isL1 := true

def bulkySender : Address := 0xa

def pooledTransfer : MempoolTransaction := ⟨nonce, bulkySender, paddedTransfer size nonce⟩

def transferQueue : List Nat → TransactionQueue
  | [] => ⟨[], AList.singleton bulkySender [], some 7⟩
  | nonce :: nonces =>
    ⟨[⟨pooledTransfer size nonce, 1⟩],
      AList.singleton bulkySender (nonces.map (pooledTransfer size)), some 7⟩

def noBlobs : TransactionQueue := ⟨[], ∅, some 7⟩

theorem headOf_pooledTransfer :
    headOf (some 7) (pooledTransfer size nonce) = .ok ⟨pooledTransfer size nonce, 1⟩ := by
  have hfee : (paddedTransfer size nonce).gasFeeCap = Transaction.toU256 100 := rfl
  have htip : (paddedTransfer size nonce).gasTipCap = Transaction.toU256 1 := rfl
  have heffective : (paddedTransfer size nonce).effectiveGasTip (some 7) = some 1 := by
    rw [Transaction.effectiveGasTip, hfee, htip]
    decide +kernel
  rw [headOf, pooledTransfer, heffective]

variable (nonces : List Nat)

def transferPool : Tally.Map Address (List MempoolTransaction) :=
  AList.singleton bulkySender (nonces.map (pooledTransfer size))

theorem new_transferPool :
    new (transferPool size (nonce :: nonces)) (some 7) =
      .ok (transferQueue size (nonce :: nonces)) := by
  have hheads : firstHeads (some 7)
      ((transferPool size (nonce :: nonces)).entries.map Sigma.snd) =
        .ok [⟨pooledTransfer size nonce, 1⟩] := by
    show firstHeads (some 7) [(nonce :: nonces).map (pooledTransfer size)] = _
    rw [map_cons, firstHeads, headOf_pooledTransfer]
    rfl
  rw [new, hheads]
  rfl

theorem shift_transferQueue :
    (transferQueue size (nonce :: nonces)).shift = .ok (transferQueue size nonces) := by
  cases nonces with
  | nil => rfl
  | cons next rest =>
    show (do
      let head ← headOf (some 7) (pooledTransfer size next)
      .ok { transferQueue size (nonce :: next :: rest) with
        heads := insertHead [] head
        txs := (transferQueue size (nonce :: next :: rest)).txs.insert bulkySender
          (rest.map (pooledTransfer size)) }) = _
    rw [headOf_pooledTransfer]
    rfl

theorem transactions_transferQueue :
    (transferQueue size nonces).transactions = nonces.map (paddedTransfer size) := by
  cases nonces with
  | nil => rfl
  | cons nonce nonces =>
    have hrest : ((nonces.map (pooledTransfer size)).map MempoolTransaction.inner ++ [] :
        List Transaction) = nonces.map (paddedTransfer size) := by
      rw [append_nil, map_map]
      rfl
    show ([paddedTransfer size nonce] +
      ((nonces.map (pooledTransfer size)).map MempoolTransaction.inner ++ [] :
        List Transaction) : Multiset Transaction) = _
    rw [hrest]
    rfl

theorem encodedBytes_le {chosen queued : List Transaction}
    (h : (chosen : Multiset Transaction) ≤ queued) : encodedBytes chosen ≤ encodedBytes queued := by
  obtain ⟨part, hperm, hpart⟩ := Multiset.coe_le.1 h
  rw [encodedBytes, encodedBytes, ← (hperm.map fun tx => tx.encode.length).sum_eq]
  exact (hpart.map fun tx => tx.encode.length).sum_le_sum fun _ _ => Nat.zero_le _

theorem size_transferQueue : (transferQueue size nonces).size = nonces.length := by
  cases nonces with
  | nil => rfl
  | cons nonce nonces =>
    show 1 + ((nonces.map (pooledTransfer size)).length + 0) = nonces.length + 1
    rw [length_map]
    omega

theorem encodedBytes_paddedTransfers {size count : Nat} (hcount : count ≤ 128)
    (hlower : 65536 ≤ size) (hupper : size < 131072) :
    encodedBytes ((List.range count).map (paddedTransfer size)) = count * (size + 47) := by
  have hlength : ∀ tx ∈ (List.range count).map (paddedTransfer size),
      tx.encode.length = size + 47 := by
    intro tx htx
    obtain ⟨nonce, hnonce, rfl⟩ := mem_map.1 htx
    exact length_encode_paddedTransfer ((mem_range.1 hnonce).trans_le hcount) hlower hupper
  rw [encodedBytes, map_congr_left hlength, map_const', sum_replicate, length_map, length_range,
    smul_eq_mul]

/-- The transfers of the sender. -/
abbrev bulkyTransfer : Transaction := paddedTransfer 131019 nonce

variable (c : PayloadBuildContext Unit)

def received : PayloadBuildContext Unit :=
  { c with
    payload := { c.payload with
      body := { c.payload.body with
        transactions := c.payload.body.transactions ++ [bulkyTransfer nonce] } }
    remainingGas := saturatingSub c.remainingGas 1331190
    cumulativeGasSpent := c.cumulativeGasSpent + 1331190
    blockRegularGasUsed := saturatingAdd c.blockRegularGasUsed (saturatingSub 1331190 0)
    blockStateGasUsed := saturatingAdd c.blockStateGasUsed 0
    receipts := c.receipts ++ [⟨.eip1559, true, c.cumulativeGasSpent + 1331190, [], none, none⟩]
    blockValue := c.blockValue + 1331190 * 1 }

theorem applyTxToPayload_transfer {c : PayloadBuildContext Unit}
    (h : c.isAmsterdam = false) :
    applyTxToPayload osakaBuilder ⟨pooledTransfer 131019 nonce, 1⟩ c = (.ok (), received nonce c) := by
  cases c
  cases h
  rfl

theorem fillStep_transfer {nonce : Nat} {nonces : List Nat} {c : PayloadBuildContext Unit}
    (hnonce : nonce < 128) (hamsterdam : c.isAmsterdam = false)
    (hgas : 1400000 ≤ c.remainingGas.val) (hsize : c.payloadSize + 131062 ≤ maxRlpBlockSize) :
    fillStep osakaBuilder ⟨c, transferQueue 131019 (nonce :: nonces), noBlobs⟩ =
      .ok (some ⟨received nonce { c with payloadSize := c.payloadSize + 131062 },
        transferQueue 131019 nonces, noBlobs⟩) := by
  have hlen : (bulkyTransfer nonce).encodeCanonicalLen = 131062 :=
    encodeCanonicalLen_paddedTransfer hnonce (by decide) (by decide)
  have hlow : ¬ c.remainingGas < txGasCost := by
    rw [Fin.lt_def, show txGasCost.val = 21000 from rfl]
    omega
  have hreserved : ¬ c.remainingGas < txGasReservation c.isAmsterdam (bulkyTransfer nonce) := by
    rw [hamsterdam, Fin.lt_def, show (txGasReservation false (bulkyTransfer nonce)).val = 1400000
      from rfl]
    omega
  apply fillStep_accepted ⟨pooledTransfer 131019 nonce, 1⟩ false hlow rfl hreserved
  · show c.payloadSize + (bulkyTransfer nonce).encodeCanonicalLen ≤ maxRlpBlockSize
    rw [hlen]
    exact hsize
  · rfl
  · show applyTxToPayload osakaBuilder ⟨pooledTransfer 131019 nonce, 1⟩
      { c with payloadSize := c.payloadSize + (bulkyTransfer nonce).encodeCanonicalLen } = _
    rw [hlen]
    exact applyTxToPayload_transfer nonce hamsterdam
  · show (transferQueue 131019 (nonce :: nonces)).shift.map _ = _
    rw [shift_transferQueue]
    rfl

theorem fillLoop_transfers (more : Nat) (c : PayloadBuildContext Unit)
    (hnonces : ∀ nonce ∈ nonces, nonce < 128) (hamsterdam : c.isAmsterdam = false)
    (hgas : nonces.length * 1400000 ≤ c.remainingGas.val)
    (hsize : c.payloadSize + nonces.length * 131062 ≤ maxRlpBlockSize) :
    fillLoop osakaBuilder (nonces.length + 1 + more) ⟨c, transferQueue 131019 nonces, noBlobs⟩ =
      .ok (nonces.foldl (fun c nonce =>
        received nonce { c with payloadSize := c.payloadSize + 131062 }) c) := by
  induction nonces generalizing c with
  | nil =>
    rw [show [].length + 1 + more = more + 1 by rw [length_nil]; omega, fillLoop, fillStep]
    split
    · rename_i heq
      split at heq <;> cases heq
    · rfl
    · rename_i heq
      split at heq <;> cases heq
  | cons nonce nonces ih =>
    simp only [length_cons] at hgas hsize
    rw [show (nonce :: nonces).length + 1 + more = (nonces.length + 1 + more) + 1 by
      rw [length_cons]; omega, fillLoop, fillStep_transfer (hnonces nonce (by simp)) hamsterdam
      (by omega) (by omega)]
    have hroom : nonces.length * 1400000 ≤ c.remainingGas.val - 1331190 :=
      Nat.le_sub_of_add_le (by omega)
    have hleft : (saturatingSub c.remainingGas 1331190).val = c.remainingGas.val - 1331190 := by
      rw [saturatingSub]
      apply Nat.mod_eq_of_lt
      have := c.remainingGas.isLt
      exact (Nat.sub_le _ _).trans_lt this
    apply ih
    · exact fun n hn => hnonces n (by simp [hn])
    · exact hamsterdam
    · rw [show (received nonce { c with payloadSize := c.payloadSize + 131062 }).remainingGas =
        saturatingSub c.remainingGas 1331190 from rfl, hleft]
      exact hroom
    · rw [show (received nonce { c with payloadSize := c.payloadSize + 131062 }).payloadSize =
        c.payloadSize + 131062 from rfl]
      omega

theorem transactions_transfers :
    (nonces.foldl (fun c nonce =>
      received nonce { c with payloadSize := c.payloadSize + 131062 }) c).payload.body.transactions =
        c.payload.body.transactions ++ nonces.map bulkyTransfer := by
  induction nonces generalizing c with
  | nil => simp
  | cons nonce nonces ih =>
    rw [foldl_cons, ih, map_cons]
    exact append_assoc _ [bulkyTransfer nonce] _

def bulkyArgs : BuildPayloadArgs where
  parent := .repeatByte 6
  timestamp := 1800000000
  feeRecipient := 0xb
  random := .repeatByte 7
  withdrawals := some []
  beaconRoot := some (.repeatByte 8)
  slotNumber := none
  elasticityMultiplier := 2
  gasCeil := 100000000

/-- A parent with a gas limit of 100 million, half of which is used. -/
def bulkyParent : BlockHeader where
  parentHash := .repeatByte 9
  ommersHash := defaultOmmersHash
  coinbase := 0xb
  stateRoot := .repeatByte 1
  transactionsRoot := .repeatByte 2
  receiptsRoot := .repeatByte 3
  number := 100
  gasLimit := 100000000
  gasUsed := 50000000
  timestamp := 1799999988
  prevRandao := .repeatByte 7
  baseFeePerGas := some 7
  withdrawalsRoot := some (.repeatByte 4)
  blobGasUsed := some 0
  excessBlobGas := some 0
  parentBeaconBlockRoot := some (.repeatByte 8)
  requestsHash := some defaultRequestsHash

theorem bulkyTemplate : ∃ template,
    createPayload osakaBuilder.rules osakaBuilder.digests bulkyArgs bulkyParent (some 0) [] =
        .ok template ∧
      template.length = 612 ∧ template.header.gasLimit.val = 100000000 := by
  have htemplate : (createPayload osakaBuilder.rules osakaBuilder.digests bulkyArgs bulkyParent
      (some 0) []).toOption.map (fun t => (t.length, t.header.gasLimit.val)) =
        some (612, 100000000) := by
    decide +kernel
  cases hcreate : createPayload osakaBuilder.rules osakaBuilder.digests bulkyArgs bulkyParent
      (some 0) [] with
  | error e =>
    rw [hcreate] at htemplate
    cases htemplate
  | ok template =>
    rw [hcreate] at htemplate
    simp only [Except.toOption, Option.map_some, Option.some.injEq, Prod.mk.injEq] at htemplate
    exact ⟨template, rfl, htemplate⟩

/-- Up to 64 of the transfers are all taken into the block. -/
theorem buildPayload_transfers {count : Nat} {template : Block} (hcount : count ≤ 64)
    (hcreate : createPayload osakaBuilder.rules osakaBuilder.digests bulkyArgs bulkyParent (some 0)
      [] = .ok template)
    (hlength : template.length = 612) (hgas : template.header.gasLimit.val = 100000000) :
    ∃ c, buildPayload osakaBuilder template 1 () (transferQueue 131019 (List.range count)) noBlobs =
        .ok c ∧
      c.payload.body.transactions = (List.range count).map bulkyTransfer := by
  have hlimit : maxRlpBlockSize = 8388608 := rfl
  have hstart : startPayload osakaBuilder template 1 () =
      .ok (PayloadBuildContext.new osakaBuilder.rules template 1 ()) := rfl
  have hfill := fillLoop_transfers (List.range count) 0
    (PayloadBuildContext.new osakaBuilder.rules template 1 ())
    (fun nonce hnonce => (mem_range.1 hnonce).trans_le (hcount.trans (by decide))) rfl
    (by
      rw [length_range]
      show count * 1400000 ≤ template.header.gasLimit.val
      omega)
    (by
      rw [length_range]
      show template.length + count * 131062 ≤ maxRlpBlockSize
      omega)
  set filled := (List.range count).foldl (fun c nonce =>
    received nonce { c with payloadSize := c.payloadSize + 131062 })
      (PayloadBuildContext.new osakaBuilder.rules template 1 ()) with hfilled
  have hbuild : buildPayload osakaBuilder template 1 () (transferQueue 131019 (List.range count)) noBlobs =
      finishPayload osakaBuilder filled := by
    rw [buildPayload, hstart]
    show (fillTransactions osakaBuilder _ _ _).bind _ = _
    rw [fillTransactions, size_transferQueue, show noBlobs.size = 0 from rfl, hfill]
    rfl
  obtain ⟨c, hfinish⟩ : ∃ c, finishPayload osakaBuilder filled = .ok c := ⟨_, rfl⟩
  refine ⟨c, hbuild.trans hfinish, ?_⟩
  rw [(finishPayload_eq hfinish).1, hfilled, transactions_transfers,
    show (PayloadBuildContext.new osakaBuilder.rules template 1 ()).payload.body.transactions = []
      from (createPayload_eq hcreate).1, nil_append]

/-- One transfer less leaves room for all string headers. -/
theorem built_fits_transfers : ∃ template c,
    createPayload osakaBuilder.rules osakaBuilder.digests bulkyArgs bulkyParent (some 0) [] =
        .ok template ∧
      buildPayload osakaBuilder template 1 () (transferQueue 131019 (List.range 63)) noBlobs = .ok c ∧
      c.payload.body.transactions = (List.range 63).map bulkyTransfer ∧
      c.payload.length ≤ maxRlpBlockSize := by
  obtain ⟨template, hcreate, hlength, hgas⟩ := bulkyTemplate
  obtain ⟨c, hbuild, htxs⟩ := @buildPayload_transfers 63 _ (by decide) hcreate hlength hgas
  have hlimit : maxRlpBlockSize = 8388608 := rfl
  have hgrowth : finalGrowth = 101 := rfl
  refine ⟨template, c, hcreate, hbuild, htxs, built_fits rfl hcreate (by omega) ?_ hbuild⟩
  intro chosen hchosen _
  rw [transactions_transferQueue, show noBlobs.transactions = 0 from rfl, add_zero] at hchosen
  have hbytes := encodedBytes_le hchosen
  rw [encodedBytes_paddedTransfers (by decide) (by decide) (by decide)] at hbytes
  omega

theorem bulkyPool_overfull : ∃ plainTxs blobTxs template c,
    TransactionQueue.new (transferPool 131019 (List.range 64)) (some 7) = .ok plainTxs ∧
      TransactionQueue.new ∅ (some 7) = .ok blobTxs ∧
      createPayload osakaBuilder.rules osakaBuilder.digests bulkyArgs bulkyParent (some 0) [] =
        .ok template ∧
      template.length ≤ maxRlpBlockSize ∧
      buildPayload osakaBuilder template 1 () plainTxs blobTxs = .ok c ∧
      maxRlpBlockSize < c.payload.length := by
  obtain ⟨template, hcreate, hlength, hgas⟩ := bulkyTemplate
  obtain ⟨c, hbuild, htxs⟩ := buildPayload_transfers le_rfl hcreate hlength hgas
  have hlimit : maxRlpBlockSize = 8388608 := rfl
  have hlower := (buildPayload_filled hcreate hbuild).1.lower
  rw [htxs, encodedBytes_paddedTransfers (by decide) (by decide) (by decide)] at hlower
  exact ⟨_, noBlobs, template, c, new_transferPool 131019 0 (List.range' 1 63), rfl, hcreate,
    by omega, hbuild, by omega⟩

end Ethrex.Payload
