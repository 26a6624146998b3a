import Ethrex.Payload.Queue

/-!
# The payload builder

The machine, the roots, the hashes and the blob sidecars of the pool are parameters. Removals from
the pool do not show in the payload and are left out.
-/

namespace Ethrex.Payload

open Tally

structure Log where
  address : Address
  topics : List H256
  data : Bytes

structure FrameReceipt where
  status : UInt8
  gasUsed : U64
  logs : List Log

structure Receipt where
  txType : TxType
  succeeded : Bool
  cumulativeGasUsed : U64
  logs : List Log
  payer : Option Address := none
  frameReceipts : Option (List FrameReceipt) := none

/-- `ExecutionReport`, as far as the builder reads it. -/
structure ExecutionReport where
  isSuccess : Bool
  gasUsed : U64
  gasSpent : U64
  stateGasUsed : U64
  logs : List Log
  payerAddress : Option Address
  frameResults : Option (List FrameReceipt)

/-- The machine of the builder (`Evm`) with its database, over a type `κ` of checkpoints of the
recorder of the block access list. -/
structure Machine (σ κ : Type) where
  executeTx : Transaction → Address → BlockHeader → σ → Except String ExecutionReport × σ
  undoLastTx : σ → Except String Unit × σ
  setBalIndex : Nat → σ → σ
  recordTouchedAddress : Address → σ → σ
  extendTouchedAddresses : List Address → σ → σ
  /-- Without a recorder there is no checkpoint. -/
  txCheckpoint : σ → Option κ
  txRestore : κ → σ → σ
  applySystemCalls : BlockHeader → σ → Except String Unit × σ
  extractRequests : List Receipt → BlockHeader → σ → Except String (List Bytes) × σ
  processWithdrawals : List Withdrawal → σ → Except String Unit × σ
  /-- The hash of the block access list; none without a recorder. -/
  takeBal : σ → Option H256 × σ
  /-- `get_state_transitions` and `apply_account_updates_batch`. -/
  stateRoot : σ → Except String H256

structure Digests where
  hash : Transaction → H256
  transactionsRoot : List Transaction → H256
  receiptsRoot : List Receipt → H256
  withdrawalsRoot : List Withdrawal → H256
  requestsHash : List Bytes → H256
  bloomFromLogs : List Log → FixedBytes 256

/-- What the chain configuration says at the block that is built. -/
structure Rules where
  eip155 : Bool
  shanghai : Bool
  cancun : Bool
  prague : Bool
  osaka : Bool
  amsterdam : Bool
  hegota : Bool
  lStar : Bool

structure BlobsBundle where
  blobs : List Bytes
  commitments : List Bytes
  proofs : List Bytes
  version : Nat

def BlobsBundle.append (a b : BlobsBundle) : BlobsBundle where
  blobs := a.blobs ++ b.blobs
  commitments := a.commitments ++ b.commitments
  proofs := a.proofs ++ b.proofs
  version := max a.version b.version

structure Sidecars where
  getBlobsBundle : H256 → Option BlobsBundle
  reconstructBlobsBundle : H256 → Option BlobsBundle

/-- All that a build reads beside the payload and the queues. -/
structure Builder (σ κ : Type) where
  machine : Machine σ κ
  digests : Digests
  rules : Rules
  sidecars : Sidecars
  /-- `effective_max_blobs`. -/
  maxBlobs : Nat
  /-- A build on L1 starts with the system calls. -/
  isL1 : Bool

/-- `BuildPayloadArgs`, as far as `create_payload` reads it. -/
structure BuildPayloadArgs where
  parent : H256
  timestamp : U64
  feeRecipient : Address
  random : H256
  withdrawals : Option (List Withdrawal)
  beaconRoot : Option H256
  slotNumber : Option U64
  elasticityMultiplier : U64
  gasCeil : U64

def calcGasLimit (parentGasLimit builderGasCeil : U64) : U64 :=
  let delta := parentGasLimit / 1024 - 1
  let desiredLimit := max builderGasCeil 5000
  if parentGasLimit < desiredLimit then
    if parentGasLimit + delta > desiredLimit then desiredLimit else parentGasLimit + delta
  else if parentGasLimit > desiredLimit then
    if parentGasLimit - delta < desiredLimit then desiredLimit else parentGasLimit - delta
  else parentGasLimit

def saturatingAdd (a b : U64) : U64 := Fin.ofNat _ (min (a.val + b.val) (2 ^ 64 - 1))

def saturatingSub (a b : U64) : U64 := Fin.ofNat _ (a.val - b.val)

def saturatingMul (a b : U64) : U64 := Fin.ofNat _ (min (a.val * b.val) (2 ^ 64 - 1))

/-- The requests hash of a block without requests (`DEFAULT_REQUESTS_HASH`). -/
def defaultRequestsHash : H256 :=
  .ofNat 0xe3b0c44298fc1c149afbf4c8996fb92427ae41e4649b934ca495991b7852b855

/-- `create_payload`, given the header of the parent and the excess blob gas that follows from it. -/
def createPayload (rules : Rules) (digests : Digests) (args : BuildPayloadArgs)
    (parentBlock : BlockHeader) (excessBlobGas : Option U64) (extraData : Bytes) :
    Except InvalidBlockHeaderError Block := do
  let gasLimit := calcGasLimit parentBlock.gasLimit args.gasCeil
  let baseFeePerGas ← calculateBaseFeePerGas gasLimit parentBlock.gasLimit parentBlock.gasUsed
    (parentBlock.baseFeePerGas.getD 0) args.elasticityMultiplier
  .ok {
    header := {
      parentHash := args.parent
      ommersHash := defaultOmmersHash
      coinbase := args.feeRecipient
      stateRoot := parentBlock.stateRoot
      transactionsRoot := digests.transactionsRoot []
      receiptsRoot := digests.receiptsRoot []
      logsBloom := FixedBytes.zero 256
      difficulty := 0
      number := saturatingAdd parentBlock.number 1
      gasLimit
      gasUsed := 0
      timestamp := args.timestamp
      extraData
      prevRandao := args.random
      nonce := 0
      baseFeePerGas
      withdrawalsRoot :=
        if rules.shanghai then some (digests.withdrawalsRoot (args.withdrawals.getD [])) else none
      blobGasUsed := if rules.cancun then some 0 else none
      excessBlobGas
      parentBeaconBlockRoot := args.beaconRoot
      requestsHash := if rules.prague then some defaultRequestsHash else none
      blockAccessListHash := none
      slotNumber := args.slotNumber
      burnedFees := none }
    body := {
      transactions := []
      ommers := []
      withdrawals := if rules.shanghai then some (args.withdrawals.getD []) else none } }

structure PayloadBuildContext (σ : Type) where
  payload : Block
  remainingGas : U64
  cumulativeGasSpent : U64
  blockRegularGasUsed : U64
  blockStateGasUsed : U64
  isAmsterdam : Bool
  receipts : List Receipt
  requests : Option (List Bytes)
  blockValue : Nat
  baseFeePerBlobGas : U256
  blobsBundle : BlobsBundle
  vm : σ
  payloadSize : Nat
  explicitBuild : Bool

namespace PayloadBuildContext

/-- `PayloadBuildContext::new`, given a machine on the state of the parent. -/
def new {σ : Type} (rules : Rules) (payload : Block) (baseFeePerBlobGas : U256) (vm : σ) :
    PayloadBuildContext σ where
  payload
  remainingGas := payload.header.gasLimit
  cumulativeGasSpent := 0
  blockRegularGasUsed := 0
  blockStateGasUsed := 0
  isAmsterdam := rules.amsterdam
  receipts := []
  requests := if rules.prague then some [] else none
  blockValue := 0
  baseFeePerBlobGas
  blobsBundle := ⟨[], [], [], if rules.osaka then 1 else 0⟩
  vm
  payloadSize := payload.length
  explicitBuild := false

def gasUsed {σ : Type} (c : PayloadBuildContext σ) : U64 :=
  if c.isAmsterdam then max c.blockRegularGasUsed c.blockStateGasUsed
  else c.payload.header.gasLimit - c.remainingGas

end PayloadBuildContext

def txGasCost : U64 := 21000

def txMaxGasLimitAmsterdam : U64 := 2 ^ 24

def gasPerBlob : Nat := 2 ^ 17

/-- `MAX_RLP_BLOCK_SIZE`: 10 MiB less a margin of 2 MiB. -/
def maxRlpBlockSize : Nat := 10485760 - 2097152

section Apply

variable {σ κ : Type} (b : Builder σ κ)

def check2dGasAllowance (tx : Transaction) (blockGasUsedRegular blockGasUsedState blockGasLimit : U64) :
    Bool :=
  min tx.gasLimit txMaxGasLimitAmsterdam ≤ saturatingSub blockGasLimit blockGasUsedRegular ∧
    tx.gasLimit ≤ saturatingSub blockGasLimit blockGasUsedState

/-- The receipt that `Evm::execute_tx` makes of a report. -/
def receiptOf (tx : Transaction) (cumulativeGasSpent : U64) (report : ExecutionReport) : Receipt where
  txType := tx.txType
  succeeded := report.isSuccess
  cumulativeGasUsed := cumulativeGasSpent
  logs := report.logs
  payer := if tx.txType = .frame then report.payerAddress else none
  frameReceipts := if tx.txType = .frame then report.frameResults else none

variable (head : HeadTransaction)

/-- `apply_plain_transaction` behind an execution that returned a report: the check of the block's
gas, and the new totals. -/
def settleExecution (report : ExecutionReport)
    (c : PayloadBuildContext σ) : Except ChainError Receipt × PayloadBuildContext σ :=
  let receipt := receiptOf head.tx.inner c.cumulativeGasSpent report
  let newRegular := saturatingAdd c.blockRegularGasUsed (saturatingSub report.gasUsed report.stateGasUsed)
  let newState := saturatingAdd c.blockStateGasUsed report.stateGasUsed
  if c.isAmsterdam ∧ max newRegular newState > c.payload.header.gasLimit then
    match b.machine.undoLastTx c.vm with
    | (.error e, vm) => (.error (.evm e), { c with vm })
    | (.ok (), vm) =>
      (.error (.blockGasLimitExceeded newRegular newState c.payload.header.gasLimit),
        { c with vm, cumulativeGasSpent := saturatingSub c.cumulativeGasSpent report.gasSpent })
  else
    (.ok receipt, { c with
      blockRegularGasUsed := newRegular
      blockStateGasUsed := newState
      remainingGas :=
        if c.isAmsterdam then saturatingSub c.payload.header.gasLimit (max newRegular newState)
        else saturatingSub c.remainingGas report.gasUsed
      blockValue := c.blockValue + report.gasSpent.val * head.tip.val })

variable (c : PayloadBuildContext σ)

def applyPlainTransaction :
    Except ChainError Receipt × PayloadBuildContext σ :=
  match b.machine.executeTx head.tx.inner head.tx.sender c.payload.header c.vm with
  | (.error e, vm) => (.error (.evm e), { c with vm })
  | (.ok report, vm) =>
    settleExecution b head report
      { c with vm, cumulativeGasSpent := c.cumulativeGasSpent + report.gasSpent }

def blobsOf (explicitBuild : Bool) :
    Except ChainError (Nat × Option BlobsBundle) :=
  let txHash := b.digests.hash head.tx.inner
  match b.sidecars.getBlobsBundle txHash with
  | some stored =>
    if stored.blobs.isEmpty then
      match b.sidecars.reconstructBlobsBundle txHash with
      | some full => .ok (full.blobs.length, some full)
      | none => .error (.insufficientCells txHash)
    else .ok (stored.blobs.length, some stored)
  | none =>
    if explicitBuild then .ok (head.tx.inner.blobVersionedHashes.length, none)
    else .error (.noBlobsBundle txHash)

/-- The blob gas of the header after a transaction with so many blobs. -/
def addBlobGas (header : BlockHeader) (blobCount : Nat) : BlockHeader :=
  { header with blobGasUsed := some (header.blobGasUsed.getD 0 + Fin.ofNat _ (blobCount * gasPerBlob)) }

/-- The checks of `apply_blob_transaction` ahead of the execution. -/
def checkBlobs :
    Except ChainError (Nat × Option BlobsBundle) := do
  let (blobCount, bundle) ← blobsOf b head c.explicitBuild
  if b.rules.osaka ∧ bundle.any (fun bundle => bundle.version = 0) then
    .error (.staleSidecar (b.digests.hash head.tx.inner))
  else if (c.payload.header.blobGasUsed.getD 0).val / gasPerBlob + blobCount > b.maxBlobs then
    .error .exceededMaxBlobGasPerBlock
  else .ok (blobCount, bundle)

def applyBlobTransaction :
    Except ChainError Receipt × PayloadBuildContext σ :=
  match checkBlobs b head c with
  | .error e => (.error e, c)
  | .ok (blobCount, bundle) =>
    match applyPlainTransaction b head c with
    | (.error e, c) => (.error e, c)
    | (.ok receipt, c) =>
      (.ok receipt, { c with
        payload := { c.payload with header := addBlobGas c.payload.header blobCount }
        blobsBundle := match bundle with
          | some bundle => c.blobsBundle.append bundle
          | none => c.blobsBundle })

def applyTransaction :
    Except ChainError Receipt × PayloadBuildContext σ :=
  if head.tx.inner.txType = .eip4844 then applyBlobTransaction b head c
  else applyPlainTransaction b head c

def nextBalIndex : Nat :=
  min (c.payload.body.transactions.length + 1) (2 ^ 32 - 1)

def applyTxToPayload :
    Except ChainError Unit × PayloadBuildContext σ :=
  if c.isAmsterdam ∧ !check2dGasAllowance head.tx.inner c.blockRegularGasUsed c.blockStateGasUsed
      c.payload.header.gasLimit then
    (.error .gasAllowanceExceeded, c)
  else
    let indexed := b.machine.setBalIndex (nextBalIndex c) c.vm
    let checkpoint := b.machine.txCheckpoint indexed
    match applyTransaction b head
        { c with vm := b.machine.recordTouchedAddress head.tx.sender indexed } with
    | (.error e, c) =>
      (.error e, { c with vm := checkpoint.elim c.vm fun k => b.machine.txRestore k c.vm })
    | (.ok receipt, c) =>
      (.ok (), { c with
        payload := { c.payload with
          body := { c.payload.body with
            transactions := c.payload.body.transactions ++ [head.tx.inner] } }
        receipts := c.receipts ++ [receipt] })

end Apply

section Fill

variable {σ κ : Type} (b : Builder σ κ)

/-- The state of the loop of `fill_transactions`. -/
structure Filling (σ : Type) where
  context : PayloadBuildContext σ
  plainTxs : TransactionQueue
  blobTxs : TransactionQueue

variable (s : Filling σ)

namespace Filling

/-- The queues without blob transactions when the block is full of blobs. -/
def dropBlobs : Filling σ :=
  if !s.blobTxs.isEmpty ∧ s.context.blobsBundle.commitments.length ≥ b.maxBlobs then
    { s with blobTxs := s.blobTxs.clear }
  else s

def next : Option (HeadTransaction × Bool) :=
  match s.plainTxs.peek, s.blobTxs.peek with
  | none, none => none
  | none, some tx => some (tx, true)
  | some tx, none => some (tx, false)
  | some plain, some blob => if blob.cmp plain = .lt then some (blob, true) else some (plain, false)

def pop (s : Filling σ) (isBlob : Bool) : Filling σ :=
  if isBlob then { s with blobTxs := s.blobTxs.pop } else { s with plainTxs := s.plainTxs.pop }

def shift (s : Filling σ) (isBlob : Bool) : Except ChainError (Filling σ) :=
  if isBlob then s.blobTxs.shift.map fun blobTxs => { s with blobTxs }
  else s.plainTxs.shift.map fun plainTxs => { s with plainTxs }

def size (s : Filling σ) : Nat := s.plainTxs.size + s.blobTxs.size

end Filling

def txGasReservation (isAmsterdam : Bool) (tx : Transaction) : U64 :=
  if isAmsterdam then min tx.gasLimit txMaxGasLimitAmsterdam else tx.gasLimit

/-- The transaction may not be in the block whatever it gives: replay protection before its fork, or
a frame transaction before its fork or behind its deadline. -/
def neverFits (header : BlockHeader) (tx : Transaction) : Bool :=
  (tx.isProtected && !b.rules.eip155) || (tx.txType = .frame && !b.rules.hegota) ||
    match tx with
    | .frame frameTx => frameTx.expiryDeadline.any fun deadline => deadline < header.timestamp
    | _ => false

def tryTransaction (head : HeadTransaction) (isBlob : Bool) :
    Except ChainError (Filling σ) :=
  if neverFits b s.context.payload.header head.tx.inner then .ok (s.pop isBlob)
  else
    match applyTxToPayload b head s.context with
    | (.ok (), context) => Filling.shift { s with context } isBlob
    | (.error _, context) => .ok (Filling.pop { s with context } isBlob)

/-- One round of the loop for the given transaction; none when the loop ends. -/
def fillHead (head : HeadTransaction) (isBlob : Bool) :
    Except ChainError (Option (Filling σ)) :=
  let potentialRlpBlockSize := s.context.payloadSize + head.tx.inner.encodeCanonicalLen
  if s.context.remainingGas < txGasReservation s.context.isAmsterdam head.tx.inner then
    .ok (some (s.pop isBlob))
  else if b.rules.osaka ∧ potentialRlpBlockSize > maxRlpBlockSize then .ok none
  else
    (tryTransaction b { s with context := { s.context with payloadSize := potentialRlpBlockSize } }
      head isBlob).map some

/-- One round of the loop of `fill_transactions`; none when the loop ends. -/
def fillStep : Except ChainError (Option (Filling σ)) :=
  if s.context.remainingGas < txGasCost then .ok none
  else
    let s := s.dropBlobs b
    match s.next with
    | none => .ok none
    | some (head, isBlob) => fillHead b s head isBlob

/-- The loop of `fill_transactions`, for at most so many rounds. -/
def fillLoop : Nat → Filling σ → Except ChainError (PayloadBuildContext σ)
  | 0, s => .ok s.context
  | rounds + 1, s =>
    match fillStep b s with
    | .error e => .error e
    | .ok none => .ok s.context
    | .ok (some s) => fillLoop rounds s

/-- `fill_transactions` with the given queues.  Every round takes a transaction off them. -/
def fillTransactions (context : PayloadBuildContext σ) (plainTxs blobTxs : TransactionQueue) :
    Except ChainError (PayloadBuildContext σ) :=
  fillLoop b (plainTxs.size + blobTxs.size + 1) ⟨context, plainTxs, blobTxs⟩

end Fill

section Finalize

variable {σ κ : Type} (b : Builder σ κ)

def ofMachine {α : Type} (c : PayloadBuildContext σ) (result : Except String α × σ) :
    Except ChainError (α × PayloadBuildContext σ) :=
  match result with
  | (.ok a, vm) => .ok (a, { c with vm })
  | (.error e, _) => .error (.evm e)

variable (c : PayloadBuildContext σ)

/-- The access list enters the phase behind the transactions, with the recipients of withdrawals. -/
def enterPostTxPhase : PayloadBuildContext σ :=
  if b.rules.amsterdam then
    { c with
      vm := b.machine.extendTouchedAddresses
        ((c.payload.body.withdrawals.getD []).map Withdrawal.address)
        (b.machine.setBalIndex (nextBalIndex c) c.vm) }
  else c

def extractRequests (c : PayloadBuildContext σ) : Except ChainError (PayloadBuildContext σ) :=
  if b.rules.prague then do
    let (requests, c) ← ofMachine c (b.machine.extractRequests c.receipts c.payload.header c.vm)
    .ok { c with requests := some requests }
  else .ok c

def computeBurnedFees (baseFeePerGas gasSpent blobBaseFee blobGasUsed : U64) : U64 :=
  saturatingAdd (saturatingMul baseFeePerGas gasSpent) (saturatingMul blobBaseFee blobGasUsed)

/-- The header that `finalize_payload` leaves. -/
def finalHeader (stateRoot : H256) (blockAccessListHash : Option H256) :
    BlockHeader :=
  let header := c.payload.header
  { header with
    stateRoot
    transactionsRoot := b.digests.transactionsRoot c.payload.body.transactions
    receiptsRoot := b.digests.receiptsRoot c.receipts
    requestsHash := c.requests.map b.digests.requestsHash
    gasUsed := c.gasUsed
    blockAccessListHash
    burnedFees :=
      if b.rules.lStar then
        some (computeBurnedFees (header.baseFeePerGas.getD 0)
          ((c.receipts.getLast?.map Receipt.cumulativeGasUsed).getD 0)
          (Fin.ofNat _ (min c.baseFeePerBlobGas.val (2 ^ 64 - 1))) (header.blobGasUsed.getD 0))
      else header.burnedFees
    logsBloom := b.digests.bloomFromLogs (c.receipts.flatMap Receipt.logs) }

def finalizePayload : Except ChainError (PayloadBuildContext σ) :=
  let (blockAccessListHash, vm) := b.machine.takeBal c.vm
  match b.machine.stateRoot vm with
  | .error e => .error (.evm e)
  | .ok stateRoot =>
    .ok { c with
      vm
      payload := { c.payload with header := finalHeader b c stateRoot blockAccessListHash } }

/-- The steps of `build_payload_inner` behind `fill_transactions`. -/
def finishPayload (c : PayloadBuildContext σ) : Except ChainError (PayloadBuildContext σ) := do
  let c ← extractRequests b (enterPostTxPhase b c)
  let (_, c) ← ofMachine c
    (b.machine.processWithdrawals (c.payload.body.withdrawals.getD []) c.vm)
  finalizePayload b c

/-- The steps of `build_payload_inner` ahead of `fill_transactions`. -/
def startPayload (payload : Block) (baseFeePerBlobGas : U256) (vm : σ) :
    Except ChainError (PayloadBuildContext σ) :=
  let c := PayloadBuildContext.new b.rules payload baseFeePerBlobGas vm
  if b.isL1 then (ofMachine c (b.machine.applySystemCalls payload.header vm)).map Prod.snd
  else .ok c

/-- `build_payload`, for the queues that the pool gives. -/
def buildPayload (payload : Block) (baseFeePerBlobGas : U256) (vm : σ)
    (plainTxs blobTxs : TransactionQueue) : Except ChainError (PayloadBuildContext σ) := do
  let c ← startPayload b payload baseFeePerBlobGas vm
  let c ← fillTransactions b c plainTxs blobTxs
  finishPayload b c

end Finalize

end Ethrex.Payload
