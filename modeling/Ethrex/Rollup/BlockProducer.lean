import Ethrex.Payload.Size
import Ethrex.Rollup.Committer

/-!
# The payload builder of the L2

`build_payload` and `fill_transactions` of the block producer, over the context of the L1 builder.
There are no system operations, and filling stops when the block would not fit in a blob.
-/

namespace Ethrex.Rollup

open Payload (Builder ChainError HeadTransaction PayloadBuildContext Receipt TransactionQueue
  applyPlainTransaction check2dGasAllowance finalizePayload nextBalIndex txGasCost)
open L2 (FeeConfig safeBytesPerBlob)

inductive VMType
  | l1
  | l2 (feeConfig : FeeConfig)

/-- `BlockProducerError`, as far as a build returns it. -/
inductive BlockProducerError
  | chain (e : ChainError)
  | evm (message : String)
  | store (message : String)
  | custom (message : String)
  deriving DecidableEq, Repr

/-- All that a build of the L2 reads beside the payload and the queue. -/
structure BlockProducer (σ κ : Type) where
  builder : Builder σ κ
  vmType : VMType
  keccak256 : Bytes → H256
  chainId : U64
  /-- `block_gas_limit` of the configuration; the limit of the header may be higher. -/
  configuredBlockGasLimit : U64
  registeredChains : List U256
  /-- `get_account_info` at the latest block, as far as the nonce goes. -/
  accountNonce : Address → Except String (Option U64)

def eip1559DefaultSerializedLength : Nat := 15

/-- The state of the loop of `fill_transactions`. -/
structure L2Filling (σ : Type) where
  context : PayloadBuildContext σ
  txs : TransactionQueue
  /-- The last nonce of each source chain; no entry and an entry without a nonce mean the same. -/
  privilegedNonces : U64 → Option U64
  privilegedTxCount : Nat
  accEncodedSize : Nat

namespace BlockProducer

variable {σ κ : Type} (p : BlockProducer σ κ) (feeConfig : FeeConfig)

/-! ### The checks of a round -/

variable (s : L2Filling σ)

def isFull : Bool :=
  s.context.remainingGas < txGasCost ||
    p.configuredBlockGasLimit ≤ s.context.gasUsed + txGasCost ||
    s.accEncodedSize + (feeConfigToVec feeConfig).length + eip1559DefaultSerializedLength >
      safeBytesPerBlob

/-- There is not enough gas left for the transaction, in the header or in the configuration. -/
def lacksGas (tx : Transaction) : Bool :=
  s.context.remainingGas < tx.gasLimit ||
    p.configuredBlockGasLimit ≤ s.context.gasUsed + tx.gasLimit

/-- A privileged transaction above the budget, or not the next one of its chain. -/
def isOutOfTurn : Transaction → Bool
  | .privileged tx =>
    s.privilegedTxCount ≥ privilegedTxBudget ||
      (s.privilegedNonces tx.chainId).any fun lastNonce => tx.nonce ≠ lastNonce + 1
  | _ => false

variable (head : HeadTransaction)

/-- The transaction may not be in the block: replay protection before its fork, a nonce that is too
low, or a failed check of the two dimensions of gas. -/
def isIneligible : Except BlockProducerError Bool :=
  let tx := head.tx.inner
  if tx.isProtected && !p.builder.rules.eip155 then .ok true
  else
    match p.accountNonce head.tx.sender with
    | .error e => .error (.store e)
    | .ok accountNonce =>
      .ok (accountNonce.any (fun nonce => tx.nonce < nonce) && !isPrivileged tx ||
        p.builder.rules.amsterdam && !check2dGasAllowance tx s.context.blockRegularGasUsed
          s.context.blockStateGasUsed p.configuredBlockGasLimit)

def isSkipped : Except BlockProducerError Bool :=
  if isOutOfTurn s head.tx.inner then .ok true else p.isIneligible s head

/-- The execution of the next transaction: its receipt, or none when it is left out. A message to an
unregistered chain undoes it. -/
def execute (c : PayloadBuildContext σ) :
    Except BlockProducerError (Option Receipt × PayloadBuildContext σ) :=
  let machine := p.builder.machine
  let indexed := machine.setBalIndex (nextBalIndex c) c.vm
  let restore (vm : σ) : σ := (machine.txCheckpoint indexed).elim vm fun k => machine.txRestore k vm
  match applyPlainTransaction p.builder head
      { c with vm := machine.recordTouchedAddress head.tx.sender indexed } with
  | (.error _, after) => .ok (none, { after with vm := restore after.vm })
  | (.ok receipt, after) =>
    let l2Messages := getBlockL2OutMessages p.keccak256 [receipt] p.chainId
    if l2Messages.all fun msg => p.registeredChains.contains msg.destChainId then
      .ok (some receipt, after)
    else
      match machine.undoLastTx after.vm with
      | (.error e, _) => .error (.evm e)
      | (.ok (), vm) =>
        .ok (none, { after with
          vm := restore vm
          remainingGas := c.remainingGas
          blockValue := c.blockValue
          cumulativeGasSpent := c.cumulativeGasSpent
          blockRegularGasUsed := c.blockRegularGasUsed
          blockStateGasUsed := c.blockStateGasUsed })

def countPrivileged (tx : Transaction) (s : L2Filling σ) : L2Filling σ :=
  match tx with
  | .privileged privilegedTx =>
    { s with
      privilegedNonces := Function.update s.privilegedNonces privilegedTx.chainId
        (some privilegedTx.nonce)
      privilegedTxCount := s.privilegedTxCount + 1 }
  | _ => s

def addToPayload (tx : Transaction) (receipt : Receipt) (c : PayloadBuildContext σ) :
    PayloadBuildContext σ :=
  { c with
    payload := { c.payload with
      body := { c.payload.body with transactions := c.payload.body.transactions ++ [tx] } }
    receipts := c.receipts ++ [receipt] }

def tryTransaction :
    Except BlockProducerError (L2Filling σ) :=
  match p.execute head s.context with
  | .error e => .error e
  | .ok (none, context) => .ok { s with context, txs := s.txs.pop }
  | .ok (some receipt, context) =>
    match s.txs.shift with
    | .error e => .error (.chain e)
    | .ok txs =>
      .ok (countPrivileged head.tx.inner { s with
        context := addToPayload head.tx.inner receipt context
        txs
        accEncodedSize := s.accEncodedSize + head.tx.inner.encode.length })

/-- One round of the loop for the given transaction; none when the loop ends. -/
def fillHead :
    Except BlockProducerError (Option (L2Filling σ)) :=
  if p.lacksGas s head.tx.inner then .ok (some { s with txs := s.txs.pop })
  else if s.accEncodedSize + (feeConfigToVec feeConfig).length + head.tx.inner.encode.length >
      safeBytesPerBlob then
    .ok none
  else
    match p.isSkipped s head with
    | .error e => .error e
    | .ok true => .ok (some { s with txs := s.txs.pop })
    | .ok false => (p.tryTransaction s head).map some

def fillStep : Except BlockProducerError (Option (L2Filling σ)) :=
  if p.isFull feeConfig s then .ok none
  else
    match s.txs.peek with
    | none => .ok none
    | some head => p.fillHead feeConfig s head

def fillLoop : Nat → L2Filling σ → Except BlockProducerError (L2Filling σ)
  | 0, s => .ok s
  | rounds + 1, s =>
    match p.fillStep feeConfig s with
    | .error e => .error e
    | .ok none => .ok s
    | .ok (some s) => fillLoop rounds s

/-- `fill_transactions` with the given queue.  Every round takes a transaction off it. -/
def fillTransactions (context : PayloadBuildContext σ) (txs : TransactionQueue)
    (privilegedNonces : U64 → Option U64) : Except BlockProducerError (L2Filling σ) :=
  match p.vmType with
  | .l1 => .error (.custom "invalid VM type")
  | .l2 feeConfig =>
    p.fillLoop feeConfig (txs.size + 1) {
      context
      txs
      privilegedNonces
      privilegedTxCount := 0
      accEncodedSize := context.payload.length }

/-- `build_payload`, for the queue of plain transactions that the pool gives: the context with the
built payload, and the nonces of the privileged transactions. -/
def buildPayload (payload : Block) (baseFeePerBlobGas : U256) (vm : σ) (txs : TransactionQueue)
    (privilegedNonces : U64 → Option U64) :
    Except BlockProducerError (PayloadBuildContext σ × (U64 → Option U64)) :=
  match p.fillTransactions
      (PayloadBuildContext.new p.builder.rules payload baseFeePerBlobGas vm) txs privilegedNonces with
  | .error e => .error e
  | .ok s =>
    match finalizePayload p.builder s.context with
    | .error e => .error (.chain e)
    | .ok context => .ok (context, s.privilegedNonces)

end BlockProducer

end Ethrex.Rollup
