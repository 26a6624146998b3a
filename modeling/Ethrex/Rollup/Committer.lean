import Ethrex.Rollup.Batch

/-!
# The batches of the committer

The blocks behind the last committed one, each with its receipts and fee configuration. Any call of
the stores and the L1 client can fail, and the L1 fork and the state root of the checkpoint can be
anything.
-/

namespace Ethrex.Rollup

open Payload (Receipt BlobsBundle)
open L2 (FeeConfig Fork)

/-- The calls to stores and clients that can fail. -/
inductive ExternalCall
  | readTrustedBlock | getReceipt | checkpoint | getFeeConfig | getL1ActiveFork | stateTrie
  | forkchoiceUpdate
  deriving DecidableEq, Repr

/-- `CommitterError`, as far as the function returns it. -/
inductive CommitterError
  | failed (call : ExternalCall)
  | retrievalError (message : String)
  | invalidPrivilegedTransaction
  | privilegedTransaction (e : PrivilegedTransactionError)
  | unexpectedError (message : String)
  | unreachable (message : String)
  | blobsBundle
  | tryInto
  deriving DecidableEq, Repr

def emptyBundle : BlobsBundle := ⟨[], [], [], 0⟩

def commitmentAndProofs (kzg : Kzg) (version : Nat) (blob : Bytes) : Option (Bytes × List Bytes) :=
  if version = 0 then (kzg.blobToKzgCommitmentAndProof blob).map fun r => (r.1, [r.2])
  else kzg.blobToCommitmentAndCellProofs blob

/-- The loop of `BlobsBundle::create_from_blobs`: the commitments and the proofs. -/
def commitmentsAndProofs (kzg : Kzg) (version : Nat) : List Bytes → Option (List Bytes × List Bytes)
  | [] => some ([], [])
  | blob :: blobs => do
    let first ← commitmentAndProofs kzg version blob
    let rest ← commitmentsAndProofs kzg version blobs
    return (first.1 :: rest.1, first.2 ++ rest.2)

def createFromBlobs (kzg : Kzg) (blobs : List Bytes) (wrapperVersion : Option Nat) :
    Option BlobsBundle :=
  (commitmentsAndProofs kzg (wrapperVersion.getD 0) blobs).map fun r =>
    { blobs, commitments := r.1, proofs := r.2, version := wrapperVersion.getD 0 }

def bundleOfBlob (kzg : Kzg) (fork : Fork) (blob : Bytes) : Option BlobsBundle :=
  createFromBlobs kzg [blob] (if fork.ctorIdx ≤ Fork.prague.ctorIdx then none else some 1)

def generateBlobsBundle (kzg : Kzg) (blocks : List Block) (feeConfigs : List FeeConfig)
    (fork : Fork) : Except CommitterError (BlobsBundle × Nat) :=
  match lengthU64 blocks, lengthU64 feeConfigs with
  | some blocksLen, some feeConfigsLen =>
    if blocksLen ≠ feeConfigsLen then
      .error (.unexpectedError "Blocks and fee configs length mismatch")
    else
      match blobFromBytes (blobData blocks feeConfigs) with
      | none => .error .blobsBundle
      | some blob =>
        match bundleOfBlob kzg fork blob with
        | none => .error .blobsBundle
        | some bundle => .ok (bundle, (blobData blocks feeConfigs).length)
  | _, _ => .error .tryInto

/-- A stored block with the receipts of its execution and its fee configuration. -/
structure StoredBlock where
  block : Block
  receipts : List Receipt
  feeConfig : FeeConfig
  /-- Every transaction has its receipt. -/
  executed : receipts.length = block.body.transactions.length

def StoredBlock.txs (stored : StoredBlock) : List Transaction := stored.block.body.transactions

/-- What the committer reads besides the blocks. -/
structure Committer where
  keccak256 : Bytes → H256
  kzg : Kzg
  chainId : U64
  batchGasLimit : Option U64
  validium : Bool
  blockHash : Block → H256
  /-- The calls that fail, by the number of the block. -/
  fails : ExternalCall → Nat → Bool
  l1ActiveFork : Nat → Fork
  stateRoot : Nat → H256

def privilegedTxBudget : Nat := 300

structure Accumulators where
  lastAddedBlockNumber : Nat
  blobsBundle : BlobsBundle
  accL1InMessages : List PrivilegedL2Transaction
  accL2InMessages : List PrivilegedL2Transaction
  l1OutMessageHashes : List H256
  accL2OutMessages : List L2Message
  accNonPrivilegedTransactions : Nat
  l1InMessageHashes : List H256
  l2InMessageHashes : ChainHashes
  newStateRoot : H256
  accGasUsed : Nat
  accBlocks : List (Nat × H256)
  currentBlocks : List Block
  currentFeeConfigs : List FeeConfig

def Accumulators.new (lastAddedBlockNumber : Nat) : Accumulators where
  lastAddedBlockNumber := lastAddedBlockNumber
  blobsBundle := emptyBundle
  accL1InMessages := []
  accL2InMessages := []
  l1OutMessageHashes := []
  accL2OutMessages := []
  accNonPrivilegedTransactions := 0
  l1InMessageHashes := []
  l2InMessageHashes := ∅
  newStateRoot := .ofNat 0
  accGasUsed := 0
  accBlocks := []
  currentBlocks := []
  currentFeeConfigs := []

namespace Committer

variable (committer : Committer)

def call (c : ExternalCall) (number : Nat) : Except CommitterError Unit :=
  if committer.fails c number then .error (.failed c) else .ok ()

def exceedsGasLimit (accGasUsed gasUsed : Nat) : Bool :=
  committer.batchGasLimit.any fun limit => limit.val < (accGasUsed + gasUsed) % 2 ^ 64

/-- `get_receipt` for every transaction of a block. -/
def getReceipts (number : Nat) (stored : StoredBlock) : Except CommitterError (List Receipt) :=
  if !stored.txs.isEmpty ∧ committer.fails .getReceipt number then .error (.failed .getReceipt)
  else if stored.receipts.length < stored.txs.length then
    .error (.retrievalError "Transactions in a block should have a receipt")
  else .ok (stored.receipts.take stored.txs.length)

/-- The bundle of the blocks with one more, and the blocks and configurations that are kept. -/
def prepareBlob (number : Nat) (stored : StoredBlock) (acc : Accumulators) :
    Except CommitterError (Accumulators × Except CommitterError (BlobsBundle × Nat)) :=
  if committer.validium then .ok (acc, .ok (emptyBundle, 0))
  else do
    committer.call .getFeeConfig number
    let acc :=
      { acc with
        currentBlocks := acc.currentBlocks ++ [stored.block]
        currentFeeConfigs := acc.currentFeeConfigs ++ [stored.feeConfig] }
    committer.call .getL1ActiveFork number
    return (acc, generateBlobsBundle committer.kzg acc.currentBlocks acc.currentFeeConfigs
      (committer.l1ActiveFork number))

def pushL2InHashes (hashes : ChainHashes) (txs : List PrivilegedL2Transaction) :
    Except CommitterError ChainHashes :=
  match pushHashes committer.keccak256 hashes txs with
  | none => .error .invalidPrivilegedTransaction
  | some hashes => .ok hashes

/-- The end of the body of the loop, once the block has its place in the blob. -/
def includeBlock (number : Nat) (stored : StoredBlock) (receipts : List Receipt)
    (l2OutMessages : List L2Message) (bundle : BlobsBundle) (acc : Accumulators) :
    Except CommitterError Accumulators := do
  let l2InMessageHashes ← committer.pushL2InHashes acc.l2InMessageHashes
    (getBlockL2InMessages stored.txs committer.chainId)
  committer.call .stateTrie number
  return { acc with
    lastAddedBlockNumber := acc.lastAddedBlockNumber + 1
    blobsBundle := bundle
    l1InMessageHashes := acc.l1InMessageHashes ++
      (getBlockL1InMessages stored.txs committer.chainId).filterMap
        (PrivilegedL2Transaction.getPrivilegedHash committer.keccak256)
    l2InMessageHashes
    l1OutMessageHashes := acc.l1OutMessageHashes ++
      (getBlockL1Messages committer.keccak256 receipts).map (getL1MessageHash committer.keccak256)
    accL2OutMessages := acc.accL2OutMessages ++ l2OutMessages
    accNonPrivilegedTransactions :=
      acc.accNonPrivilegedTransactions + stored.txs.countP fun tx => !isPrivileged tx
    newStateRoot := committer.stateRoot number
    accGasUsed := (acc.accGasUsed + stored.block.header.gasUsed) % 2 ^ 64
    accBlocks := acc.accBlocks ++ [(acc.lastAddedBlockNumber + 1, committer.blockHash stored.block)] }

/-- The variables after the privileged transactions of a block were counted. -/
def countPrivileged (stored : StoredBlock) (acc : Accumulators) : Accumulators :=
  { acc with
    accL1InMessages := acc.accL1InMessages ++ getBlockL1InMessages stored.txs committer.chainId
    accL2InMessages := acc.accL2InMessages ++ getBlockL2InMessages stored.txs committer.chainId }

def placeBlock (firstBlockOfBatch number : Nat) (stored : StoredBlock) (receipts : List Receipt)
    (l2OutMessages : List L2Message) (acc : Accumulators) :
    Except CommitterError (Bool × Accumulators) := do
  let acc := committer.countPrivileged stored acc
  if acc.accL1InMessages.length + acc.accL2InMessages.length > privilegedTxBudget then
    return (false, acc)
  let (acc, result) ← committer.prepareBlob number stored acc
  match result with
  | .error _ =>
    if number = firstBlockOfBatch then
      .error (.unreachable "Not enough blob space for a single block batch. This means a block was incorrectly produced.")
    else return (false, acc)
  | .ok (bundle, _) =>
    let acc ← committer.includeBlock number stored receipts l2OutMessages bundle acc
    return (true, acc)

/-- The body of the loop for a stored block: whether the loop goes on, and its variables. -/
def addBlock (firstBlockOfBatch : Nat) (stored : StoredBlock) (acc : Accumulators) :
    Except CommitterError (Bool × Accumulators) := do
  let number := acc.lastAddedBlockNumber + 1
  committer.call .readTrustedBlock number
  if committer.exceedsGasLimit acc.accGasUsed stored.block.header.gasUsed then
    return (false, acc)
  let receipts ← committer.getReceipts number stored
  let l2OutMessages := getBlockL2OutMessages committer.keccak256 receipts committer.chainId
  -- the block is executed or its account updates are applied to the checkpoint
  committer.call .checkpoint number
  committer.placeBlock firstBlockOfBatch number stored receipts l2OutMessages acc

def addBlocks (firstBlockOfBatch : Nat) :
    List StoredBlock → Accumulators → Except CommitterError Accumulators
  | [], acc => do
    committer.call .readTrustedBlock (acc.lastAddedBlockNumber + 1)
    return acc
  | stored :: rest, acc => do
    let (continues, acc) ← committer.addBlock firstBlockOfBatch stored acc
    if continues then addBlocks firstBlockOfBatch rest acc else return acc

/-- The result of `prepare_batch_from_block`. -/
structure PreparedBatch where
  blobsBundle : BlobsBundle
  newStateRoot : H256
  l1OutMessageHashes : List H256
  l2OutMessages : List L2Message
  l1InMessagesRollingHash : H256
  l2InMessageRollingHashes : List (U64 × H256)
  lastBlockOfBatch : Nat
  nonPrivilegedTransactions : Nat

/-- The end of `prepare_batch_from_block`, behind the loop. -/
def finishBatch (acc : Accumulators) : Except CommitterError (Option PreparedBatch) :=
  if acc.accBlocks.isEmpty then .ok none
  else
    match computePrivilegedTransactionsHash committer.keccak256 acc.l1InMessageHashes with
    | .error e => .error (.privilegedTransaction e)
    | .ok l1InMessagesRollingHash =>
      match rollingHashes committer.keccak256 acc.l2InMessageHashes with
      | .error e => .error (.privilegedTransaction e)
      | .ok l2InMessageRollingHashes =>
        if committer.fails .forkchoiceUpdate acc.lastAddedBlockNumber then
          .error (.failed .forkchoiceUpdate)
        else
          .ok (some {
            blobsBundle := acc.blobsBundle
            newStateRoot := acc.newStateRoot
            l1OutMessageHashes := acc.l1OutMessageHashes
            l2OutMessages := acc.accL2OutMessages
            l1InMessagesRollingHash
            l2InMessageRollingHashes
            lastBlockOfBatch := acc.lastAddedBlockNumber
            nonPrivilegedTransactions := acc.accNonPrivilegedTransactions })

/-- `L1Committer::prepare_batch_from_block`, with the blocks that are stored behind the last
committed one. -/
def prepareBatchFromBlock (lastAddedBlockNumber : Nat) (blocks : List StoredBlock) :
    Except CommitterError (Option PreparedBatch) := do
  let acc ← committer.addBlocks (lastAddedBlockNumber + 1) blocks (.new lastAddedBlockNumber)
  committer.finishBatch acc

end Committer

end Ethrex.Rollup
