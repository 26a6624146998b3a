import Ethrex.Rollup.Messages
import Ethrex.Block.SenderCache
import Ethrex.L2.FeeHook

/-!
# What the guest computes from a batch

The messages of the blocks, their digests and the blob, as the guest computes them. The Merkle tree
and the KZG commitments are parameters.
-/

namespace Ethrex.Rollup

open Payload (Receipt BlobsBundle)
open L2 (FeeConfig OperatorFeeConfig L1FeeConfig safeBytesPerBlob)

/-! ### Privileged transactions -/

def l1InMessage (chainId : U64) : Transaction → Option PrivilegedL2Transaction
  | .privileged tx => if tx.chainId = chainId then some tx else none
  | _ => none

def l2InMessage (chainId : U64) : Transaction → Option PrivilegedL2Transaction
  | .privileged tx => if tx.chainId ≠ chainId then some tx else none
  | _ => none

def getBlockL1InMessages (txs : List Transaction) (chainId : U64) : List PrivilegedL2Transaction :=
  txs.filterMap (l1InMessage chainId)

def getBlockL2InMessages (txs : List Transaction) (chainId : U64) : List PrivilegedL2Transaction :=
  txs.filterMap (l2InMessage chainId)

inductive PrivilegedTransactionError
  | lengthTooLarge
  deriving DecidableEq, Repr

def rollingHash (count : Nat) (digest : H256) : H256 where
  bytes := fixedBeBytes 2 count ++ digest.bytes.drop 2
  size := by rw [List.length_append, length_fixedBeBytes, List.length_drop, digest.size]

variable (keccak256 : Bytes → H256)

def computePrivilegedTransactionsHash (hashes : List H256) :
    Except PrivilegedTransactionError H256 :=
  if hashes.isEmpty then .ok (.ofNat 0)
  else if hashes.length < 2 ^ 16 then
    .ok (rollingHash hashes.length (keccak256 (hashes.flatMap H256.bytes)))
  else .error .lengthTooLarge

/-- `BTreeMap<u64, Vec<H256>>`: the hashes of the messages of each chain. -/
abbrev ChainHashes := Std.ExtTreeMap U64 (List H256)

/-- The loop over messages from other chains; none when a message has no hash. -/
def pushHashes (keccak256 : Bytes → H256) (hashes : ChainHashes) :
    List PrivilegedL2Transaction → Option ChainHashes
  | [] => some hashes
  | tx :: txs =>
    match tx.getPrivilegedHash keccak256 with
    | none => none
    | some hash =>
      pushHashes keccak256 (hashes.insert tx.chainId ((hashes[tx.chainId]?).getD [] ++ [hash])) txs

def rollingHashes (hashes : ChainHashes) :
    Except PrivilegedTransactionError (List (U64 × H256)) :=
  hashes.toList.mapM fun entry =>
    (computePrivilegedTransactionsHash keccak256 entry.2).map fun hash => (entry.1, hash)

structure BatchMessages where
  l1OutMessages : List L1Message
  l2OutMessages : List L2Message
  l1InMessages : List PrivilegedL2Transaction
  l2InMessages : List PrivilegedL2Transaction

def getBatchMessages (keccak256 : Bytes → H256) (chainId : U64) :
    List (Block × List Receipt) → BatchMessages
  | [] => ⟨[], [], [], []⟩
  | (block, receipts) :: rest =>
    let messages := getBatchMessages keccak256 chainId rest
    let txs := block.body.transactions
    { l1OutMessages := getBlockL1Messages keccak256 receipts ++ messages.l1OutMessages
      l2OutMessages := getBlockL2OutMessages keccak256 receipts chainId ++ messages.l2OutMessages
      l1InMessages := getBlockL1InMessages txs chainId ++ messages.l1InMessages
      l2InMessages := getBlockL2InMessages txs chainId ++ messages.l2InMessages }

/-- `L2ExecutionError`, as far as these functions return it. -/
inductive L2ExecutionError
  | privilegedTransaction (e : PrivilegedTransactionError)
  | blobDataInvalidBytesLength
  | kzg
  | invalidBlobProof
  | invalidPrivilegedTransaction
  | tryInto
  deriving DecidableEq, Repr

structure MessageDigests where
  l1OutMessagesMerkleRoot : H256
  l1InMessagesRollingHash : H256
  l2InMessageRollingHashes : List (U64 × H256)

/-- `compute_merkle_root`, over the root of the tree. -/
def computeMerkleRoot (treeRoot : List H256 → Option H256) (hashes : List H256) : H256 :=
  (treeRoot hashes).getD (.ofNat 0)

/-- The hashes of the messages from the L1; none when one has no hash. -/
def l1InMessageHashes (txs : List PrivilegedL2Transaction) :
    Option (List H256) :=
  txs.mapM (PrivilegedL2Transaction.getPrivilegedHash keccak256)

def computeMessageDigests (treeRoot : List H256 → Option H256)
    (messages : BatchMessages) : Except L2ExecutionError MessageDigests :=
  match l1InMessageHashes keccak256 messages.l1InMessages with
  | none => .error .invalidPrivilegedTransaction
  | some hashes =>
    match computePrivilegedTransactionsHash keccak256 hashes with
    | .error e => .error (.privilegedTransaction e)
    | .ok l1InMessagesRollingHash =>
      match pushHashes keccak256 ∅ messages.l2InMessages with
      | none => .error .invalidPrivilegedTransaction
      | some hashes =>
        match rollingHashes keccak256 hashes with
        | .error e => .error (.privilegedTransaction e)
        | .ok l2InMessageRollingHashes =>
          .ok {
            l1OutMessagesMerkleRoot := computeMerkleRoot treeRoot
              (messages.l1OutMessages.map (getL1MessageHash keccak256))
            l1InMessagesRollingHash
            l2InMessageRollingHashes }

def isPrivileged : Transaction → Bool
  | .privileged _ => true
  | _ => false

def nonPrivilegedCount (blocks : List Block) : Nat :=
  (blocks.map fun block => block.body.transactions.countP fun tx => !isPrivileged tx).sum

def operatorFeeBytes (config : OperatorFeeConfig) : Bytes :=
  fixedBeBytes 20 config.operatorFeeVault ++ fixedBeBytes 8 config.operatorFeePerGas

def l1FeeBytes (config : L1FeeConfig) : Bytes :=
  fixedBeBytes 20 config.l1FeeVault ++ fixedBeBytes 8 config.l1FeePerBlobGas

/-- The sum of the `FeeConfigType`s of the fields that are set. -/
def feeConfigType (config : FeeConfig) : UInt8 :=
  (if config.baseFeeVault.isSome then 1 else 0) +
    (if config.operatorFeeConfig.isSome then 2 else 0) +
    (if config.l1FeeConfig.isSome then 4 else 0)

def feeConfigToVec (config : FeeConfig) : Bytes :=
  0 :: feeConfigType config ::
    ((config.baseFeeVault.map fun vault => fixedBeBytes 20 vault).getD [] ++
      (config.operatorFeeConfig.map operatorFeeBytes).getD [] ++
      (config.l1FeeConfig.map l1FeeBytes).getD [])

def bytesPerBlob : Nat := 131072

/-- The chunks of 31 bytes, each behind a zero byte. -/
def fieldElements : Nat → Bytes → Bytes
  | 0, _ => []
  | _ + 1, [] => []
  | fuel + 1, b :: bytes =>
    0 :: (b :: bytes).take 31 ++ fieldElements fuel ((b :: bytes).drop 31)

/-- `blob_from_bytes`; none for `BlobDataInvalidBytesLength`. -/
def blobFromBytes (bytes : Bytes) : Option Bytes :=
  if bytes.length > safeBytesPerBlob then none
  else
    let data := fieldElements bytes.length bytes
    some (data ++ List.replicate (bytesPerBlob - data.length) 0)

def blobData (blocks : List Block) (feeConfigs : List FeeConfig) : Bytes :=
  fixedBeBytes 8 blocks.length ++ blocks.flatMap Block.encode ++ feeConfigs.flatMap feeConfigToVec

/-- The functions of `ethrex_crypto::kzg`, with none for an error. -/
structure Kzg where
  verifyBlobKzgProof : Bytes → Bytes → Bytes → Option Bool
  blobToKzgCommitmentAndProof : Bytes → Option (Bytes × Bytes)
  blobToCommitmentAndCellProofs : Bytes → Option (Bytes × List Bytes)
  /-- `kzg_commitment_to_versioned_hash`. -/
  versionedHash : Bytes → H256

def lengthU64 {α : Type} (xs : List α) : Option Nat :=
  if xs.length < 2 ^ 64 then some xs.length else none

/-- The blob that `verify_blob` rebuilds. -/
def rebuildBlob (blocks : List Block) (feeConfigs : List FeeConfig) :
    Except L2ExecutionError Bytes :=
  match lengthU64 blocks with
  | none => .error .tryInto
  | some _ =>
    match blobFromBytes (blobData blocks feeConfigs) with
    | none => .error .blobDataInvalidBytesLength
    | some blob => .ok blob

/-- `verify_blob`.  Commitments and proofs have 48 bytes; zeros stand for a validium. -/
def verifyBlob (kzg : Kzg) (blocks : List Block) (feeConfigs : List FeeConfig)
    (commitment proof : FixedBytes 48) : Except L2ExecutionError H256 :=
  if commitment = .zero 48 ∧ proof = .zero 48 then .ok (.ofNat 0)
  else
    match rebuildBlob blocks feeConfigs with
    | .error e => .error e
    | .ok blob =>
      match kzg.verifyBlobKzgProof blob commitment.val proof.val with
      | none => .error .kzg
      | some false => .error .invalidBlobProof
      | some true => .ok (kzg.versionedHash commitment.val)

end Ethrex.Rollup
