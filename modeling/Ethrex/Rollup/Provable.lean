import Ethrex.Rollup.Committer

/-!
# Committed batches and the guest

The committer adds up block by block what the guest computes from all blocks, but leaves out the
hashes that privileged creations do not have, on which the guest fails.
-/

namespace Ethrex.Rollup

open List

open Payload (Receipt BlobsBundle)

variable {committer : Committer} {keccak256 : Bytes → H256}

/-! ### What the guest has to compute -/

def guestInput (stored : List StoredBlock) : List (Block × List Receipt) :=
  stored.map fun s => (s.block, s.receipts)

/-- The bundle holds the blob that `verify_blob` rebuilds from the blocks; a validium has none. -/
def BlobAgrees (committer : Committer) (stored : List StoredBlock) (bundle : BlobsBundle) : Prop :=
  if committer.validium then
    bundle = emptyBundle ∧ verifyBlob committer.kzg (stored.map (·.block)) (stored.map (·.feeConfig))
      (.zero 48) (.zero 48) = .ok (.ofNat 0)
  else
    ∃ blob, bundle.blobs = [blob] ∧
      rebuildBlob (stored.map (·.block)) (stored.map (·.feeConfig)) = .ok blob

/-- The guest functions return for the blocks what the batch says. -/
def GuestAgrees (committer : Committer) (treeRoot : List H256 → Option H256)
    (stored : List StoredBlock) (batch : Committer.PreparedBatch) : Prop :=
  let messages := getBatchMessages committer.keccak256 committer.chainId (guestInput stored)
  ∃ digests,
    computeMessageDigests committer.keccak256 treeRoot messages = .ok digests ∧
    digests.l1InMessagesRollingHash = batch.l1InMessagesRollingHash ∧
    digests.l2InMessageRollingHashes = batch.l2InMessageRollingHashes ∧
    messages.l1OutMessages.map (getL1MessageHash committer.keccak256) = batch.l1OutMessageHashes ∧
    messages.l2OutMessages = batch.l2OutMessages ∧
    nonPrivilegedCount (stored.map (·.block)) = batch.nonPrivilegedTransactions ∧
    BlobAgrees committer stored batch.blobsBundle

/-! ### The loops of both sides -/

theorem pushHashes_append (hashes : ChainHashes) (xs ys : List PrivilegedL2Transaction) :
    pushHashes keccak256 hashes (xs ++ ys) =
      (pushHashes keccak256 hashes xs).bind (pushHashes keccak256 · ys) := by
  induction xs generalizing hashes with
  | nil => rfl
  | cons tx xs ih =>
    rw [cons_append, pushHashes, pushHashes]
    cases tx.getPrivilegedHash keccak256 with
    | none => rfl
    | some hash => exact ih _

theorem getPrivilegedHash_isSome (keccak256 : Bytes → H256) {tx : PrivilegedL2Transaction} :
    (tx.getPrivilegedHash keccak256).isSome ↔ tx.recipient ≠ .create := by
  rw [PrivilegedL2Transaction.getPrivilegedHash, Option.isSome_map,
    PrivilegedL2Transaction.hashPreimage]
  cases tx.recipient with
  | call recipient => exact iff_of_true rfl TxKind.noConfusion
  | create => exact iff_of_false Bool.false_ne_true fun h => h rfl

theorem l1InMessageHashes_eq_some {txs : List PrivilegedL2Transaction} {hashes : List H256} :
    l1InMessageHashes keccak256 txs = some hashes ↔
      (∀ tx ∈ txs, tx.recipient ≠ .create) ∧
        txs.filterMap (PrivilegedL2Transaction.getPrivilegedHash keccak256) = hashes := by
  induction txs generalizing hashes with
  | nil => simp [l1InMessageHashes]
  | cons tx txs ih =>
    have hcons : l1InMessageHashes keccak256 (tx :: txs) = (tx.getPrivilegedHash keccak256).bind
        fun hash => (l1InMessageHashes keccak256 txs).map (hash :: ·) := by
      rw [l1InMessageHashes, mapM_cons, ← l1InMessageHashes]
      cases tx.getPrivilegedHash keccak256 with
      | none => rfl
      | some hash => cases l1InMessageHashes keccak256 txs <;> rfl
    rw [hcons, forall_mem_cons, ← getPrivilegedHash_isSome keccak256]
    cases hhash : tx.getPrivilegedHash keccak256 with
    | none => simp
    | some hash =>
      rw [filterMap_cons_some hhash, Option.bind_some, Option.map_eq_some_iff]
      constructor
      · rintro ⟨rest, hrest, rfl⟩
        obtain ⟨hcalls, rfl⟩ := ih.1 hrest
        exact ⟨⟨rfl, hcalls⟩, rfl⟩
      · rintro ⟨⟨-, hcalls⟩, rfl⟩
        exact ⟨_, ih.2 ⟨hcalls, rfl⟩, rfl⟩

section Messages

variable {chainId : U64}

def BatchMessages.append (a b : BatchMessages) : BatchMessages where
  l1OutMessages := a.l1OutMessages ++ b.l1OutMessages
  l2OutMessages := a.l2OutMessages ++ b.l2OutMessages
  l1InMessages := a.l1InMessages ++ b.l1InMessages
  l2InMessages := a.l2InMessages ++ b.l2InMessages

def blockMessages (keccak256 : Bytes → H256) (chainId : U64) (block : Block)
    (receipts : List Receipt) : BatchMessages where
  l1OutMessages := getBlockL1Messages keccak256 receipts
  l2OutMessages := getBlockL2OutMessages keccak256 receipts chainId
  l1InMessages := getBlockL1InMessages block.body.transactions chainId
  l2InMessages := getBlockL2InMessages block.body.transactions chainId

theorem BatchMessages.append_assoc (a b c : BatchMessages) :
    (a.append b).append c = a.append (b.append c) := by
  simp only [BatchMessages.append, List.append_assoc]

theorem getBatchMessages_append (xs ys : List (Block × List Receipt)) :
    getBatchMessages keccak256 chainId (xs ++ ys) =
      (getBatchMessages keccak256 chainId xs).append (getBatchMessages keccak256 chainId ys) := by
  induction xs with
  | nil => rfl
  | cons x xs ih =>
    obtain ⟨block, receipts⟩ := x
    show (blockMessages keccak256 chainId block receipts).append
      (getBatchMessages keccak256 chainId (xs ++ ys)) = _
    rw [ih, ← BatchMessages.append_assoc]
    rfl

theorem l1InMessages_eq (xs : List (Block × List Receipt)) :
    (getBatchMessages keccak256 chainId xs).l1InMessages =
      xs.flatMap fun x => getBlockL1InMessages x.1.body.transactions chainId := by
  induction xs with
  | nil => rfl
  | cons x xs ih =>
    rw [flatMap_cons, ← ih]
    rfl

end Messages

section Step

variable {last first number : Nat} {done : List StoredBlock} {stored : StoredBlock}
  {acc acc' : Accumulators} {bundle : BlobsBundle}

/-- The variables that are returned, after the blocks were included. -/
structure Included (committer : Committer) (last : Nat) (done : List StoredBlock)
    (acc : Accumulators) : Prop where
  number : acc.lastAddedBlockNumber = last + done.length
  blocks : acc.accBlocks.length = done.length
  messages :
    let messages := getBatchMessages committer.keccak256 committer.chainId (guestInput done)
    messages.l1OutMessages.map (getL1MessageHash committer.keccak256) = acc.l1OutMessageHashes ∧
    messages.l2OutMessages = acc.accL2OutMessages ∧
    messages.l1InMessages.filterMap
      (PrivilegedL2Transaction.getPrivilegedHash committer.keccak256) = acc.l1InMessageHashes ∧
    pushHashes committer.keccak256 ∅ messages.l2InMessages = some acc.l2InMessageHashes
  count : nonPrivilegedCount (done.map (·.block)) = acc.accNonPrivilegedTransactions
  blob : done ≠ [] → BlobAgrees committer done acc.blobsBundle

def Ready (committer : Committer) (done : List StoredBlock) (acc : Accumulators) : Prop :=
  committer.validium = false →
    acc.currentBlocks = done.map (·.block) ∧ acc.currentFeeConfigs = done.map (·.feeConfig)

/-- The variables that only matter while the loop goes on were changed. -/
def SameResult (acc acc' : Accumulators) : Prop :=
  acc' = { acc with
    accL1InMessages := acc'.accL1InMessages
    accL2InMessages := acc'.accL2InMessages
    currentBlocks := acc'.currentBlocks
    currentFeeConfigs := acc'.currentFeeConfigs }

theorem SameResult.included (hsame : SameResult acc acc')
    (h : Included committer last done acc) : Included committer last done acc' := by
  rw [hsame]
  exact ⟨h.number, h.blocks, h.messages, h.count, h.blob⟩

theorem included_new (last : Nat) : Included committer last [] (.new last) where
  number := rfl
  blocks := rfl
  messages := ⟨rfl, rfl, rfl, rfl⟩
  count := rfl
  blob h := absurd rfl h

variable {kzg : Kzg} {size : Nat} {receipts : List Receipt}

theorem commitmentsAndProofs_blobs {blobs : List Bytes} {version : Option Nat}
    (h : createFromBlobs kzg blobs version = some bundle) : bundle.blobs = blobs := by
  rw [createFromBlobs, Option.map_eq_some_iff] at h
  obtain ⟨r, -, rfl⟩ := h
  rfl

theorem generateBlobsBundle_eq_ok {blocks : List Block} {configs : List L2.FeeConfig}
    {fork : L2.Fork} (h : generateBlobsBundle kzg blocks configs fork = .ok (bundle, size)) :
    ∃ blob, bundle.blobs = [blob] ∧ rebuildBlob blocks configs = .ok blob := by
  rw [generateBlobsBundle] at h
  rw [rebuildBlob]
  cases hblocks : lengthU64 blocks with
  | none =>
    rw [hblocks] at h
    cases h
  | some blocksLen =>
    cases hconfigs : lengthU64 configs with
    | none =>
      rw [hblocks, hconfigs] at h
      cases h
    | some configsLen =>
      rw [hblocks, hconfigs] at h
      simp only at h ⊢
      split_ifs at h
      cases hblob : blobFromBytes (blobData blocks configs) with
      | none =>
        rw [hblob] at h
        cases h
      | some blob =>
        rw [hblob] at h
        simp only at h ⊢
        cases hbundle : bundleOfBlob kzg fork blob with
        | none =>
          rw [hbundle] at h
          cases h
        | some bundle' =>
          rw [hbundle] at h
          cases h
          exact ⟨blob, commitmentsAndProofs_blobs hbundle, rfl⟩

theorem Committer.prepareBlob_eq_ok {result : Except CommitterError (BlobsBundle × Nat)}
    (h : committer.prepareBlob number stored acc = .ok (acc', result)) :
    SameResult acc acc' ∧ acc'.accL1InMessages = acc.accL1InMessages ∧
      acc'.accL2InMessages = acc.accL2InMessages ∧
    ((committer.validium = true ∧ result = .ok (emptyBundle, 0)) ∨
      (committer.validium = false ∧ acc'.currentBlocks = acc.currentBlocks ++ [stored.block] ∧
        acc'.currentFeeConfigs = acc.currentFeeConfigs ++ [stored.feeConfig] ∧
        result = generateBlobsBundle committer.kzg acc'.currentBlocks acc'.currentFeeConfigs
          (committer.l1ActiveFork number))) := by
  rw [Committer.prepareBlob] at h
  split at h
  case isTrue hvalidium =>
    cases h
    exact ⟨rfl, rfl, rfl, Or.inl ⟨hvalidium, rfl⟩⟩
  case isFalse hvalidium =>
    obtain ⟨-, -, h⟩ := bind_eq_ok.1 h
    obtain ⟨-, -, h⟩ := bind_eq_ok.1 h
    cases h
    exact ⟨rfl, rfl, rfl, Or.inr ⟨Bool.eq_false_iff.2 hvalidium, rfl, rfl, rfl⟩⟩

theorem Committer.includeBlock_eq_ok {l2Out : List L2Message}
    (h : committer.includeBlock number stored receipts l2Out bundle acc = .ok acc') :
    ∃ hashes, pushHashes committer.keccak256 acc.l2InMessageHashes
        (getBlockL2InMessages stored.txs committer.chainId) = some hashes ∧
      acc' = { acc with
        lastAddedBlockNumber := acc.lastAddedBlockNumber + 1
        blobsBundle := bundle
        l1InMessageHashes := acc.l1InMessageHashes ++
          (getBlockL1InMessages stored.txs committer.chainId).filterMap
            (PrivilegedL2Transaction.getPrivilegedHash committer.keccak256)
        l2InMessageHashes := hashes
        l1OutMessageHashes := acc.l1OutMessageHashes ++
          (getBlockL1Messages committer.keccak256 receipts).map
            (getL1MessageHash committer.keccak256)
        accL2OutMessages := acc.accL2OutMessages ++ l2Out
        accNonPrivilegedTransactions :=
          acc.accNonPrivilegedTransactions + stored.txs.countP fun tx => !isPrivileged tx
        newStateRoot := committer.stateRoot number
        accGasUsed := (acc.accGasUsed + stored.block.header.gasUsed) % 2 ^ 64
        accBlocks := acc.accBlocks ++
          [(acc.lastAddedBlockNumber + 1, committer.blockHash stored.block)] } := by
  rw [Committer.includeBlock] at h
  obtain ⟨hashes, hhashes, h⟩ := bind_eq_ok.1 h
  obtain ⟨-, -, h⟩ := bind_eq_ok.1 h
  rw [Committer.pushL2InHashes] at hhashes
  split at hhashes
  case h_1 => cases hhashes
  case h_2 hpush =>
    cases hhashes
    cases h
    exact ⟨hashes, hpush, rfl⟩

theorem Committer.getReceipts_eq_ok (h : committer.getReceipts number stored = .ok receipts) :
    receipts = stored.receipts := by
  rw [Committer.getReceipts] at h
  split_ifs at h
  cases h
  exact take_of_length_le (Nat.le_of_eq stored.executed)

theorem Committer.addBlock_cases {continues : Bool}
    (h : committer.addBlock first stored acc = .ok (continues, acc')) :
    (continues = false ∧ SameResult acc acc') ∨
    (continues = true ∧ ∃ bundle size mid,
      committer.prepareBlob (acc.lastAddedBlockNumber + 1) stored
        (committer.countPrivileged stored acc) = .ok (mid, .ok (bundle, size)) ∧
      committer.includeBlock (acc.lastAddedBlockNumber + 1) stored stored.receipts
        (getBlockL2OutMessages committer.keccak256 stored.receipts committer.chainId) bundle
        mid = .ok acc') := by
  rw [Committer.addBlock] at h
  obtain ⟨-, -, h⟩ := bind_eq_ok.1 h
  split at h
  case isTrue =>
    cases h
    exact Or.inl ⟨rfl, rfl⟩
  case isFalse =>
    obtain ⟨receipts, hreceipts, h⟩ := bind_eq_ok.1 h
    obtain ⟨-, -, h⟩ := bind_eq_ok.1 h
    obtain rfl := Committer.getReceipts_eq_ok hreceipts
    rw [Committer.placeBlock] at h
    split at h
    case isTrue =>
      cases h
      exact Or.inl ⟨rfl, rfl⟩
    case isFalse =>
      obtain ⟨⟨mid, result⟩, hblob, h⟩ := bind_eq_ok.1 h
      have hsame : SameResult acc mid := by
        rw [SameResult, (Committer.prepareBlob_eq_ok hblob).1]
        rfl
      cases result with
      | error e =>
        simp only at h
        split_ifs at h
        cases h
        exact Or.inl ⟨rfl, hsame⟩
      | ok result =>
        obtain ⟨bundle, size⟩ := result
        obtain ⟨final, hinclude, h⟩ := bind_eq_ok.1 h
        cases h
        exact Or.inr ⟨rfl, bundle, size, mid, hblob, hinclude⟩

theorem nonPrivilegedCount_append (xs ys : List Block) :
    nonPrivilegedCount (xs ++ ys) = nonPrivilegedCount xs + nonPrivilegedCount ys := by
  rw [nonPrivilegedCount, map_append, sum_append]
  rfl

theorem BlobAgrees.next {mid : Accumulators} (ready : Ready committer done acc)
    (hblob : committer.prepareBlob number stored (committer.countPrivileged stored acc) =
      .ok (mid, .ok (bundle, size))) :
    BlobAgrees committer (done ++ [stored]) bundle ∧ Ready committer (done ++ [stored]) mid := by
  obtain ⟨-, -, -, ⟨hvalidium, hresult⟩ | ⟨hvalidium, hblocks, hconfigs, hresult⟩⟩ :=
    Committer.prepareBlob_eq_ok hblob
  · cases hresult
    rw [BlobAgrees, if_pos hvalidium]
    refine ⟨⟨rfl, if_pos ⟨rfl, rfl⟩⟩, fun hrollup => ?_⟩
    rw [hvalidium] at hrollup
    cases hrollup
  · obtain ⟨hcurrent, hcurrentConfigs⟩ := ready hvalidium
    have hblocks' : mid.currentBlocks = (done ++ [stored]).map (·.block) := by
      rw [hblocks, map_append, ← hcurrent]
      rfl
    have hconfigs' : mid.currentFeeConfigs = (done ++ [stored]).map (·.feeConfig) := by
      rw [hconfigs, map_append, ← hcurrentConfigs]
      rfl
    refine ⟨?_, fun _ => ⟨hblocks', hconfigs'⟩⟩
    rw [BlobAgrees, if_neg (Bool.eq_false_iff.1 hvalidium), ← hblocks', ← hconfigs']
    exact generateBlobsBundle_eq_ok hresult.symm

theorem Included.next (h : Included committer last done acc) (ready : Ready committer done acc)
    (hadd : committer.addBlock first stored acc = .ok (true, acc')) :
    Included committer last (done ++ [stored]) acc' ∧ Ready committer (done ++ [stored]) acc' := by
  obtain ⟨hfalse, -⟩ | ⟨-, bundle, size, mid, hblob, hinclude⟩ :=
    Committer.addBlock_cases hadd
  · cases hfalse
  obtain ⟨hbundle, hready⟩ := BlobAgrees.next ready hblob
  have hsame : SameResult acc mid := by
    rw [SameResult, (Committer.prepareBlob_eq_ok hblob).1]
    rfl
  obtain ⟨hnumber, hblocks, ⟨hl1Out, hl2, hl1In, hl2In⟩, hcount, -⟩ :=
    hsame.included h
  obtain ⟨hashes, hpush, rfl⟩ := Committer.includeBlock_eq_ok hinclude
  refine ⟨⟨?_, ?_, ?_, ?_, fun _ => hbundle⟩, hready⟩
  · show mid.lastAddedBlockNumber + 1 = _
    rw [hnumber, length_append, length_singleton]
    omega
  · show (mid.accBlocks ++ [_]).length = _
    rw [length_append, length_append, hblocks]
    rfl
  · have hinput : guestInput (done ++ [stored]) = guestInput done ++ guestInput [stored] :=
      map_append
    rw [hinput, getBatchMessages_append]
    refine ⟨?_, ?_, ?_, ?_⟩
    · show List.map _ (_ ++ (_ ++ [])) = mid.l1OutMessageHashes ++ _
      rw [append_nil, map_append, hl1Out]
    · show _ ++ (_ ++ []) = mid.accL2OutMessages ++ _
      rw [append_nil, hl2]
    · show List.filterMap _ (_ ++ (_ ++ [])) = mid.l1InMessageHashes ++ _
      rw [append_nil, filterMap_append, hl1In]
      rfl
    · show pushHashes _ _ (_ ++ (_ ++ [])) = _
      rw [append_nil, pushHashes_append, hl2In]
      exact hpush
  · show _ = mid.accNonPrivilegedTransactions + _
    rw [map_append, nonPrivilegedCount_append, hcount]
    rfl

theorem Included.addBlocks {blocks : List StoredBlock} (h : Included committer last done acc)
    (ready : Ready committer done acc)
    (hrun : committer.addBlocks first blocks acc = .ok acc') :
    ∃ taken rest, blocks = taken ++ rest ∧ Included committer last (done ++ taken) acc' := by
  induction blocks generalizing done acc with
  | nil =>
    obtain ⟨-, -, hrun⟩ := bind_eq_ok.1 hrun
    cases hrun
    exact ⟨[], [], rfl, by rwa [append_nil]⟩
  | cons stored blocks ih =>
    rw [Committer.addBlocks] at hrun
    obtain ⟨⟨continues, next⟩, hadd, hrun⟩ := bind_eq_ok.1 hrun
    cases continues with
    | false =>
      cases hrun
      obtain ⟨-, hsame⟩ | ⟨htrue, -⟩ := Committer.addBlock_cases hadd
      · exact ⟨[], stored :: blocks, rfl, by rw [append_nil]; exact hsame.included h⟩
      · cases htrue
    | true =>
      obtain ⟨hnext, hready⟩ := h.next ready hadd
      obtain ⟨taken, rest, rfl, hincluded⟩ := ih hnext hready hrun
      exact ⟨stored :: taken, rest, rfl, by rwa [List.append_assoc] at hincluded⟩

end Step

section Batch

variable {last : Nat} {blocks : List StoredBlock} {batch : Committer.PreparedBatch}

theorem Committer.finishBatch_eq_ok {acc : Accumulators}
    (h : committer.finishBatch acc = .ok (some batch)) :
    acc.accBlocks ≠ [] ∧
    computePrivilegedTransactionsHash committer.keccak256 acc.l1InMessageHashes =
      .ok batch.l1InMessagesRollingHash ∧
    rollingHashes committer.keccak256 acc.l2InMessageHashes =
      .ok batch.l2InMessageRollingHashes ∧
    batch.blobsBundle = acc.blobsBundle ∧ batch.l1OutMessageHashes = acc.l1OutMessageHashes ∧
    batch.l2OutMessages = acc.accL2OutMessages ∧
    batch.lastBlockOfBatch = acc.lastAddedBlockNumber ∧
    batch.nonPrivilegedTransactions = acc.accNonPrivilegedTransactions := by
  rw [Committer.finishBatch] at h
  split at h
  case isTrue => cases h
  case isFalse hblocks =>
    split at h
    case h_1 => cases h
    case h_2 hl1 =>
      split at h
      case h_1 => cases h
      case h_2 hl2 =>
        split_ifs at h
        cases h
        refine ⟨?_, hl1, hl2, rfl, rfl, rfl, rfl, rfl⟩
        intro hnil
        rw [hnil] at hblocks
        exact hblocks rfl

theorem exists_included (h : committer.prepareBatchFromBlock last blocks = .ok (some batch)) :
    ∃ acc, Included committer last (blocks.take (batch.lastBlockOfBatch - last)) acc ∧
      blocks.take (batch.lastBlockOfBatch - last) ≠ [] ∧
      committer.finishBatch acc = .ok (some batch) := by
  obtain ⟨acc, hrun, hfinish⟩ := bind_eq_ok.1 h
  obtain ⟨taken, rest, rfl, hincluded⟩ :=
    (included_new last).addBlocks (fun _ => ⟨rfl, rfl⟩) hrun
  obtain ⟨hne, -, -, -, -, -, hlast, -⟩ := Committer.finishBatch_eq_ok hfinish
  have htake : (taken ++ rest).take (batch.lastBlockOfBatch - last) = taken := by
    rw [hlast, hincluded.number, nil_append, Nat.add_sub_cancel_left, take_left]
  rw [htake]
  refine ⟨acc, hincluded, ?_, hfinish⟩
  intro hnil
  rw [hnil] at hincluded
  exact hne (eq_nil_of_length_eq_zero hincluded.blocks)

theorem exists_batch {α : Type} {f : Committer.PreparedBatch → α} {x : α}
    {result : Except CommitterError (Option Committer.PreparedBatch)}
    (h : result.toOption.join.map f = some x) : ∃ batch, result = .ok (some batch) ∧ f batch = x := by
  cases result with
  | error e => cases h
  | ok batch =>
    obtain ⟨batch, rfl, hx⟩ := Option.map_eq_some_iff.1 h
    exact ⟨batch, rfl, hx⟩

/-- The guest computes what the committer put into the batch, exactly if no block of the batch
holds a privileged creation from the first layer. -/
theorem guestAgrees_iff (treeRoot : List H256 → Option H256)
    (h : committer.prepareBatchFromBlock last blocks = .ok (some batch)) :
    GuestAgrees committer treeRoot (blocks.take (batch.lastBlockOfBatch - last)) batch ↔
      ∀ stored ∈ blocks.take (batch.lastBlockOfBatch - last),
        ∀ tx ∈ getBlockL1InMessages stored.txs committer.chainId, tx.recipient ≠ .create := by
  obtain ⟨acc, hincluded, hne, hfinish⟩ := exists_included h
  generalize blocks.take (batch.lastBlockOfBatch - last) = taken at hincluded hne
  obtain ⟨-, hl1Hash, hl2Hash, hbundle, hl1OutHash, hl2OutMsgs, -, hcountBatch⟩ :=
    Committer.finishBatch_eq_ok hfinish
  obtain ⟨hl1Out, hl2Out, hl1In, hl2In⟩ := hincluded.messages
  have hcalls : (∀ tx ∈ (getBatchMessages committer.keccak256 committer.chainId
        (guestInput taken)).l1InMessages, tx.recipient ≠ .create) ↔
      ∀ stored ∈ taken, ∀ tx ∈ getBlockL1InMessages stored.txs committer.chainId,
        tx.recipient ≠ .create := by
    rw [l1InMessages_eq, guestInput, flatMap_map]
    simp only [mem_flatMap]
    constructor
    · exact fun h stored hstored tx htx => h tx ⟨stored, hstored, htx⟩
    · rintro h tx ⟨stored, hstored, htx⟩
      exact h stored hstored tx htx
  rw [← hcalls]
  constructor
  · rintro ⟨digests, hdigests, -⟩
    rw [computeMessageDigests] at hdigests
    split at hdigests
    case h_1 => cases hdigests
    case h_2 hhashes => exact (l1InMessageHashes_eq_some.1 hhashes).1
  · intro hcreate
    have hhashes := l1InMessageHashes_eq_some.2 ⟨hcreate, hl1In⟩
    refine ⟨⟨computeMerkleRoot treeRoot ((getBatchMessages committer.keccak256 committer.chainId
        (guestInput taken)).l1OutMessages.map (getL1MessageHash committer.keccak256)),
        batch.l1InMessagesRollingHash, batch.l2InMessageRollingHashes⟩, ?_, rfl, rfl, hl1Out.trans hl1OutHash.symm,
      hl2Out.trans hl2OutMsgs.symm, hincluded.count.trans hcountBatch.symm, ?_⟩
    · rw [computeMessageDigests, hhashes]
      simp only [hl1Hash, hl2In, hl2Hash]
    · rw [hbundle]
      exact hincluded.blob hne

end Batch

/-! ### Batches of privileged transactions -/

def l2Header : BlockHeader where
  number := 1
  gasLimit := 30000000
  gasUsed := 100000
  timestamp := 1
  baseFeePerGas := some 7

/-- A block with one privileged transaction. -/
def privilegedBlock (tx : PrivilegedL2Transaction) : StoredBlock where
  block := ⟨l2Header, ⟨[.privileged tx], [], none⟩⟩
  receipts := [⟨.privileged, true, 100000, [], none, none⟩]
  feeConfig := ⟨none, none, none⟩
  executed := rfl

/-- The committer of a validium of chain 1729, whose calls succeed. -/
def validiumCommitter : Committer where
  keccak256 := fun _ => .repeatByte 1
  kzg := ⟨fun _ _ _ => none, fun _ => none, fun _ => none, fun _ => .ofNat 0⟩
  chainId := 1729
  batchGasLimit := none
  validium := true
  blockHash := fun _ => .repeatByte 2
  fails := fun _ _ => false
  l1ActiveFork := fun _ => .prague
  stateRoot := fun _ => .ofNat 0

/-- The same committer of a rollup, whose blobs get empty commitments and proofs. -/
def rollupCommitter : Committer :=
  { validiumCommitter with
    validium := false
    kzg := ⟨fun _ _ _ => none, fun _ => some ([], []), fun _ => none, fun _ => .ofNat 0⟩ }

def callBlocks : List StoredBlock :=
  [privilegedBlock { privilegedCreate 5 with recipient := .call 6 },
    privilegedBlock { privilegedCreate 5 with recipient := .call 7 }]

theorem guestAgrees_calls : ∃ batch,
    rollupCommitter.prepareBatchFromBlock 0 callBlocks = .ok (some batch) ∧
    (batch.lastBlockOfBatch, batch.blobsBundle.blobs.length) = (2, 1) ∧
    GuestAgrees rollupCommitter (fun _ => none)
      (callBlocks.take (batch.lastBlockOfBatch - 0)) batch := by
  have hrun : (rollupCommitter.prepareBatchFromBlock 0 callBlocks).toOption.join.map
      (fun batch => (batch.lastBlockOfBatch, batch.blobsBundle.blobs.length)) = some (2, 1) := by
    decide +kernel
  obtain ⟨batch, hbatch, hcounts⟩ := exists_batch hrun
  refine ⟨batch, hbatch, hcounts, (guestAgrees_iff _ hbatch).2 fun stored hstored tx htx => ?_⟩
  rcases mem_pair.1 (mem_of_mem_take hstored) with rfl | rfl <;>
  · obtain rfl := mem_singleton.1 (htx : tx ∈ [_])
    exact TxKind.noConfusion

/-- A privileged creation is left out by the committer and makes the guest fail. -/
theorem privilegedCreate_unprovable : ∃ batch,
    validiumCommitter.prepareBatchFromBlock 0 [privilegedBlock (privilegedCreate 5)] =
      .ok (some batch) ∧
    ¬ GuestAgrees validiumCommitter (fun _ => none)
      ([privilegedBlock (privilegedCreate 5)].take (batch.lastBlockOfBatch - 0)) batch := by
  have hrun : (validiumCommitter.prepareBatchFromBlock 0
      [privilegedBlock (privilegedCreate 5)]).toOption.join.map (·.lastBlockOfBatch) = some 1 := by
    decide +kernel
  obtain ⟨batch, hbatch, hlast⟩ := exists_batch hrun
  refine ⟨batch, hbatch, ?_⟩
  rintro ⟨digests, hdigests, -⟩
  rw [hlast, computeMessageDigests] at hdigests
  split at hdigests
  case h_1 => cases hdigests
  case h_2 hhashes =>
    refine (l1InMessageHashes_eq_some.1 hhashes).1 (privilegedCreate 5) ?_ rfl
    rw [l1InMessages_eq]
    exact mem_cons_self

end Ethrex.Rollup
