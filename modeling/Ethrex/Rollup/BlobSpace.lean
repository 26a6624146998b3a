import Ethrex.Rollup.BlockProducer

/-!
# The blob space of a built block

The builder keeps its count within `SAFE_BYTES_PER_BLOB`. The committer adds the number of blocks,
longer list headers, and header fields written at the end. A block can be committed when no selection
from the queue leaves too little room for these.
-/

namespace Ethrex.Rollup

open Payload
open Rlp
open L2 (FeeConfig safeBytesPerBlob)

/-! ### What a round keeps -/

section Rounds

variable {σ κ : Type} {p : BlockProducer σ κ} {feeConfig : FeeConfig} {s s' : L2Filling σ}
  {head : HeadTransaction}

namespace BlockProducer

theorem execute_eq {c c' : PayloadBuildContext σ} {receipt : Option Receipt}
    (h : p.execute head c = .ok (receipt, c')) :
    c'.payload = c.payload ∧ c'.requests = c.requests := by
  rw [execute] at h
  dsimp only at h
  obtain ⟨hpayload, hrequests, -⟩ := applyPlainTransaction_eq p.builder head { c with
    vm := p.builder.machine.recordTouchedAddress head.tx.sender
      (p.builder.machine.setBalIndex (nextBalIndex c) c.vm) }
  split at h
  · rename_i after happly
    rw [happly] at hpayload hrequests
    cases h
    exact ⟨hpayload, hrequests⟩
  · rename_i result after happly
    rw [happly] at hpayload hrequests
    split at h
    · cases h
      exact ⟨hpayload, hrequests⟩
    split at h
    · cases h
    · cases h
      exact ⟨hpayload, hrequests⟩

variable (tx : Transaction)

@[simp] theorem context_countPrivileged (s : L2Filling σ) :
    (countPrivileged tx s).context = s.context := by
  cases tx <;> rfl

@[simp] theorem txs_countPrivileged (s : L2Filling σ) : (countPrivileged tx s).txs = s.txs := by
  cases tx <;> rfl

@[simp] theorem accEncodedSize_countPrivileged (s : L2Filling σ) :
    (countPrivileged tx s).accEncodedSize = s.accEncodedSize := by
  cases tx <;> rfl

end BlockProducer

/-- The transaction was left out with the others of its sender. -/
structure LeftOut (s s' : L2Filling σ) : Prop where
  payload : s'.context.payload = s.context.payload
  requests : s'.context.requests = s.context.requests
  txs : s'.txs = s.txs.pop
  accEncodedSize : s'.accEncodedSize = s.accEncodedSize

/-- The transaction had room and was included. -/
structure TakenIn (feeConfig : FeeConfig) (tx : Transaction) (s s' : L2Filling σ) : Prop where
  payload : s'.context.payload = { s.context.payload with
    body := { s.context.payload.body with
      transactions := s.context.payload.body.transactions ++ [tx] } }
  requests : s'.context.requests = s.context.requests
  txs : s.txs.shift = .ok s'.txs
  accEncodedSize : s'.accEncodedSize = s.accEncodedSize + tx.encode.length
  room : s'.accEncodedSize + (feeConfigToVec feeConfig).length ≤ safeBytesPerBlob

theorem LeftOut.pop (s : L2Filling σ) : LeftOut s { s with txs := s.txs.pop } := ⟨rfl, rfl, rfl, rfl⟩

namespace BlockProducer

theorem tryTransaction_cases (h : p.tryTransaction s head = .ok s')
    (hroom : s.accEncodedSize + (feeConfigToVec feeConfig).length + head.tx.inner.encode.length ≤
      safeBytesPerBlob) :
    LeftOut s s' ∨ TakenIn feeConfig head.tx.inner s s' := by
  rw [tryTransaction] at h
  split at h
  · cases h
  · rename_i context hexecute
    obtain ⟨hpayload, hrequests⟩ := execute_eq hexecute
    cases h
    exact .inl ⟨hpayload, hrequests, rfl, rfl⟩
  · rename_i receipt context hexecute
    obtain ⟨hpayload, hrequests⟩ := execute_eq hexecute
    split at h
    · cases h
    rename_i txs hshift
    cases h
    refine .inr ⟨?_, ?_, ?_, ?_, ?_⟩
    · rw [context_countPrivileged, ← hpayload]
      rfl
    · rw [context_countPrivileged]
      exact hrequests
    · rw [txs_countPrivileged]
      exact hshift
    · rw [accEncodedSize_countPrivileged]
    · rw [accEncodedSize_countPrivileged]
      dsimp only
      omega

theorem fillStep_cases (h : p.fillStep feeConfig s = .ok (some s')) :
    ∃ head, s.txs.peek = some head ∧
      (LeftOut s s' ∨ TakenIn feeConfig head.tx.inner s s') := by
  rw [fillStep] at h
  split at h
  · cases h
  split at h
  · cases h
  rename_i head hpeek
  refine ⟨head, hpeek, ?_⟩
  rw [fillHead] at h
  split at h
  · cases h
    exact .inl (.pop s)
  split at h
  · cases h
  rename_i hroom
  split at h
  · cases h
  · cases h
    exact .inl (.pop s)
  obtain ⟨s'', htry, h⟩ := map_eq_ok.1 h
  cases h
  exact tryTransaction_cases htry (not_lt.1 hroom)

end BlockProducer

variable {txs : TransactionQueue} {start : PayloadBuildContext σ}

theorem BlockProducer.fillStep_included {receipt : Receipt} {context : PayloadBuildContext σ}
    (hfull : p.isFull feeConfig s = false) (hpeek : s.txs.peek = some head)
    (hgas : p.lacksGas s head.tx.inner = false)
    (hroom : s.accEncodedSize + (feeConfigToVec feeConfig).length + head.tx.inner.encode.length ≤
      safeBytesPerBlob) (hskipped : p.isSkipped s head = .ok false)
    (hexecute : p.execute head s.context = .ok (some receipt, context))
    (hshift : s.txs.shift = .ok txs) :
    p.fillStep feeConfig s = .ok (some (countPrivileged head.tx.inner { s with
      context := addToPayload head.tx.inner receipt context
      txs
      accEncodedSize := s.accEncodedSize + head.tx.inner.encode.length })) := by
  rw [fillStep, if_neg (Bool.eq_false_iff.1 hfull)]
  simp only [hpeek]
  rw [fillHead, if_neg (Bool.eq_false_iff.1 hgas), if_neg (not_lt.2 hroom), hskipped]
  simp only
  rw [tryTransaction, hexecute]
  simp only [hshift]
  rfl

/-- What holds after any number of rounds from the given context. -/
structure Counted (feeConfig : FeeConfig) (start : PayloadBuildContext σ) (queue : TransactionQueue)
    (s : L2Filling σ) : Prop where
  payload : s.context.payload = { start.payload with
    body := { start.payload.body with transactions := s.context.payload.body.transactions } }
  requests : s.context.requests = start.requests
  accEncodedSize : s.accEncodedSize =
    start.payload.length + encodedBytes s.context.payload.body.transactions
  room : start.payload.length + (feeConfigToVec feeConfig).length ≤ safeBytesPerBlob →
    s.accEncodedSize + (feeConfigToVec feeConfig).length ≤ safeBytesPerBlob
  /-- The payload and the queue hold no other transactions than the queue did. -/
  queued : ↑s.context.payload.body.transactions + s.txs.transactions ≤ queue.transactions

theorem Counted.step (hcounted : Counted feeConfig start txs s)
    (h : p.fillStep feeConfig s = .ok (some s')) : Counted feeConfig start txs s' := by
  obtain ⟨head, hpeek, hout | hin⟩ := BlockProducer.fillStep_cases h
  · refine ⟨?_, hout.requests.trans hcounted.requests, ?_, ?_, ?_⟩
    · rw [hout.payload]
      exact hcounted.payload
    · rw [hout.payload, hout.accEncodedSize]
      exact hcounted.accEncodedSize
    · rw [hout.accEncodedSize]
      exact hcounted.room
    · rw [hout.payload, hout.txs]
      exact (add_le_add_right s.txs.transactions_pop_le _).trans hcounted.queued
  · have htxs : s'.context.payload.body.transactions =
        s.context.payload.body.transactions ++ [head.tx.inner] := by rw [hin.payload]
    refine ⟨?_, hin.requests.trans hcounted.requests, ?_, fun _ => hin.room, ?_⟩
    · rw [hin.payload, hcounted.payload]
    · have hbytes : encodedBytes s'.context.payload.body.transactions =
          encodedBytes s.context.payload.body.transactions + head.tx.inner.encode.length := by
        simp [encodedBytes, htxs]
      rw [hin.accEncodedSize, hcounted.accEncodedSize, hbytes]
      omega
    · refine le_trans (le_of_eq ?_) hcounted.queued
      rw [TransactionQueue.transactions_shift hpeek hin.txs, htxs, ← Multiset.coe_add,
        Multiset.coe_singleton, Multiset.add_assoc, Multiset.singleton_add]

theorem Counted.loop (rounds : Nat) (s : L2Filling σ) (hcounted : Counted feeConfig start txs s)
    (h : p.fillLoop feeConfig rounds s = .ok s') : Counted feeConfig start txs s' := by
  induction rounds generalizing s with
  | zero =>
    cases h
    exact hcounted
  | succ rounds ih =>
    rw [BlockProducer.fillLoop] at h
    cases hstep : p.fillStep feeConfig s with
    | error e =>
      rw [hstep] at h
      cases h
    | ok next =>
      rw [hstep] at h
      cases next with
      | none =>
        cases h
        exact hcounted
      | some s'' => exact ih s'' (hcounted.step hstep) h

theorem Counted.fill {privilegedNonces : U64 → Option U64} (hvm : p.vmType = .l2 feeConfig)
    (hempty : start.payload.body.transactions = [])
    (h : p.fillTransactions start txs privilegedNonces = .ok s') :
    Counted feeConfig start txs s' := by
  rw [BlockProducer.fillTransactions, hvm] at h
  refine Counted.loop _ _ ?_ h
  constructor
  · rfl
  · rfl
  · simp [encodedBytes, hempty]
  · intro hfits
    exact hfits
  · rw [hempty, Multiset.coe_nil, zero_add]

end Rounds

/-! ### The size of the block -/

section Build

variable {σ κ : Type} {p : BlockProducer σ κ} {feeConfig : FeeConfig} {args : BuildPayloadArgs}
  {parentBlock : BlockHeader} {excessBlobGas : Option U64} {extraData : Bytes} {template : Block}
  {baseFeePerBlobGas : U256} {vm : σ} {txs : TransactionQueue} {nonces nonces' : U64 → Option U64}
  {c : PayloadBuildContext σ}

/-- What a build takes from the queue, and what its count says of it. -/
theorem buildPayload_filled_l2 (hvm : p.vmType = .l2 feeConfig)
    (hcreate : createPayload p.builder.rules p.builder.digests args parentBlock excessBlobGas
      extraData = .ok template)
    (hbuild : p.buildPayload template baseFeePerBlobGas vm txs nonces = .ok (c, nonces')) :
    Filled template c.payload ∧ ↑c.payload.body.transactions ≤ txs.transactions ∧
      (template.length + (feeConfigToVec feeConfig).length ≤ safeBytesPerBlob →
        template.length + encodedBytes c.payload.body.transactions +
          (feeConfigToVec feeConfig).length ≤ safeBytesPerBlob) := by
  rw [BlockProducer.buildPayload] at hbuild
  split at hbuild
  · cases hbuild
  rename_i s hfill
  have hcounted := Counted.fill hvm (createPayload_eq hcreate).1 hfill
  split at hbuild
  · cases hbuild
  rename_i context hfinalize
  cases hbuild
  obtain ⟨hbody, f, hheader, hfblob, hfrequests⟩ := finalizePayload_eq hfinalize
  have hsame : s.context.payload.header = template.header := by rw [hcounted.payload]; rfl
  rw [hbody]
  refine ⟨?_, (Multiset.le_add_right _ _).trans hcounted.queued, ?_⟩
  · refine filled_of_written hcreate ?_ ?_ (by rw [hheader, hsame]) (by rw [hfblob, hsame]; exact id) ?_
    · rw [hbody, hcounted.payload]
      rfl
    · rw [hbody, hcounted.payload]
      rfl
    · rw [hfrequests, hcounted.requests]
      intro hprague
      simp [PayloadBuildContext.new, hprague]
  · intro hfits
    have hroom := hcounted.room hfits
    rwa [hcounted.accEncodedSize] at hroom

end Build

def notEnoughBlobSpace : CommitterError :=
  .unreachable "Not enough blob space for a single block batch. This means a block was incorrectly produced."

def KzgAnswers (kzg : Kzg) : Prop := ∀ fork blob, (bundleOfBlob kzg fork blob).isSome

/-- The block can be committed by itself. -/
structure Committable (feeConfig : FeeConfig) (block : Block) : Prop where
  fits : 8 + block.length + (feeConfigToVec feeConfig).length ≤ safeBytesPerBlob
  /-- `generate_blobs_bundle` does not fail on the block alone. -/
  bundled : ∀ kzg fork, KzgAnswers kzg →
    ∃ result, generateBlobsBundle kzg [block] [feeConfig] fork = .ok result
  /-- The committer does not stop with the error for a single block. -/
  placed : ∀ (committer : Committer) (number : Nat) (stored : StoredBlock)
    (receipts : List Receipt) (l2OutMessages : List L2Message) (acc : Accumulators),
    KzgAnswers committer.kzg → stored.block = block → stored.feeConfig = feeConfig →
    acc.currentBlocks = [] → acc.currentFeeConfigs = [] →
    committer.placeBlock number number stored receipts l2OutMessages acc ≠
      .error notEnoughBlobSpace

theorem length_blobData_single (block : Block) (feeConfig : FeeConfig) :
    (blobData [block] [feeConfig]).length =
      8 + block.length + (feeConfigToVec feeConfig).length := by
  simp [blobData, Block.length, length_fixedBeBytes, Nat.add_assoc]

theorem generateBlobsBundle_single {feeConfig : FeeConfig} {block : Block}
    (hfits : 8 + block.length + (feeConfigToVec feeConfig).length ≤ safeBytesPerBlob) {kzg : Kzg}
    (hkzg : KzgAnswers kzg) (fork : L2.Fork) :
    ∃ result, generateBlobsBundle kzg [block] [feeConfig] fork = .ok result := by
  have hblob : ∃ blob, blobFromBytes (blobData [block] [feeConfig]) = some blob := by
    rw [blobFromBytes, if_neg]
    · exact ⟨_, rfl⟩
    · rw [length_blobData_single]
      omega
  obtain ⟨blob, hblob⟩ := hblob
  obtain ⟨bundle, hbundle⟩ := Option.isSome_iff_exists.1 (hkzg fork blob)
  have hlen : lengthU64 [block] = some 1 := rfl
  have hlen' : lengthU64 [feeConfig] = some 1 := rfl
  refine ⟨(bundle, (blobData [block] [feeConfig]).length), ?_⟩
  simp only [generateBlobsBundle, hlen, hlen', hblob, hbundle]
  rfl

theorem includeBlock_ne_unreachable (committer : Committer) (number : Nat) (stored : StoredBlock)
    (receipts : List Receipt) (l2OutMessages : List L2Message) (bundle : BlobsBundle)
    (acc : Accumulators) (message : String) :
    committer.includeBlock number stored receipts l2OutMessages bundle acc ≠
      .error (.unreachable message) := by
  intro h
  rw [Committer.includeBlock] at h
  rcases bind_eq_error.1 h with hpush | ⟨_, -, h⟩
  · rw [Committer.pushL2InHashes] at hpush
    split at hpush <;> cases hpush
  rcases bind_eq_error.1 h with hcall | ⟨_, -, h⟩
  · rw [Committer.call] at hcall
    split at hcall <;> cases hcall
  cases h

theorem prepareBlob_first {committer : Committer} {stored : StoredBlock} (acc : Accumulators)
    (hfits : 8 + stored.block.length + (feeConfigToVec stored.feeConfig).length ≤ safeBytesPerBlob)
    (hkzg : KzgAnswers committer.kzg) (hblocks : acc.currentBlocks = [])
    (hconfigs : acc.currentFeeConfigs = []) (number : Nat) :
    (∃ call, committer.prepareBlob number stored acc = .error (.failed call)) ∨
      ∃ acc' bundle, committer.prepareBlob number stored acc = .ok (acc', .ok bundle) := by
  rw [Committer.prepareBlob]
  split
  · exact .inr ⟨_, _, rfl⟩
  by_cases hconfig : committer.fails .getFeeConfig number
  · exact .inl ⟨.getFeeConfig, by simp [Committer.call, hconfig, bind, Except.bind]⟩
  by_cases hfork : committer.fails .getL1ActiveFork number
  · exact .inl ⟨.getL1ActiveFork, by simp [Committer.call, hconfig, hfork, bind, Except.bind]⟩
  obtain ⟨bundle, hbundle⟩ := generateBlobsBundle_single hfits hkzg
    (committer.l1ActiveFork number)
  refine .inr ⟨{ acc with
    currentBlocks := acc.currentBlocks ++ [stored.block]
    currentFeeConfigs := acc.currentFeeConfigs ++ [stored.feeConfig] }, bundle, ?_⟩
  rw [← hbundle]
  simp [Committer.call, hconfig, hfork, bind, Except.bind, pure, Except.pure, hblocks, hconfigs]

theorem committable_iff_fits (feeConfig : FeeConfig) (block : Block) :
    Committable feeConfig block ↔
      8 + block.length + (feeConfigToVec feeConfig).length ≤ safeBytesPerBlob := by
  refine ⟨Committable.fits, fun hfits => ⟨hfits, fun kzg fork hkzg =>
    generateBlobsBundle_single hfits hkzg fork, ?_⟩⟩
  rintro committer number stored receipts l2OutMessages acc hkzg rfl rfl hblocks hconfigs h
  rw [Committer.placeBlock] at h
  dsimp only at h
  split at h
  · cases h
  rcases prepareBlob_first (committer.countPrivileged stored acc) hfits hkzg hblocks
    hconfigs number with ⟨call, hprepare⟩ | ⟨acc', bundle, hprepare⟩
  · rw [hprepare] at h
    cases h
  rw [hprepare] at h
  rcases bind_eq_error.1 h with hok | ⟨_, hok, h⟩
  · cases hok
  cases hok
  rcases bind_eq_error.1 h with hinclude | ⟨_, -, h⟩
  · exact includeBlock_ne_unreachable _ _ _ _ _ _ _ _ hinclude
  · cases h

/-! ### The blocks that can be committed -/

section Build

variable {σ κ : Type} {p : BlockProducer σ κ} {feeConfig : FeeConfig} {args : BuildPayloadArgs}
  {parentBlock : BlockHeader} {excessBlobGas : Option U64} {extraData : Bytes} {template : Block}
  {baseFeePerBlobGas : U256} {vm : σ} {txs : TransactionQueue} {nonces nonces' : U64 → Option U64}
  {c : PayloadBuildContext σ}

/-- Every selection from the queue that the count lets into the block leaves room for the number of
blocks and for the growth of the headers. -/
def RoomInBlob (feeConfig : FeeConfig) (template : Block) (queued : Multiset Transaction) : Prop :=
  ∀ chosen : List Transaction, ↑chosen ≤ queued →
    template.length + encodedBytes chosen + (feeConfigToVec feeConfig).length ≤ safeBytesPerBlob →
    8 + (template.length + encodedBytes chosen + finalGrowth) + (feeConfigToVec feeConfig).length ≤
      safeBytesPerBlob

/-- A queue with room in the blob gives a block that can be committed, whatever the transactions do
when they are executed. -/
theorem produced_committable (hvm : p.vmType = .l2 feeConfig)
    (hcreate : createPayload p.builder.rules p.builder.digests args parentBlock excessBlobGas
      extraData = .ok template)
    (hfits : template.length + (feeConfigToVec feeConfig).length ≤ safeBytesPerBlob)
    (hroom : RoomInBlob feeConfig template txs.transactions)
    (hbuild : p.buildPayload template baseFeePerBlobGas vm txs nonces = .ok (c, nonces')) :
    Committable feeConfig c.payload := by
  obtain ⟨hfilled, hchosen, hcount⟩ := buildPayload_filled_l2 hvm hcreate hbuild
  have hlimit : safeBytesPerBlob < 2 ^ 24 := by decide
  have hspare := hroom _ hchosen (hcount hfits)
  have hlength := hfilled.upper (by omega)
  rw [committable_iff_fits]
  omega

end Build

/-!
### A block that cannot be committed

The pool holds one transfer with 126315 zero bytes of calldata, which takes all of the space. One
with 126206 leaves just enough room.
-/

def noFees : FeeConfig := ⟨none, none, none⟩

/-- A producer that charges no fees, on a machine that executes every transaction. -/
def l2Producer : BlockProducer Unit Unit where
  builder :=
    { osakaBuilder with
      isL1 := false
      machine :=
        { transferMachine with
          executeTx := fun _ _ _ _ => (.ok (transferReport 1284150), ())
          undoLastTx := fun _ => (.ok (), ()) } }
  vmType := .l2 noFees
  keccak256 := fun _ => .repeatByte 1
  chainId := 1
  configuredBlockGasLimit := 30000000
  registeredChains := []
  accountNonce := fun _ => .ok (some 0)

def l2Start (c : PayloadBuildContext Unit) (txs : TransactionQueue) : L2Filling Unit where
  context := c
  txs := txs
  privilegedNonces := fun _ => none
  privilegedTxCount := 0
  accEncodedSize := c.payload.length

section Padded

variable {c : PayloadBuildContext Unit} {size : Nat}

theorem execute_padded (size : Nat) (hamsterdam : c.isAmsterdam = false) :
    ∃ receipt context, l2Producer.execute ⟨pooledTransfer size 0, 1⟩ c = .ok (some receipt, context) ∧
      context.payload = c.payload := by
  cases c
  cases hamsterdam
  exact ⟨_, _, rfl, rfl⟩

def l2End (size : Nat) (receipt : Receipt) (context c : PayloadBuildContext Unit) :
    L2Filling Unit where
  context := BlockProducer.addToPayload (paddedTransfer size 0) receipt context
  txs := ⟨[], AList.singleton bulkySender [], some 7⟩
  privilegedNonces := fun _ => none
  privilegedTxCount := 0
  accEncodedSize := c.payload.length + (paddedTransfer size 0).encode.length

variable {context : PayloadBuildContext Unit}

theorem fillStep_padded {receipt : Receipt}
    (hexecute : l2Producer.execute ⟨pooledTransfer size 0, 1⟩ c = .ok (some receipt, context))
    (hgas : c.remainingGas = 100000000) (hused : c.gasUsed = 0)
    (hroom : c.payload.length + 2 + (paddedTransfer size 0).encode.length ≤ safeBytesPerBlob)
    (hlower : 15 ≤ (paddedTransfer size 0).encode.length) :
    l2Producer.fillStep noFees (l2Start c (transferQueue size [0])) =
      .ok (some (l2End size receipt context c)) := by
  have hfull : l2Producer.isFull noFees (l2Start c (transferQueue size [0])) = false := by
    have hspace : ¬ c.payload.length + 2 + 15 > safeBytesPerBlob := by omega
    rw [BlockProducer.isFull]
    simp only [l2Start, hgas, hused]
    show (false || decide (c.payload.length + 2 + 15 > safeBytesPerBlob)) = _
    rw [Bool.false_or, decide_eq_false hspace]
  have hlacks : l2Producer.lacksGas (l2Start c (transferQueue size [0])) (paddedTransfer size 0) =
      false := by
    rw [BlockProducer.lacksGas]
    simp only [l2Start, hgas, hused]
    rfl
  exact BlockProducer.fillStep_included hfull rfl hlacks hroom rfl hexecute rfl

theorem fillStep_l2End (size : Nat) (receipt : Receipt) (context c : PayloadBuildContext Unit) :
    l2Producer.fillStep noFees (l2End size receipt context c) = .ok none := by
  rw [BlockProducer.fillStep]
  split <;> rfl

theorem fillTransactions_padded (size : Nat) (hamsterdam : c.isAmsterdam = false)
    (hgas : c.remainingGas = 100000000) (hlimit : c.payload.header.gasLimit = 100000000)
    (hlower : 65536 ≤ size) (hupper : size < 131072)
    (hroom : c.payload.length + 2 + (size + 47) ≤ safeBytesPerBlob) :
    ∃ s, l2Producer.fillTransactions c (transferQueue size [0]) (fun _ => none) = .ok s ∧
      s.context.payload.body.transactions =
        c.payload.body.transactions ++ [paddedTransfer size 0] := by
  have hlength := @length_encode_paddedTransfer size 0 (by decide) hlower hupper
  obtain ⟨receipt, context, hexecute, hpayload⟩ := execute_padded size hamsterdam
  have hused : c.gasUsed = 0 := by
    rw [PayloadBuildContext.gasUsed, hamsterdam, hlimit, hgas]
    rfl
  have hstep := fillStep_padded hexecute hgas hused (by omega) (by omega)
  refine ⟨l2End size receipt context c, ?_, ?_⟩
  · show l2Producer.fillLoop noFees 2 (l2Start c (transferQueue size [0])) = _
    rw [BlockProducer.fillLoop, hstep]
    simp only
    rw [BlockProducer.fillLoop, fillStep_l2End]
  · show context.payload.body.transactions ++ [paddedTransfer size 0] = _
    rw [hpayload]

end Padded

/-- A transfer that leaves the count within the limit is taken into the block. -/
theorem buildPayload_padded {template : Block} (size : Nat)
    (hcreate : createPayload l2Producer.builder.rules l2Producer.builder.digests bulkyArgs
      bulkyParent (some 0) [] = .ok template)
    (hlength : template.length = 612) (hgas : template.header.gasLimit.val = 100000000)
    (hlower : 65536 ≤ size) (hupper : size ≤ 126315) :
    ∃ c nonces, l2Producer.buildPayload template 1 () (transferQueue size [0]) (fun _ => none) =
        .ok (c, nonces) ∧
      c.payload.body.transactions = [paddedTransfer size 0] := by
  have hlimit : safeBytesPerBlob = 126976 := rfl
  have hgasLimit : template.header.gasLimit = 100000000 := Fin.ext hgas
  obtain ⟨s, hfill, htxs⟩ := fillTransactions_padded
    (c := PayloadBuildContext.new l2Producer.builder.rules template 1 ()) size rfl
    hgasLimit hgasLimit hlower (by omega)
    (by
      show template.length + 2 + (size + 47) ≤ safeBytesPerBlob
      omega)
  obtain ⟨c, hfinalize⟩ : ∃ c, finalizePayload l2Producer.builder s.context = .ok c := ⟨_, rfl⟩
  refine ⟨c, s.privilegedNonces, ?_, ?_⟩
  · rw [BlockProducer.buildPayload, hfill]
    simp only [hfinalize]
  · rw [(finalizePayload_eq hfinalize).1, htxs, show (PayloadBuildContext.new
      l2Producer.builder.rules template 1 ()).payload.body.transactions = []
        from (createPayload_eq hcreate).1, List.nil_append]

theorem produced_committable_padded : ∃ template c nonces,
    createPayload l2Producer.builder.rules l2Producer.builder.digests bulkyArgs bulkyParent (some 0)
        [] = .ok template ∧
      l2Producer.buildPayload template 1 () (transferQueue 126206 [0]) (fun _ => none) =
        .ok (c, nonces) ∧
      c.payload.body.transactions = [paddedTransfer 126206 0] ∧ Committable noFees c.payload := by
  obtain ⟨template, hcreate, hlength, hgas⟩ := bulkyTemplate
  obtain ⟨c, nonces, hbuild, htxs⟩ := buildPayload_padded 126206 hcreate hlength hgas (by decide)
    (by decide)
  have hlimit : safeBytesPerBlob = 126976 := rfl
  have hfee : (feeConfigToVec noFees).length = 2 := rfl
  have hgrowth : finalGrowth = 101 := rfl
  refine ⟨template, c, nonces, hcreate, hbuild, htxs, produced_committable (p := l2Producer) rfl
    hcreate (by omega) ?_ hbuild⟩
  intro chosen hchosen _
  have hbytes := @encodedBytes_le _ [paddedTransfer 126206 0] hchosen
  rw [encodedBytes, encodedBytes, List.map_singleton, List.sum_singleton,
    length_encode_paddedTransfer (by decide) (by decide) (by decide), ← encodedBytes] at hbytes
  omega

theorem padded_not_committable : ∃ txs template c nonces,
    TransactionQueue.new (transferPool 126315 [0]) (some 7) = .ok txs ∧
      createPayload l2Producer.builder.rules l2Producer.builder.digests bulkyArgs bulkyParent
        (some 0) [] = .ok template ∧
      8 + template.length + (feeConfigToVec noFees).length ≤ safeBytesPerBlob ∧
      l2Producer.buildPayload template 1 () txs (fun _ => none) = .ok (c, nonces) ∧
      ¬ Committable noFees c.payload := by
  obtain ⟨template, hcreate, hlength, hgas⟩ := bulkyTemplate
  obtain ⟨c, nonces, hbuild, htxs⟩ := buildPayload_padded 126315 hcreate hlength hgas (by decide)
    le_rfl
  have hlimit : safeBytesPerBlob = 126976 := rfl
  have hfee : (feeConfigToVec noFees).length = 2 := rfl
  have hlower := (buildPayload_filled_l2 (p := l2Producer) rfl hcreate hbuild).1.lower
  rw [htxs, encodedBytes, List.map_singleton, List.sum_singleton,
    length_encode_paddedTransfer (by decide) (by decide) (by decide)] at hlower
  refine ⟨_, template, c, nonces, new_transferPool 126315 0 [], hcreate, by omega, hbuild, ?_⟩
  rw [committable_iff_fits]
  omega

end Ethrex.Rollup
