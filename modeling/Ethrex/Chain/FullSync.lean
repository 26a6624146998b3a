import Ethrex.Chain.Node

/-!
# A full sync cycle

`sync_cycle_full`: the walk over headers from the sync head down to a block that execution can
resume from, the batches of downloaded blocks, and the pending blocks.
-/

namespace Ethrex.Chain

inductive SyncError where
  | chain (e : ChainError)
  | store (e : StoreError)
  | stateUnrecoverable
  | invalidRangeReceived
  | noBlocks
  | peerHandler
  | missingFullsyncBatch
  deriving DecidableEq, Repr

inductive HeaderFetchOutcome where
  | headers (blockHeaders : List Header)
  | unavailable
  | failed

inductive BodyFetch where
  | obtained
  | unavailable
  | failed
  deriving DecidableEq

/-- What a cycle depends on beside the node: execution, the peers and the batch size. -/
structure SyncEnv extends Execution where
  /-- The answer of the peers for a hash in a round. -/
  requestBlockHeaders : Nat → H256 → HeaderFetchOutcome
  requestBlockBody : Header → BodyFetch
  executeBatchSize : Nat
  executeBatchSize_pos : 0 < executeBatchSize

def maxHeaderFetchAttempts : Nat := 10

/-- A block handed to execution, or an update of the canonical index, with the store at that
time. -/
inductive SyncEvent where
  | handed (s : Store) (block : Header)
  | updated (s : Store)

structure Attempt (ε : Type) where
  events : List SyncEvent
  node : Node
  result : Except ε Unit

namespace Attempt

variable {ε : Type}

def done (n : Node) : Attempt ε := ⟨[], n, .ok ()⟩

def failed (n : Node) (e : ε) : Attempt ε := ⟨[], n, .error e⟩

def prepend (events : List SyncEvent) (a : Attempt ε) : Attempt ε :=
  { a with events := events ++ a.events }

def andThen (a : Attempt ε) (next : Node → Attempt ε) : Attempt ε :=
  match a.result with
  | .ok () => (next a.node).prepend a.events
  | .error _ => a

end Attempt

structure BatchBlockProcessingFailure where
  failedBlockHash : H256
  lastValidHash : H256

/-- The loop of `run_blocks_pipeline` and of `Blockchain::add_blocks_in_batch`. -/
def addBlocks (ex : Execution) (lastValidHash : H256) (n : Node) :
    List Header → Attempt (ChainError × BatchBlockProcessingFailure)
  | [] => .done n
  | block :: blocks =>
    match addBlockPipeline ex n block with
    | (.ok (), next) =>
      (addBlocks ex block.hash next blocks).prepend [.handed n.store block]
    | (.error e, next) =>
      ⟨[.handed n.store block], next, .error (e, ⟨block.hash, lastValidHash⟩)⟩

/-- The records of a failed batch: from the failed block on, every block has an invalid ancestor. -/
def recordFailure (n : Node) (blocksHashes : List H256) (e : ChainError)
    (failure : BatchBlockProcessingFailure) : Node :=
  if e = .invalidBlock then
    (blocksHashes.dropWhile (· ≠ failure.failedBlockHash)).foldl
      (fun n hash => n.setLatestValidAncestor hash failure.lastValidHash) n
  else n

/-- `add_blocks_in_batch` of the full sync. -/
def addBlocksInBatch (ex : Execution) (n : Node) (blocks : List Header) : Attempt SyncError :=
  match blocks.getLast? with
  | none => .failed n .invalidRangeReceived
  | some last =>
    let added := addBlocks ex zeroHash n blocks
    match added.result with
    | .error (e, failure) =>
      ⟨added.events, recordFailure added.node (blocks.map Header.hash) e failure,
        .error (.chain e)⟩
    | .ok () =>
      match added.node.store.forkchoiceUpdate (blocks.map fun b => (b.number, b.hash)) last.number
        last.hash none none with
      | (.ok (), updated) =>
        ⟨added.events ++ [.updated updated], { added.node with store := updated }, .ok ()⟩
      | (.error e, same) =>
        ⟨added.events, { added.node with store := same }, .error (.store e)⟩

def Store.isResumePoint (s : Store) (header : Header) : Bool :=
  s.isCanonicalSync header.hash && s.hasStateRoot header.stateRoot

def Store.firstResumePointInBatch (s : Store) (blockHeaders : List Header) (localHead : Nat) :
    Option Nat :=
  match blockHeaders.getLast? with
  | none => none
  | some oldest =>
    if localHead < oldest.number then none else blockHeaders.findIdx? s.isResumePoint

/-- The pending blocks from the sync head down, oldest first, and the hash below them. -/
def gatherPendingBlocks (n : Node) : Nat → H256 → List Header → Option (H256 × List Header)
  | 0, _, _ => none
  | fuel + 1, syncHead, pending =>
    match n.pendingBlocks syncHead with
    | some block =>
      if n.store.isCanonicalSync block.hash then some (syncHead, pending)
      else gatherPendingBlocks n fuel block.parentHash (block :: pending)
    | none => some (syncHead, pending)

def addFullsyncBatch (table : Nat → Option Header) (headers : List Header) :
    Nat → Option Header :=
  headers.foldl (fun table header => Function.update table header.number (some header)) table

/-- `read_fullsync_batch`, with every header required to be there. -/
def readFullsyncBatch (table : Nat → Option Header) (start limit : Nat) :
    Except SyncError (List Header) :=
  match (List.range limit).mapM fun i => table (start + i) with
  | some headers => .ok headers
  | none => .error .missingFullsyncBatch

structure HeaderWalk where
  syncHead : H256
  endBlockNumber : Nat
  singleBatch : Bool
  attempts : Nat
  fullsyncHeaders : Nat → Option Header

/-- What a header walk hands to the download of bodies. -/
structure Download where
  startBlockNumber : Nat
  endBlockNumber : Nat
  headers : List Header
  singleBatch : Bool
  fullsyncHeaders : Nat → Option Header

inductive Walked where
  | fetching
  | ended (fullsyncHeaders : Nat → Option Header)
  | failed (e : SyncError) (fullsyncHeaders : Nat → Option Header)
  | found (download : Download)

/-- The end of the walk, at headers that join the executed chain or have no parent. -/
def finishWalk (s : Store) (w : HeaderWalk) (blockHeaders : List Header) (newest : Header)
    (batchResumeIndex : Option Nat) : Walked :=
  let kept := blockHeaders.take (batchResumeIndex.getD blockHeaders.length)
  -- When the whole answer was executed before, the blocks to run start above it.
  let startBlockNumber := (kept.getLast?.map Header.number).getD (newest.number + 1)
  let resumeParent := s.getBlockHeader (startBlockNumber - 1)
  if resumeParent.any fun parent => s.hasStateRoot parent.stateRoot then
    .found {
      startBlockNumber
      endBlockNumber := max w.endBlockNumber newest.number
      headers := if w.singleBatch then kept.reverse else []
      singleBatch := w.singleBatch
      fullsyncHeaders :=
        if w.singleBatch then w.fullsyncHeaders else addFullsyncBatch w.fullsyncHeaders kept }
  else .failed .stateUnrecoverable fun _ => none

/-- The loop over header batches, newest to oldest, with the rounds that are left. -/
def walkHeaders (env : SyncEnv) (s : Store) (fcuHead : H256) : Nat → HeaderWalk → Walked
  | 0, _ => .fetching
  | rounds + 1, w =>
    if s.hasBlockAndState fcuHead then .ended w.fullsyncHeaders
    else
      match env.requestBlockHeaders rounds w.syncHead with
      | .failed => .failed .peerHandler w.fullsyncHeaders
      | .unavailable =>
        if maxHeaderFetchAttempts ≤ w.attempts then .ended w.fullsyncHeaders
        else walkHeaders env s fcuHead rounds { w with attempts := w.attempts + 1 }
      | .headers blockHeaders =>
        match blockHeaders.head?, blockHeaders.getLast? with
        | some newest, some oldest =>
          let parentIsResumePoint := (s.getBlockHeaderByHash oldest.parentHash).any s.isResumePoint
          let batchResumeIndex :=
            s.firstResumePointInBatch blockHeaders s.latestBlockHeader.number
          if parentIsResumePoint || batchResumeIndex.isSome || oldest.parentHash = zeroHash then
            finishWalk s w blockHeaders newest batchResumeIndex
          else
            walkHeaders env s fcuHead rounds {
              syncHead := oldest.parentHash
              endBlockNumber := max w.endBlockNumber newest.number
              singleBatch := false
              attempts := 0
              fullsyncHeaders := addFullsyncBatch w.fullsyncHeaders blockHeaders }
        | _, _ => .failed .noBlocks w.fullsyncHeaders

/-- The headers of the table from a number up to another, in batches of a size. -/
def fullsyncBatches (table : Nat → Option Header) (size : Nat) :
    Nat → Nat → Nat → List (Except SyncError (List Header))
  | 0, _, _ => []
  | fuel + 1, start, stop =>
    if start < stop then
      readFullsyncBatch table start (min size (stop - start)) ::
        fullsyncBatches table size fuel (start + size) stop
    else []

def Download.batches (d : Download) (size : Nat) : List (Except SyncError (List Header)) :=
  if d.singleBatch then
    if d.headers = [] then [] else [.ok d.headers]
  else
    let start := max d.startBlockNumber 1
    let stop := d.endBlockNumber + 1
    fullsyncBatches d.fullsyncHeaders size (stop - start) start stop

/-- The bodies of a batch: the first header without a body decides. -/
def downloadBodies (env : SyncEnv) : List Header → BodyFetch
  | [] => .obtained
  | header :: headers =>
    match env.requestBlockBody header with
    | .obtained => downloadBodies env headers
    | .unavailable => .unavailable
    | .failed => .failed

/-- The batches as they reach the execution: bodies that stay unavailable end the download without
an error. -/
def runBatches (env : SyncEnv) (n : Node) : List (Except SyncError (List Header)) → Attempt SyncError
  | [] => .done n
  | .error e :: _ => .failed n e
  | .ok headers :: batches =>
    match downloadBodies env headers with
    | .obtained =>
      (addBlocksInBatch env.toExecution n headers).andThen fun n => runBatches env n batches
    | .unavailable => .done n
    | .failed => .failed n .peerHandler

/-- The pending blocks run if the parent of the oldest has its state. -/
def runPending (env : SyncEnv) (n : Node) (pending : List Header) : Attempt SyncError :=
  match pending.head? with
  | none => .done n
  | some oldest =>
    if n.store.hasBlockAndState oldest.parentHash then
      addBlocksInBatch env.toExecution n pending
    else .done n

/-- What is left to do once the headers were walked. -/
inductive Prepared where
  | ended (a : Attempt SyncError)
  | pendingOnly (pending : List Header)
  | download (d : Download) (pending : List Header)

/-- The part of a cycle before anything is executed, with a bound on its loops. -/
def prepare (env : SyncEnv) (rounds : Nat) (n : Node) (head : H256) : Option Prepared :=
  if n.store.hasBlockAndState head then some (.ended (.done n))
  else
    match gatherPendingBlocks n rounds head [] with
    | none => none
    | some (syncHead, pending) =>
      if pending ≠ [] ∧ n.store.isCanonicalSync syncHead ∧ n.store.hasBlockAndState syncHead then
        some (.pendingOnly pending)
      else
        match walkHeaders env n.store head rounds
          { syncHead, endBlockNumber := 0, singleBatch := true, attempts := 0,
            fullsyncHeaders := n.fullsyncHeaders } with
        | .fetching => none
        | .ended table => some (.ended (.done { n with fullsyncHeaders := table }))
        | .failed e table => some (.ended (.failed { n with fullsyncHeaders := table } e))
        | .found d => some (.download d pending)

def clearFullsyncHeaders (n : Node) : Attempt SyncError :=
  .done { n with fullsyncHeaders := fun _ => none }

/-- `sync_cycle_full`; there is no answer for a cycle that needs more rounds. -/
def syncCycleFull (env : SyncEnv) (rounds : Nat) (n : Node) (head : H256) :
    Option (Attempt SyncError) :=
  match prepare env rounds n head with
  | none => none
  | some (.ended a) => some a
  | some (.pendingOnly pending) =>
    some ((addBlocksInBatch env.toExecution n pending).andThen clearFullsyncHeaders)
  | some (.download d pending) =>
    -- The head is looked up once more before the bodies are downloaded.
    if n.store.hasBlockAndState head then some (.done { n with fullsyncHeaders := d.fullsyncHeaders })
    else
      some (((runBatches env { n with fullsyncHeaders := d.fullsyncHeaders }
        (d.batches env.executeBatchSize)).andThen fun n => runPending env n pending).andThen
          clearFullsyncHeaders)

open List in
theorem gatherPendingBlocks_linked {preimage : H256 → Header} {n : Node} {fuel : Nat}
    {syncHead below : H256} {above pending : List Header}
    (genuine : ∀ {h x}, n.pendingBlocks h = some x → x.hash = h ∧ preimage h = x)
    (linked : above.IsChain fun p b => b.parentHash = p.hash)
    (held : ∀ b ∈ above, n.pendingBlocks b.hash = some b)
    (bottom : ∀ oldest ∈ above.head?, oldest.parentHash = syncHead)
    (gathered : gatherPendingBlocks n fuel syncHead above = some (below, pending)) :
    pending.IsChain (fun p b => b.parentHash = p.hash) ∧
      (∀ b ∈ pending, n.pendingBlocks b.hash = some b) ∧
      (∀ oldest ∈ pending.head?, oldest.parentHash = below) ∧
      ∀ {x}, n.pendingBlocks below = some x → n.store.isCanonicalSync x.hash = true := by
  induction fuel generalizing syncHead above with
  | zero => cases gathered
  | succ fuel ih =>
    rw [gatherPendingBlocks] at gathered
    split at gathered
    · next block found =>
      split at gathered
      · next canonical =>
        cases gathered
        refine ⟨linked, held, bottom, fun {x} found' => ?_⟩
        rwa [← Option.some.inj (found.symm.trans found')]
      obtain ⟨hash, -⟩ := genuine found
      refine ih (isChain_cons.2 ⟨fun b isHead => ?_, linked⟩) (fun b mem => ?_)
        (fun oldest isHead => ?_) gathered
      · rw [bottom b isHead, hash]
      · rcases mem_cons.1 mem with rfl | mem
        · rw [hash, found]
        · exact held b mem
      · obtain rfl : block = oldest := by simpa using isHead
        rfl
    · next absent =>
      cases gathered
      refine ⟨linked, held, bottom, fun {x} found => ?_⟩
      rw [absent] at found
      cases found

end Ethrex.Chain
