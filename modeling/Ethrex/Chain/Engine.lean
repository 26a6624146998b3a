import Ethrex.Chain.FullSync

/-!
# The engine requests

`engine_newPayload` and `engine_forkchoiceUpdated` with the deep reorganisation behind it. A payload
is answered from its stored header, executed, or stored unexecuted.
-/

namespace Ethrex.Chain

/-- `PayloadStatus`; an invalid one is given with its latest valid hash. -/
inductive PayloadStatus where
  | valid (latestValidHash : H256)
  | invalid (latestValidHash : H256)
  | syncing
  | accepted
  deriving DecidableEq, Repr

inductive RpcErr where
  | internal
  | invalidForkChoiceState
  | tooDeepReorg
  deriving DecidableEq, Repr

/-- What a request meets beside the node. -/
structure EngineEnv extends Execution where
  maxReorgDepth : Option Nat
  /-- Whether an access to the store fails while a fork choice is applied. -/
  storeFault : Bool
  flatkeyvalueFullyGenerated : Bool
  /-- The roots that are available under an overlay of the blocks between two numbers, when it can
  be installed. -/
  installOverlay : Store → Nat → Nat → Option (H256 → Bool)
  /-- The roots that are left when an overlay is discarded. -/
  abortReorg : (H256 → Bool) → H256 → Bool

namespace Node

/-- `Store::add_block`: a block is stored without being executed. -/
def stashBlock (n : Node) (block : Header) : Node :=
  { n with store := { n.store with
      headers := Function.update n.store.headers block.hash (some block) } }

def withStates (n : Node) (available : H256 → Bool) : Node :=
  { n with store := { n.store with hasStateRoot := available } }

end Node

/-- `validate_ancestors`: a record for the block or for its parent, which is copied to the block. -/
def validateAncestors (n : Node) (block : Header) : Option PayloadStatus × Node :=
  match n.latestValidAncestor block.hash with
  | some latestValidHash => (some (.invalid latestValidHash), n)
  | none =>
    match n.latestValidAncestor block.parentHash with
    | some latestValidHash =>
      (some (.invalid latestValidHash), n.setLatestValidAncestor block.hash latestValidHash)
    | none => (none, n)

/-- How `try_execute_payload` treats a block. -/
inductive PayloadRoute where
  | known
  | stash
  | execute (reexecutingCanonicalBlock : Bool)
  deriving DecidableEq

def payloadRoute (n : Node) (block : Header) : PayloadRoute :=
  match n.store.getBlockHeaderByHash block.hash with
  | some known =>
    if n.store.hasStateRoot known.stateRoot then .known
    else if n.store.hasBlockAndState block.parentHash then
      .execute (block.number ≤ n.store.latestBlockHeader.number ∧
        n.store.getCanonicalBlockHash block.number = some block.hash)
    -- Neither its state nor that of its parent is there: the header is enough.
    else .known
  | none =>
    match n.store.getBlockHeaderByHash block.parentHash with
    | some parent => if n.store.hasStateRoot parent.stateRoot then .execute false else .stash
    | none => .execute false

def classifyExecution (n : Node) (block : Header) (reexecutingCanonicalBlock : Bool) :
    Except ChainError Unit → Except RpcErr PayloadStatus × Node
  | .ok () => (.ok (.valid block.hash), n)
  | .error .parentNotFound => (.ok .syncing, n)
  | .error .parentStateNotFound => (.ok .syncing, n)
  | .error .invalidBlock | .error .evmError =>
    if reexecutingCanonicalBlock then (.ok (.valid block.hash), n)
    else
      (.ok (.invalid block.parentHash), n.setLatestValidAncestor block.hash block.parentHash)
  | .error _ => (.error .internal, n)

variable (env : EngineEnv)

def tryExecutePayload (n : Node) (block : Header) :
    Except RpcErr PayloadStatus × Node :=
  match payloadRoute n block with
  | .known => (.ok (.valid block.hash), n)
  | .stash => (.ok .accepted, n.stashBlock block)
  | .execute reexecuting =>
    let added := addBlockPipeline env.toExecution n block
    classifyExecution added.2 block reexecuting added.1

/-- `handle_new_payload`, for a block that hashes to the hash of its payload. -/
def newPayload (n : Node) (block : Header) : Except RpcErr PayloadStatus × Node :=
  match validateAncestors n block with
  | (some status, next) => (.ok status, next)
  | (none, _) => tryExecutePayload env n block

def mapChainErrorForFcu (e : ChainError) (lastValidHash : H256) : InvalidForkChoice :=
  match e with
  | .invalidBlock | .invalidTransaction => .invalidAncestor lastValidHash
  | _ => .stateNotReachable

def runReorgReplay (ex : Execution) (n : Node) : List H256 → Except InvalidForkChoice Unit × Node
  | [] => (.ok (), n)
  | hash :: hashes =>
    match n.store.getBlockHeaderByHash hash with
    | none => (.error .unlinkedHead, n)
    | some block =>
      match addBlock ex n block with
      | (.ok (), next) => runReorgReplay ex next hashes
      | (.error e, next) => (.error (mapChainErrorForFcu e block.parentHash), next)

/-- The number of the block below the ones that are replayed. -/
def pivotNumber (head : Header) (headIsCanonical : Bool) (branch : List (Nat × H256)) : Nat :=
  match branch.getLast? with
  | some lowest => lowest.1 - 1
  | none => if headIsCanonical then head.number else head.number - 1

/-- The blocks that a deep reorganisation executes again, oldest first. -/
def replayBlocks (headHash : H256) (headIsCanonical : Bool) (branch : List (Nat × H256)) :
    List H256 :=
  if headIsCanonical then [] else (branch.map Prod.snd).reverse ++ [headHash]

/-- The end of a deep reorganisation, once the overlay is installed. -/
def replayAndUpdate (n : Node) (head : Header) (headHash safeHash finalizedHash : H256)
    (headIsCanonical : Bool) (branch : List (Nat × H256)) :
    Except InvalidForkChoice Header × Node :=
  let abort := fun (m : Node) => m.withStates (env.abortReorg m.store.hasStateRoot)
  match runReorgReplay env.toExecution n (replayBlocks headHash headIsCanonical branch) with
  | (.error e, m) => (.error e, abort m)
  | (.ok (), m) =>
    let numberOf := fun hash =>
      if hash = zeroHash then none else (m.store.getBlockHeaderByHash hash).map Header.number
    match m.store.forkchoiceUpdate branch head.number headHash (numberOf safeHash)
      (numberOf finalizedHash) with
    | (.error e, updated) => (.error (.storeError e), abort { m with store := updated })
    | (.ok (), updated) => (.ok head, { m with store := updated })

def reorgApplyDeep (n : Node) (headHash safeHash finalizedHash : H256) :
    Except InvalidForkChoice Header × Node :=
  if env.flatkeyvalueFullyGenerated = false then (.error .syncing, n)
  else
    match n.store.getBlockHeaderByHash headHash with
    | none => (.error .syncing, n)
    | some head =>
      let headIsCanonical := n.store.isCanonical head.number headHash
      match findLinkWithCanonicalChain n.store head with
      | .error e => (.error (.storeError e), n)
      | .ok none => (.error .unlinkedHead, n)
      | .ok (some branch) =>
        let toBlock := pivotNumber head headIsCanonical branch + 1
        match n.store.stateHistory.getLast? with
        | none => (.error .stateNotReachable, n)
        | some edge =>
          if edge < toBlock then (.error .stateNotReachable, n)
          else
            match env.installOverlay n.store edge toBlock with
            | none => (.error .stateNotReachable, n)
            | some available =>
              replayAndUpdate env (n.withStates available) head headHash safeHash finalizedHash
                headIsCanonical branch

def applyForkChoiceWithDeepReorg (n : Node) (headHash safeHash finalizedHash : H256) :
    Except InvalidForkChoice Header × Node :=
  match applyForkChoice n.store headHash safeHash finalizedHash env.maxReorgDepth with
  | (.ok header, store) => (.ok header, { n with store })
  | (.error .stateNotReachable, _) => reorgApplyDeep env n headHash safeHash finalizedHash
  | (.error e, store) => (.error e, { n with store })

/-- The answer of `handle_forkchoice` to the result of the fork choice. -/
def forkchoiceResponse (n : Node) (headHash : H256) :
    Except InvalidForkChoice Header → Except RpcErr PayloadStatus
  | .ok _ => .ok (.valid headHash)
  | .error .newHeadAlreadyCanonical => .ok (.valid headHash)
  | .error .syncing => .ok .syncing
  | .error .stateNotReachable => .ok .syncing
  | .error (.disconnected _ _) => .error .invalidForkChoiceState
  | .error (.elementNotFound _) => .error .invalidForkChoiceState
  | .error (.tooDeepReorg _ _) => .error .tooDeepReorg
  | .error (.invalidAncestor lastValidHash) => .ok (.invalid lastValidHash)
  -- Every other reason is answered with the head of the node.
  | .error _ => .ok (.invalid n.store.latestBlockHeader.hash)

/-- The record that answers a fork choice at once: one for the head, or one for its parent with the
hash it is copied to. -/
def recordedAncestor (n : Node) (headHash : H256) : Option (H256 × Option H256) :=
  match n.latestValidAncestor headHash with
  | some latestValidHash => some (latestValidHash, none)
  | none =>
    (n.store.getBlockHeaderByHash headHash).bind fun head =>
      (n.latestValidAncestor head.parentHash).map fun latestValidHash =>
        (latestValidHash, some head.hash)

def handleForkchoice (n : Node) (headHash safeHash finalizedHash : H256) :
    Except RpcErr PayloadStatus × Node :=
  match recordedAncestor n headHash with
  | some (latestValidHash, none) => (.ok (.invalid latestValidHash), n)
  | some (latestValidHash, some child) =>
    (.ok (.invalid latestValidHash), n.setLatestValidAncestor child latestValidHash)
  | none =>
    if env.storeFault then (.ok (.invalid n.store.latestBlockHeader.hash), n)
    else
      let applied := applyForkChoiceWithDeepReorg env n headHash safeHash finalizedHash
      (forkchoiceResponse applied.2 headHash applied.1, applied.2)

/-- What happens to a node: requests, a full sync cycle, and commits that change which states are
available. -/
inductive Request where
  | newPayload (env : EngineEnv) (block : Header)
  | forkchoiceUpdated (env : EngineEnv) (headHash safeHash finalizedHash : H256)
  | fullSync (env : SyncEnv) (rounds : Nat) (head : H256)
  | states (available : H256 → Bool)

/-- The status that a request answers, and the node that it leaves. -/
def Request.handle (n : Node) : Request → Option PayloadStatus × Node
  | .newPayload env block =>
    let answer := Chain.newPayload env n block
    (answer.1.toOption, answer.2)
  | .forkchoiceUpdated env headHash safeHash finalizedHash =>
    let answer := handleForkchoice env n headHash safeHash finalizedHash
    (answer.1.toOption, answer.2)
  | .fullSync env rounds head => (none, ((syncCycleFull env rounds n head).map Attempt.node).getD n)
  | .states available => (none, n.withStates available)

def Node.run (n : Node) (requests : List Request) : Node :=
  requests.foldl (fun n request => (request.handle n).2) n

end Ethrex.Chain
