import Ethrex.Chain.ForkChoice

/-!
# Adding blocks

The tables beside the block store, and the one way a block is executed: on a stored parent whose
state is available.
-/

namespace Ethrex.Chain

open Lineage

/-- The variants of `ChainError`, without their texts. -/
inductive ChainError where
  | invalidBlock
  | parentNotFound
  | parentStateNotFound
  | storeError
  | trieError
  | rlpDecodeError
  | evmError
  | invalidTransaction
  | witnessGeneration
  | custom
  | unknownPayload
  deriving DecidableEq, Repr

structure Node where
  store : Store
  pendingBlocks : H256 → Option Header
  /-- `INVALID_CHAINS`: the latest valid ancestor that was recorded for a block. -/
  latestValidAncestor : H256 → Option H256
  /-- `FULLSYNC_HEADERS`: what header walks have left under each number. -/
  fullsyncHeaders : Nat → Option Header
  /-- The blocks that have passed validation and execution, for the history; nothing reads it. -/
  executed : H256 → Bool

/-- What the execution of blocks answers, and which states it leaves. -/
structure Execution where
  /-- The answer for a block on top of the state of a parent. -/
  execute : Header → Header → Except ChainError Unit
  /-- The roots whose state is available once a block was stored. -/
  retain : (H256 → Bool) → Header → H256 → Bool
  retain_own : ∀ roots block, retain roots block block.stateRoot = true

def Execution.keeping (execute : Header → Header → Except ChainError Unit) : Execution where
  execute
  retain roots block root := root = block.stateRoot || roots root
  retain_own := by simp

variable (ex : Execution)

namespace Store

def getBlockHeader (s : Store) (number : Nat) : Option Header :=
  if number = s.latestBlockHeader.number then some s.latestBlockHeader
  else (s.getCanonicalBlockHash number).bind s.getBlockHeaderByHash

/-- `is_canonical_sync`: the number of a block is stored with its header. -/
def isCanonicalSync (s : Store) (hash : H256) : Bool :=
  match s.headers hash with
  | some header => s.isCanonical header.number hash
  | none => false

def hasBlockAndState (s : Store) (hash : H256) : Bool :=
  match s.getBlockHeaderByHash hash with
  | some header => s.hasStateRoot header.stateRoot
  | none => false

/-- `store_block`, on the tables of the model. -/
def storeBlock (s : Store) (block : Header) : Store :=
  { s with
    headers := Function.update s.headers block.hash (some block)
    hasStateRoot := ex.retain s.hasStateRoot block }

theorem storeBlock_headers (s : Store) (block : Header) (hash : H256) :
    (s.storeBlock ex block).headers hash =
      if hash = block.hash then some block else s.headers hash :=
  Function.update_apply ..

end Store

variable (n : Node) (block : Header)

namespace Node

def addPendingBlock : Node :=
  { n with pendingBlocks := Function.update n.pendingBlocks block.hash (some block) }

def setLatestValidAncestor (badBlock latestValid : H256) : Node :=
  { n with latestValidAncestor := Function.update n.latestValidAncestor badBlock (some latestValid) }

def storeBlock (ex : Execution) (n : Node) (block : Header) : Node :=
  { n with
    store := n.store.storeBlock ex block
    executed := Function.update n.executed block.hash true }

@[simp] theorem storeBlock_store :
    (n.storeBlock ex block).store = n.store.storeBlock ex block := rfl

theorem storeBlock_executed (hash : H256) :
    (n.storeBlock ex block).executed hash = if hash = block.hash then true else n.executed hash :=
  Function.update_apply ..

end Node

/-- `add_block_pipeline`: without a stored parent a block is kept as pending; it is stored once
executed. -/
def addBlockPipeline : Except ChainError Unit × Node :=
  match n.store.getBlockHeaderByHash block.parentHash with
  | none => (.error .parentNotFound, n.addPendingBlock block)
  | some parent =>
    -- `StoreVmDatabase::new` refuses a parent without its state.
    if n.store.hasStateRoot parent.stateRoot then
      if block.number = parent.number + 1 then
        match ex.execute block parent with
        | .ok () => (.ok (), n.storeBlock ex block)
        | .error e => (.error e, n)
      else (.error .invalidBlock, n)
    else (.error .evmError, n)

/-- `Blockchain::add_block`, which validates a block before it looks for the state. -/
def addBlock : Except ChainError Unit × Node :=
  match n.store.getBlockHeaderByHash block.parentHash with
  | none => (.error .parentNotFound, n.addPendingBlock block)
  | some parent =>
    if block.number = parent.number + 1 then
      if n.store.hasStateRoot parent.stateRoot then
        match ex.execute block parent with
        | .ok () => (.ok (), n.storeBlock ex block)
        | .error e => (.error e, n)
      else (.error .evmError, n)
    else (.error .invalidBlock, n)

variable {ex : Execution} {n next : Node} {block : Header}

/-- What becomes of a block, whichever of the two functions adds it. -/
inductive Added (ex : Execution) (n : Node) (block : Header) : Except ChainError Unit × Node → Prop
  | pending : Added ex n block (.error .parentNotFound, n.addPendingBlock block)
  | stateless {parent : Header} :
      n.store.getBlockHeaderByHash block.parentHash = some parent →
      n.store.hasStateRoot parent.stateRoot ≠ true → Added ex n block (.error .evmError, n)
  | misnumbered {parent : Header} :
      n.store.getBlockHeaderByHash block.parentHash = some parent →
      block.number ≠ parent.number + 1 → Added ex n block (.error .invalidBlock, n)
  | refused {parent : Header} {e : ChainError} :
      n.store.getBlockHeaderByHash block.parentHash = some parent →
      ex.execute block parent = .error e → Added ex n block (.error e, n)
  | stored {parent : Header} :
      n.store.getBlockHeaderByHash block.parentHash = some parent →
      n.store.hasStateRoot parent.stateRoot = true → block.number = parent.number + 1 →
      ex.execute block parent = .ok () → Added ex n block (.ok (), n.storeBlock ex block)

variable {r : Except ChainError Unit × Node}

theorem addBlockPipeline_added (result : addBlockPipeline ex n block = r) : Added ex n block r := by
  subst result
  unfold addBlockPipeline
  split
  · exact .pending
  next parent found =>
  split
  · next state =>
    split
    · next number =>
      split
      · next executed => exact .stored found state number executed
      · next executed => exact .refused found executed
    · next number => exact .misnumbered found number
  · next absent => exact .stateless found absent

theorem addBlock_added (result : addBlock ex n block = r) : Added ex n block r := by
  subst result
  unfold addBlock
  split
  · exact .pending
  next parent found =>
  split
  · next number =>
    split
    · next state =>
      split
      · next executed => exact .stored found state number executed
      · next executed => exact .refused found executed
    · next absent => exact .stateless found absent
  · next number => exact .misnumbered found number

theorem Added.ok (added : Added ex n block (.ok (), next)) :
    ∃ parent, n.store.getBlockHeaderByHash block.parentHash = some parent ∧
      n.store.hasStateRoot parent.stateRoot = true ∧ block.number = parent.number + 1 ∧
      ex.execute block parent = .ok () ∧ next = n.storeBlock ex block := by
  cases added with
  | stored found state number executed => exact ⟨_, found, state, number, executed, rfl⟩

theorem Added.error {e : ChainError} (added : Added ex n block (.error e, next)) :
    next.store = n.store ∧ next.executed = n.executed := by
  cases added <;> exact ⟨rfl, rfl⟩

end Ethrex.Chain
