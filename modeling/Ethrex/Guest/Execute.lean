import Ethrex.Guest.State

/-!
# Stateless execution of a batch

The execution of a block is any program that reads accounts, slots, codes and block hashes and ends
with account updates and a result; the checks of bodies, fork fields and results are parameters.
Reads are logged with their answers.
-/

namespace Ethrex.Guest

open Rlp Mpt

/-- A block execution as the reads it makes and what it does with the answers. -/
inductive Program (α : Type) where
  | ret (result : α)
  | fail
  | account (address : Address) (next : Option AccountState → Program α)
  | slot (address : Address) (key : H256) (next : Option U256 → Program α)
  | code (codeHash : H256) (next : Code → Program α)
  | codeMetadata (codeHash : H256) (next : Nat → Program α)
  /-- The `BLOCKHASH` opcode with its stack argument. -/
  | blockHash (number : U256) (next : U256 → Program α)

inductive Read where
  | account (address : Address) (answer : Option AccountState)
  | slot (address : Address) (key : H256) (answer : Option U256)
  | code (codeHash : H256) (answer : Code)
  | codeMetadata (codeHash : H256) (length : Nat)
  | blockHash (number : U64) (answer : H256)
  deriving DecidableEq

inductive ExecutionError where
  | blockBodyValidation
  | blockHeader (e : InvalidBlockHeaderError)
  | blockValidation
  | gasValidation
  | requestsRootValidation
  | receiptsRootValidation
  | evm (e : GuestProgramStateError)
  | evmFailed
  | emptyBatch
  | guestProgramState (e : GuestProgramStateError)
  | invalidInitialStateTrie
  | invalidFinalStateTrie
  | invalidBlockHash (number : U64)
  deriving DecidableEq, Repr

structure Block (B : Type) where
  header : BlockHeader
  body : B

/-- `OpBlockHashHandler` reads the hash of a block at most 256 blocks back. -/
def inBlockHashRange (blockNumber number : U64) : Bool :=
  number < blockNumber && blockNumber - number ≤ 256

section

variable (keccak256 : Bytes → H256) (fuel : Nat)

def Program.run {α : Type} (blockNumber : U64) :
    Program α → GuestProgramState → Except ExecutionError (α × GuestProgramState × List Read)
  | .ret result, state => .ok (result, state, [])
  | .fail, _ => .error .evmFailed
  | .account address next, state =>
    match state.getAccountState keccak256 fuel address with
    | .error e => .error (.evm e)
    | .ok (answer, state) => do
      let (result, state, reads) ← (next answer).run blockNumber state
      .ok (result, state, .account address answer :: reads)
  | .slot address key next, state =>
    match state.getStorageSlot keccak256 fuel address key with
    | .error e => .error (.evm e)
    | .ok (answer, state) => do
      let (result, state, reads) ← (next answer).run blockNumber state
      .ok (result, state, .slot address key answer :: reads)
  | .code codeHash next, state =>
    match state.getAccountCode codeHash with
    | .error e => .error (.evm e)
    | .ok answer => do
      let (result, state, reads) ← (next answer).run blockNumber state
      .ok (result, state, .code codeHash answer :: reads)
  | .codeMetadata codeHash next, state =>
    match state.getCodeMetadata codeHash with
    | .error e => .error (.evm e)
    | .ok length => do
      let (result, state, reads) ← (next length).run blockNumber state
      .ok (result, state, .codeMetadata codeHash length :: reads)
  | .blockHash argument next, state =>
    let number : U64 := Fin.ofNat _ argument.val
    if argument.val < 2 ^ 64 && inBlockHashRange blockNumber number then
      match state.getBlockHash keccak256 number with
      | .error e => .error (.evm e)
      | .ok answer => do
        let (result, state, reads) ←
          (next (Fin.ofNat _ (fromBeBytes answer.bytes))).run blockNumber state
        .ok (result, state, .blockHash number answer :: reads)
    else (next 0).run blockNumber state

/-- What other crates supply: the virtual machine, and the checks of a block before and after
execution. -/
structure Backend (B R : Type) where
  validateBlockBody : Block B → Except ExecutionError Unit
  validateForkFields : Block B → BlockHeader → Except ExecutionError Unit
  executeBlock : Nat → Block B → Program (R × List AccountUpdate)
  validateResult : Block B → R → Except ExecutionError Unit

variable {B R : Type} (backend : Backend B R) (elasticityMultiplier : U64)

/-- One turn of the loop of `execute_blocks`. -/
def executeBlock (i : Nat) (block : Block B) (parent : BlockHeader) (state : GuestProgramState) :
    Except ExecutionError (GuestProgramState × R × List AccountUpdate × List Read) := do
  backend.validateBlockBody block
  match validateBlockHeader keccak256 block.header parent elasticityMultiplier with
  | .error e => .error (.blockHeader e)
  | .ok () => do
    backend.validateForkFields block parent
    let ((result, updates), state, reads) ←
      (backend.executeBlock i block).run keccak256 fuel block.header.number state
    match state.applyAccountUpdates keccak256 fuel updates with
    | .error e => .error (.guestProgramState e)
    | .ok state => do
      backend.validateResult block result
      .ok (state, result, updates, reads)

structure BlockTrace (R : Type) where
  result : R
  updates : List AccountUpdate
  reads : List Read
  deriving DecidableEq

def executeFrom : Nat → List (Block B) → BlockHeader → GuestProgramState →
    Except ExecutionError (GuestProgramState × List (BlockTrace R))
  | _, [], _, state => .ok (state, [])
  | i, block :: blocks, parent, state => do
    let (state, result, updates, reads) ←
      executeBlock keccak256 fuel backend elasticityMultiplier i block parent state
    let (state, traces) ← executeFrom (i + 1) blocks block.header state
    .ok (state, ⟨result, updates, reads⟩ :: traces)

structure BatchExecutionResult (R : Type) where
  traces : List (BlockTrace R)
  initialStateHash : H256
  finalStateHash : H256
  lastBlockHash : H256
  deriving DecidableEq

/-- The blocks with the hashes that `initialize_block_header_hashes` sets. -/
def withHeaders (blocks : List (Block B)) (headers : List BlockHeader) : List (Block B) :=
  List.zipWith (fun block header => { block with header }) blocks headers

def executeBlocks (blocks : List (Block B)) (witness : ExecutionWitness) :
    Except ExecutionError (BatchExecutionResult R) :=
  match GuestProgramState.fromWitness keccak256 witness with
  | .error e => .error (.guestProgramState e)
  | .ok state =>
    let (headers, state) := state.initializeBlockHeaderHashes keccak256 (blocks.map Block.header)
    match state.getFirstInvalidBlockHash keccak256 with
    | .ok (some number) => .error (.invalidBlockHash number)
    | _ =>
      match withHeaders blocks headers with
      | [] => .error .emptyBatch
      | first :: rest =>
        match state.getBlockParentHeader first.header.number with
        | .error e => .error (.guestProgramState e)
        | .ok parent =>
          let (initialStateHash, state) := state.stateTrieRoot keccak256
          if initialStateHash ≠ parent.stateRoot then .error .invalidInitialStateTrie
          else do
            let (state, traces) ←
              executeFrom keccak256 fuel backend elasticityMultiplier 0 (first :: rest) parent state
            let last := (first :: rest).getLast (by simp)
            let (finalStateHash, _) := state.stateTrieRoot keccak256
            if finalStateHash ≠ last.header.stateRoot then .error .invalidFinalStateTrie
            else .ok {
              traces, initialStateHash, finalStateHash
              lastBlockHash := last.header.computeBlockHash keccak256 }

end

end Ethrex.Guest
