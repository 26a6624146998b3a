import Ethrex.Chain.ValidAnswers
import Ethrex.Chain.SyncCycle

/-!
# Which blocks are blamed

Whether a block fails against the true state of its parent is a predicate. As long as no rejected
block is stored, a block that is called invalid fails and has a sound parent.
-/

namespace Ethrex.Chain

open Lineage Lineage.Forest List

def blockTree (preimage : H256 → Header) : Forest H256 Header where
  find hash := some (preimage hash)
  parent := Header.parentHash
  height := Header.number

/-- On a sound parent execution calls only those blocks invalid that fail, and lets only those pass
that do not; of a block it gives up on nothing is said. -/
structure Execution.Truthful (preimage : H256 → Header) (fails : H256 → Prop) (ex : Execution) :
    Prop where
  number : ∀ block parent, preimage block.hash = block → preimage parent.hash = parent →
    block.parentHash = parent.hash → ¬ (blockTree preimage).Rejected fails parent.hash →
    block.number ≠ parent.number + 1 → fails block.hash
  execute : ∀ block parent e, preimage block.hash = block → preimage parent.hash = parent →
    block.parentHash = parent.hash → ¬ (blockTree preimage).Rejected fails parent.hash →
    ex.execute block parent = .error e → e = .invalidBlock ∨ e = .invalidTransaction →
    fails block.hash
  passes : ∀ block parent, preimage block.hash = block → preimage parent.hash = parent →
    block.parentHash = parent.hash → ¬ (blockTree preimage).Rejected fails parent.hash →
    ex.execute block parent = .ok () → ¬ fails block.hash

/-- No stored block is rejected. -/
def Node.Sound (preimage : H256 → Header) (fails : H256 → Prop) (n : Node) : Prop :=
  ∀ h x, n.store.headers h = some x → ¬ (blockTree preimage).Rejected fails h

/-- Every record gives the last sound ancestor of a block that is rejected. -/
def RecordsRightly (preimage : H256 → Header) (fails : H256 → Prop) (n : Node) : Prop :=
  ∀ h l, n.latestValidAncestor h = some l → (blockTree preimage).LastSound fails h l

structure Node.Fair (preimage : H256 → Header) (fails : H256 → Prop) (n : Node) : Prop where
  genuine : n.Genuine preimage
  sound : n.Sound preimage fails
  records : RecordsRightly preimage fails n

section Added

variable {preimage : H256 → Header} {fails : H256 → Prop} {ex : Execution} {n m : Node}
  {block : Header} {l : H256}

theorem Node.Sound.parent {hash : H256} {parent : Header} (sound : n.Sound preimage fails)
    (genuine : n.Genuine preimage) (found : n.store.getBlockHeaderByHash hash = some parent) :
    ¬ (blockTree preimage).Rejected fails hash := by
  rw [genuine.getBlockHeaderByHash] at found
  exact sound _ _ found

theorem ancestor_parentHash (named : preimage block.hash = block) :
    (blockTree preimage).Ancestor block.parentHash block.hash := by
  refine .step rfl ?_
  rw [named]
  exact .refl _

variable (truthful : ex.Truthful preimage fails) (genuine : n.Genuine preimage)
  (sound : n.Sound preimage fails) (named : preimage block.hash = block)

include truthful genuine sound named

end Added

section Records

variable {preimage : H256 → Header} {fails : H256 → Prop} {n m : Node} {block : Header} {l : H256}

theorem RecordsRightly.congr (right : RecordsRightly preimage fails n)
    (same : m.latestValidAncestor = n.latestValidAncestor) : RecordsRightly preimage fails m :=
  fun h l recorded => right h l (same ▸ recorded)

theorem RecordsRightly.set (right : RecordsRightly preimage fails n) {h : H256}
    (last : (blockTree preimage).LastSound fails h l) :
    RecordsRightly preimage fails (n.setLatestValidAncestor h l) := by
  intro h' l' recorded
  simp only [Node.setLatestValidAncestor, Function.update_apply] at recorded
  split at recorded
  · next same =>
    obtain rfl := Option.some.inj recorded
    exact same ▸ last
  · exact right h' l' recorded

theorem RecordsRightly.child (right : RecordsRightly preimage fails n)
    (named : preimage block.hash = block)
    (recorded : n.latestValidAncestor block.parentHash = some l) :
    (blockTree preimage).LastSound fails block.hash l :=
  (right _ _ recorded).descend (ancestor_parentHash named)

theorem Node.Fair.set (fair : n.Fair preimage fails) {h : H256}
    (last : (blockTree preimage).LastSound fails h l) :
    (n.setLatestValidAncestor h l).Fair preimage fails :=
  ⟨fair.genuine.setLatestValidAncestor _ _, fair.sound, fair.records.set last⟩

theorem Node.Fair.update {blocks : List (Nat × H256)} {number : Nat} {hash : H256}
    {safe finalized : Option Nat} {outcome : Except StoreError Unit} {next : Store}
    (fair : n.Fair preimage fails)
    (result : n.store.forkchoiceUpdate blocks number hash safe finalized = (outcome, next)) :
    Node.Fair preimage fails { n with store := next } := by
  refine ⟨fair.genuine.forkchoiceUpdate result, fun h x found => fair.sound h x ?_, fair.records.congr rfl⟩
  cases outcome with
  | error e => rwa [Store.forkchoiceUpdate_error result] at found
  | ok done =>
    obtain ⟨-, -, headers, -⟩ := Store.forkchoiceUpdate_ok result
    exact headers ▸ found

end Records

section Batch

variable {preimage : H256 → Header} {fails : H256 → Prop} {ex : Execution} {n : Node}
  {blocks : List Header} {failed : H256}

theorem Node.Fair.recordFailure {l : H256} {hashes : List H256} (fair : n.Fair preimage fails)
    (last : ∀ h ∈ hashes, (blockTree preimage).LastSound fails h l) :
    (hashes.foldl (fun n hash => n.setLatestValidAncestor hash l) n).Fair preimage fails := by
  induction hashes generalizing n with
  | nil => exact fair
  | cons hash hashes ih =>
    exact ih (fair.set (last hash (mem_cons_self ..))) fun h mem => last h (mem_cons_of_mem _ mem)

variable {env : SyncEnv} {rounds : Nat} {head : H256}

/-- What a cycle is asked for: a served block that fails has no stored parent and all served blocks
fit in one batch, and a pending block that fails has a pending parent that is not stored. -/
structure SyncEnv.Shields (fails : H256 → Prop) (env : SyncEnv) (n : Node) : Prop where
  served : ∀ {x}, env.Served x → fails x.hash → n.store.headers x.parentHash = none ∧
    ∀ {y z}, env.Served y → env.Served z → y.number < z.number + env.executeBatchSize
  pending : ∀ {h x}, n.pendingBlocks h = some x → fails x.hash →
    n.store.headers x.parentHash = none ∧ n.pendingBlocks x.parentHash ≠ none

end Batch

end Ethrex.Chain
