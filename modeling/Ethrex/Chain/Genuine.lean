import Ethrex.Chain.Engine

/-!
# One header for each hash

No two headers that a node gets to know share a hash, which is what the hash function is trusted
for.
-/

namespace Ethrex.Chain

open List

/-- A hash stands for one header in all tables of a node. -/
structure Node.Genuine (preimage : H256 → Header) (n : Node) : Prop where
  stored : ∀ {h x}, n.store.headers h = some x → x.hash = h ∧ preimage h = x
  cached : n.store.headers n.store.latestBlockHeader.hash = some n.store.latestBlockHeader
  pending : ∀ {h x}, n.pendingBlocks h = some x → x.hash = h ∧ preimage h = x
  walked : ∀ {number x}, n.fullsyncHeaders number = some x → preimage x.hash = x

def SyncEnv.Genuine (preimage : H256 → Header) (env : SyncEnv) : Prop :=
  ∀ {round hash headers}, env.requestBlockHeaders round hash = .headers headers →
    ∀ x ∈ headers, preimage x.hash = x

def Request.Genuine (preimage : H256 → Header) : Request → Prop
  | .newPayload _ block => preimage block.hash = block
  | .fullSync env _ _ => env.Genuine preimage
  | .forkchoiceUpdated .. => True
  | .states _ => True

section Tables

variable {preimage : H256 → Header} {n : Node} {block : Header}

theorem Node.Genuine.getBlockHeaderByHash (genuine : n.Genuine preimage) (hash : H256) :
    n.store.getBlockHeaderByHash hash = n.store.headers hash := by
  unfold Store.getBlockHeaderByHash
  split
  · next same => rw [same, genuine.cached]
  · rfl

variable {hash : H256} {x : Header}

theorem Node.Genuine.named (genuine : n.Genuine preimage)
    (found : n.store.getBlockHeaderByHash hash = some block) : preimage block.hash = block := by
  rw [genuine.getBlockHeaderByHash] at found
  rw [(genuine.stored found).1, (genuine.stored found).2]

theorem Node.Genuine.update (genuine : n.Genuine preimage) (named : preimage block.hash = block)
    {h : H256} (found : n.store.headers h = some x) :
    Function.update n.store.headers block.hash (some block) h = some x := by
  rw [Function.update_apply]
  split
  · next same =>
    subst same
    rw [← named, (genuine.stored found).2]
  · exact found

theorem Node.Genuine.of_update (genuine : n.Genuine preimage) (named : preimage block.hash = block)
    {h : H256} (found : Function.update n.store.headers block.hash (some block) h = some x) :
    x.hash = h ∧ preimage h = x := by
  rw [Function.update_apply] at found
  split at found
  · next same =>
    obtain rfl := Option.some.inj found
    exact ⟨same.symm, same ▸ named⟩
  · exact genuine.stored found

theorem Node.Genuine.storeBlock (ex : Execution) (genuine : n.Genuine preimage)
    (named : preimage block.hash = block) : (n.storeBlock ex block).Genuine preimage :=
  ⟨genuine.of_update named, genuine.update named genuine.cached, genuine.pending, genuine.walked⟩

variable (genuine : n.Genuine preimage)

include genuine

theorem Node.Genuine.stashBlock (named : preimage block.hash = block) :
    (n.stashBlock block).Genuine preimage :=
  ⟨genuine.of_update named, genuine.update named genuine.cached, genuine.pending, genuine.walked⟩

theorem Node.Genuine.addPendingBlock (named : preimage block.hash = block) :
    (n.addPendingBlock block).Genuine preimage := by
  refine ⟨genuine.stored, genuine.cached, fun {h x} found => ?_, genuine.walked⟩
  simp only [Node.addPendingBlock, Function.update_apply] at found
  split at found
  · next same =>
    obtain rfl := Option.some.inj found
    exact ⟨same.symm, same ▸ named⟩
  · exact genuine.pending found

theorem Node.Genuine.setLatestValidAncestor (bad latest : H256) :
    (n.setLatestValidAncestor bad latest).Genuine preimage :=
  ⟨genuine.stored, genuine.cached, genuine.pending, genuine.walked⟩

theorem Node.Genuine.withStates (available : H256 → Bool) :
    (n.withStates available).Genuine preimage :=
  ⟨genuine.stored, genuine.cached, genuine.pending, genuine.walked⟩

theorem Node.Genuine.forkchoiceUpdate {blocks : List (Nat × H256)} {number : Nat}
    {safe finalized : Option Nat} {outcome : Except StoreError Unit} {next : Store}
    (result : n.store.forkchoiceUpdate blocks number hash safe finalized = (outcome, next)) :
    Node.Genuine preimage { n with store := next } := by
  cases outcome with
  | error e =>
    rw [Store.forkchoiceUpdate_error result]
    exact genuine
  | ok done =>
    obtain ⟨header, found, headers, cached, -⟩ := Store.forkchoiceUpdate_ok result
    rw [genuine.getBlockHeaderByHash] at found
    refine ⟨fun found' => genuine.stored (headers ▸ found'), ?_, genuine.pending, genuine.walked⟩
    show next.headers next.latestBlockHeader.hash = some next.latestBlockHeader
    rw [cached, headers, (genuine.stored found).1, found]

omit genuine

theorem Node.Genuine.added {ex : Execution} {r : Except ChainError Unit × Node}
    (genuine : n.Genuine preimage) (named : preimage block.hash = block)
    (added : Added ex n block r) : r.2.Genuine preimage := by
  cases added with
  | pending => exact genuine.addPendingBlock named
  | stored => exact genuine.storeBlock ex named
  | _ => exact genuine

end Tables

section Sync

variable {preimage : H256 → Header} {n : Node}
variable {table : Nat → Option Header} {headers batch : List Header} {x : Header} {env : SyncEnv}
  {rounds size fuel : Nat}

theorem named_addFullsyncBatch (before : ∀ {number x}, table number = some x → preimage x.hash = x)
    (named : ∀ x ∈ headers, preimage x.hash = x) {number : Nat}
    (found : addFullsyncBatch table headers number = some x) : preimage x.hash = x := by
  induction headers generalizing table with
  | nil => exact before found
  | cons header headers ih =>
    have next : ∀ {number x}, Function.update table header.number (some header) number = some x →
        preimage x.hash = x := by
      intro number x found
      rw [Function.update_apply] at found
      split at found
      · obtain rfl := Option.some.inj found
        exact named _ (mem_cons_self ..)
      · exact before found
    exact ih next (fun x mem => named x (mem_cons_of_mem _ mem)) found

theorem mem_of_mapM {α : Type} {f : α → Option Header} {items : List α}
    (mapped : items.mapM f = some headers) (mem : x ∈ headers) : ∃ item, f item = some x := by
  induction items generalizing headers with
  | nil =>
    obtain rfl : headers = [] := by simpa using mapped.symm
    cases mem
  | cons item items ih =>
    simp only [mapM_cons, Option.bind_eq_bind, Option.bind_eq_some_iff, Option.pure_def,
      Option.some.injEq] at mapped
    obtain ⟨first, here, rest, later, rfl⟩ := mapped
    rcases mem_cons.1 mem with rfl | mem
    · exact ⟨item, here⟩
    · exact ih later mem

def Walked.Genuine (preimage : H256 → Header) : Walked → Prop
  | .fetching => True
  | .ended table | .failed _ table => ∀ {number x}, table number = some x → preimage x.hash = x
  | .found d => (∀ {number x}, d.fullsyncHeaders number = some x → preimage x.hash = x) ∧
      ∀ x ∈ d.headers, preimage x.hash = x

theorem walkHeaders_genuine {s : Store} {fcuHead : H256} {w : HeaderWalk}
    (peers : env.Genuine preimage)
    (before : ∀ {number x}, w.fullsyncHeaders number = some x → preimage x.hash = x) :
    (walkHeaders env s fcuHead rounds w).Genuine preimage := by
  induction rounds generalizing w with
  | zero => trivial
  | succ rounds ih =>
    rw [walkHeaders]
    split
    · exact before
    split
    · exact before
    · split
      · exact before
      · exact ih before
    next headers answer =>
    have named := peers answer
    split
    · next newest oldest _ _ =>
      simp only
      split
      · generalize s.firstResumePointInBatch headers s.latestBlockHeader.number = index
        have kept : ∀ x ∈ headers.take (index.getD headers.length), preimage x.hash = x :=
          fun x mem => named x (mem_of_mem_take mem)
        unfold finishWalk
        simp only
        split
        · refine ⟨?_, ?_⟩
          · intro number x found
            simp only at found
            split at found
            · exact before found
            · exact named_addFullsyncBatch before kept found
          · intro x mem
            simp only at mem
            split at mem
            · exact kept x (mem_reverse.1 mem)
            · cases mem
        · intro number x found
          cases found
      · exact ih fun found => named_addFullsyncBatch before named found
    · intro number x found
      exact before found

theorem fullsyncBatches_genuine {start stop : Nat}
    (before : ∀ {number x}, table number = some x → preimage x.hash = x)
    (mem : .ok batch ∈ fullsyncBatches table size fuel start stop) :
    ∀ x ∈ batch, preimage x.hash = x := by
  induction fuel generalizing start with
  | zero => cases mem
  | succ fuel ih =>
    rw [fullsyncBatches] at mem
    split at mem
    · rcases mem_cons.1 mem with here | later
      · unfold readFullsyncBatch at here
        split at here
        · next headers read =>
          injection here with same
          subst same
          intro x mem
          obtain ⟨i, found⟩ := mem_of_mapM read mem
          exact before found
        · cases here
      · exact ih later
    · cases mem

theorem Download.batches_genuine {d : Download}
    (table : ∀ {number x}, d.fullsyncHeaders number = some x → preimage x.hash = x)
    (headers : ∀ x ∈ d.headers, preimage x.hash = x) (mem : .ok batch ∈ d.batches size) :
    ∀ x ∈ batch, preimage x.hash = x := by
  unfold Download.batches at mem
  split at mem
  · split at mem
    · cases mem
    · obtain rfl : batch = d.headers := by simpa using mem
      exact headers
  · exact fullsyncBatches_genuine table mem

def Prepared.Genuine (preimage : H256 → Header) (n : Node) : Prepared → Prop
  | .ended a => ∃ table : Nat → Option Header, a.node = { n with fullsyncHeaders := table } ∧
      ∀ {number x}, table number = some x → preimage x.hash = x
  | .pendingOnly pending => ∀ b ∈ pending, preimage b.hash = b
  | .download d pending => (Walked.found d).Genuine preimage ∧ ∀ b ∈ pending, preimage b.hash = b

theorem prepare_genuine {head : H256} {p : Prepared} (genuine : n.Genuine preimage)
    (peers : env.Genuine preimage) (prepared : prepare env rounds n head = some p) :
    p.Genuine preimage n := by
  unfold prepare at prepared
  split at prepared
  · cases prepared
    exact ⟨n.fullsyncHeaders, rfl, genuine.walked⟩
  split at prepared
  · cases prepared
  next syncHead pending gathered =>
  obtain ⟨-, held, -, -⟩ :=
    gatherPendingBlocks_linked genuine.pending .nil (by simp) (by simp) gathered
  have named : ∀ b ∈ pending, preimage b.hash = b := fun b mem => (genuine.pending (held b mem)).2
  split at prepared
  · cases prepared
    exact named
  have walked := @walkHeaders_genuine preimage env rounds n.store head
    ⟨syncHead, 0, true, 0, n.fullsyncHeaders⟩ peers genuine.walked
  split at prepared
  · cases prepared
  · next result =>
    cases prepared
    rw [result] at walked
    exact ⟨_, rfl, walked⟩
  · next result =>
    cases prepared
    rw [result] at walked
    exact ⟨_, rfl, walked⟩
  · next result =>
    cases prepared
    rw [result] at walked
    exact ⟨walked, named⟩

/-- What requests keep, except for storing a block that was not executed. -/
structure NodeInvariant (preimage : H256 → Header) (P : Node → Prop) : Prop where
  genuine : ∀ {n}, P n → n.Genuine preimage
  add : ∀ ex {n block}, P n → preimage block.hash = block → P (addBlockPipeline ex n block).2
  replay : ∀ ex {n block}, P n → preimage block.hash = block → P (addBlock ex n block).2
  record : ∀ {n bad latest}, P n → P (n.setLatestValidAncestor bad latest)
  update : ∀ {n : Node} {blocks number hash safe finalized outcome next}, P n →
    n.store.forkchoiceUpdate blocks number hash safe finalized = (outcome, next) →
    P { n with store := next }
  table : ∀ {n : Node} {table : Nat → Option Header}, P n →
    (∀ {number x}, table number = some x → preimage x.hash = x) →
    P { n with fullsyncHeaders := table }
  states : ∀ {n available}, P n → P (n.withStates available)

namespace NodeInvariant

variable {P : Node → Prop} {env : SyncEnv} (invariant : NodeInvariant preimage P)

include invariant

variable {blocks : List Header}

theorem addBlocks (ex : Execution) (named : ∀ b ∈ blocks, preimage b.hash = b) (lastValid : H256)
    (holds : P n) : P (addBlocks ex lastValid n blocks).node := by
  induction blocks generalizing n lastValid with
  | nil => exact holds
  | cons block blocks ih =>
    have added := invariant.add ex holds (named block (mem_cons_self ..))
    rw [Chain.addBlocks]
    split
    · next result =>
      rw [result] at added
      exact ih (fun b mem => named b (mem_cons_of_mem _ mem)) block.hash added
    · next result =>
      rw [result] at added
      exact added

theorem addBlocksInBatch (ex : Execution) (named : ∀ b ∈ blocks, preimage b.hash = b)
    (holds : P n) : P (addBlocksInBatch ex n blocks).node := by
  unfold Chain.addBlocksInBatch
  split
  · exact holds
  have added := invariant.addBlocks ex named zeroHash holds
  simp only
  split
  · next failure _ =>
    show P (recordFailure _ _ _ failure)
    unfold recordFailure
    split
    · -- The records are written one by one.
      generalize List.dropWhile _ _ = failed
      revert added
      generalize (Chain.addBlocks ex zeroHash n blocks).node = m
      intro added
      induction failed generalizing m with
      | nil => exact added
      | cons hash failed ih => exact ih _ (invariant.record added)
    · exact added
  · split
    · next result => exact invariant.update added result
    · next result => exact invariant.update added result

omit invariant in
theorem andThen {a : Attempt SyncError} {next : Node → Attempt SyncError} (holds : P a.node)
    (kept : ∀ {m : Node}, P m → P (next m).node) : P (a.andThen next).node := by
  unfold Attempt.andThen
  split
  · exact kept holds
  · exact holds

theorem runBatches {batches : List (Except SyncError (List Header))}
    (named : ∀ batch, .ok batch ∈ batches → ∀ b ∈ batch, preimage b.hash = b) (holds : P n) :
    P (runBatches env n batches).node := by
  induction batches generalizing n with
  | nil => exact holds
  | cons batch batches ih =>
    cases batch with
    | error e => exact holds
    | ok headers =>
      rw [Chain.runBatches]
      split
      · refine andThen
          (invariant.addBlocksInBatch env.toExecution (named headers (mem_cons_self ..)) holds) fun kept => ?_
        exact ih (fun batch mem => named batch (mem_cons_of_mem _ mem)) kept
      · exact holds
      · exact holds

theorem runPending {pending : List Header}
    (named : ∀ b ∈ pending, preimage b.hash =
      b) (holds : P n) : P (runPending env n pending).node := by
  unfold Chain.runPending
  split
  · exact holds
  · split
    · exact invariant.addBlocksInBatch env.toExecution named holds
    · exact holds

theorem syncCycleFull (peers : env.Genuine preimage) {rounds : Nat} {head : H256} {run : Attempt SyncError}
    (holds : P n) (finished : syncCycleFull env rounds n head = some run) : P run.node := by
  have genuine := invariant.genuine holds
  have cleared : ∀ {m : Node}, P m → P (clearFullsyncHeaders m).node :=
    fun kept => invariant.table kept fun found => by cases found
  unfold Chain.syncCycleFull at finished
  split at finished
  · cases finished
  · next prepared =>
    cases finished
    obtain ⟨table, node, named⟩ := prepare_genuine genuine peers prepared
    rw [node]
    exact invariant.table holds named
  · next pending prepared =>
    cases finished
    exact andThen (invariant.addBlocksInBatch env.toExecution
      (prepare_genuine genuine peers prepared) holds) cleared
  · next d pending prepared =>
    obtain ⟨⟨table, headers⟩, named⟩ := prepare_genuine genuine peers prepared
    have filled : P { n with fullsyncHeaders := d.fullsyncHeaders } := invariant.table holds table
    split at finished
    · cases finished
      exact filled
    · cases finished
      refine andThen (andThen (invariant.runBatches ?_ filled) (invariant.runPending named)) cleared
      exact fun batch mem => Download.batches_genuine table headers mem

theorem newPayload (env : EngineEnv) {block : Header} (named : preimage block.hash = block)
    (stash : (newPayload env n block).1 = .ok .accepted → P (n.stashBlock block)) (holds : P n) :
    P (newPayload env n block).2 := by
  unfold Chain.newPayload at stash ⊢
  split
  · next recorded =>
    unfold validateAncestors at recorded
    split at recorded
    · cases recorded
      exact holds
    split at recorded
    · cases recorded
      exact invariant.record holds
    · cases recorded
  · next clear =>
    simp only [clear] at stash
    unfold tryExecutePayload at stash ⊢
    split
    · exact holds
    · next stashed =>
      simp only [stashed] at stash
      exact stash trivial
    have added := invariant.add env.toExecution holds named
    simp only
    unfold classifyExecution
    split
    · exact added
    · exact added
    · exact added
    · split
      · exact added
      · exact invariant.record added
    · split
      · exact added
      · exact invariant.record added
    · exact added

theorem runReorgReplay (ex : Execution) (hashes : List H256) (holds : P n) : P (runReorgReplay ex n hashes).2 := by
  induction hashes generalizing n with
  | nil => exact holds
  | cons hash hashes ih =>
    rw [Chain.runReorgReplay]
    split
    · exact holds
    next block found =>
    have added := invariant.replay ex holds ((invariant.genuine holds).named found)
    split
    · next result =>
      rw [result] at added
      exact ih added
    · next result =>
      rw [result] at added
      exact added

theorem replayAndUpdate (env : EngineEnv) (head : Header) (headHash safeHash finalizedHash : H256)
    (canonical : Bool) (branch : List (Nat × H256)) (holds : P n) :
    P (replayAndUpdate env n head headHash safeHash finalizedHash canonical branch).2 := by
  have replayed := invariant.runReorgReplay env.toExecution
    (replayBlocks headHash canonical branch) holds
  unfold Chain.replayAndUpdate
  simp only
  split
  · next result =>
    rw [result] at replayed
    exact invariant.states replayed
  next result =>
  rw [result] at replayed
  split
  · next result' => exact invariant.states (invariant.update replayed result')
  · next result' => exact invariant.update replayed result'

theorem handleForkchoice (env : EngineEnv) (headHash safeHash finalizedHash : H256) (holds : P n) :
    P (handleForkchoice env n headHash safeHash finalizedHash).2 := by
  have shallow : P { n with
      store := (applyForkChoice n.store headHash safeHash finalizedHash env.maxReorgDepth).2 } := by
    unfold applyForkChoice
    split
    · exact holds
    simp only
    split
    · next result => exact invariant.update holds (Prod.ext result rfl)
    · next result => exact invariant.update holds (Prod.ext result rfl)
  unfold Chain.handleForkchoice
  split
  · exact holds
  · exact invariant.record holds
  split
  · exact holds
  simp only [applyForkChoiceWithDeepReorg]
  split
  · next result =>
    rw [result] at shallow
    exact shallow
  · -- A deep reorganisation.
    unfold reorgApplyDeep
    split
    · exact holds
    split
    · exact holds
    simp only
    split
    · exact holds
    · exact holds
    split
    · exact holds
    split
    · exact holds
    · split
      · exact holds
      · exact invariant.replayAndUpdate env _ _ _ _ _ _ (invariant.states holds)
  · next result =>
    rw [result] at shallow
    exact shallow

theorem handle {request : Request} (given : request.Genuine preimage)
    (stash : ∀ {env block}, request = .newPayload env block →
      (request.handle n).1 = some .accepted → P (n.stashBlock block)) (holds : P n) :
    P (request.handle n).2 := by
  cases request with
  | newPayload env block =>
    refine invariant.newPayload env given (fun accepted => stash rfl ?_) holds
    rw [Request.handle, accepted]
    rfl
  | forkchoiceUpdated env headHash safeHash finalizedHash =>
    exact invariant.handleForkchoice env _ _ _ holds
  | fullSync env rounds head =>
    rw [Request.handle]
    cases finished : Chain.syncCycleFull env rounds n head with
    | none => exact holds
    | some run => exact invariant.syncCycleFull given holds finished
  | states available => exact invariant.states holds

end NodeInvariant

theorem Node.Genuine.invariant : NodeInvariant preimage (Node.Genuine preimage) where
  genuine genuine := genuine
  add _ _ _ genuine named := genuine.added named (addBlockPipeline_added rfl)
  replay _ _ _ genuine named := genuine.added named (addBlock_added rfl)
  record genuine := genuine.setLatestValidAncestor _ _
  update genuine result := genuine.forkchoiceUpdate result
  table genuine walked := ⟨genuine.stored, genuine.cached, genuine.pending, walked⟩
  states genuine := genuine.withStates _

theorem Node.Genuine.run {requests : List Request} (genuine : n.Genuine preimage)
    (given : ∀ request ∈ requests, request.Genuine preimage) :
    (n.run requests).Genuine preimage := by
  induction requests generalizing n with
  | nil => exact genuine
  | cons request requests ih =>
    have here := given request (mem_cons_self ..)
    refine ih (Node.Genuine.invariant.handle here (fun isPayload _ => ?_) genuine)
      fun r mem => given r (mem_cons_of_mem _ mem)
    subst isPayload
    exact genuine.stashBlock here

end Sync

end Ethrex.Chain
