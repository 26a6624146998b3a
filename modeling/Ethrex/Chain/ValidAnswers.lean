import Ethrex.Chain.Genuine
import Ethrex.Chain.Reorg

/-!
# What a VALID answer says

A block is answered VALID only if its header is stored. As long as no payload is stored without
being executed, every stored block was executed with all its ancestors.
-/

namespace Ethrex.Chain

open List

/-- The block and every ancestor of it down to the genesis block have been executed. -/
inductive Node.Executed (n : Node) (genesis : H256) : H256 → Prop
  | genesis : Executed n genesis genesis
  | step {hash : H256} {header : Header} : n.executed hash = true →
      n.store.headers hash = some header → Executed n genesis header.parentHash →
      Executed n genesis hash

def Node.Settled (genesis : H256) (n : Node) : Prop :=
  ∀ hash header, n.store.headers hash = some header → n.Executed genesis hash

section Settled

variable {preimage : H256 → Header} {genesis hash : H256} {n m : Node} {block : Header}

theorem Node.Executed.congr (executed : n.Executed genesis hash)
    (same : m.executed = n.executed) (headers : m.store.headers = n.store.headers) :
    m.Executed genesis hash := by
  induction executed with
  | genesis => exact .genesis
  | step passed found _ ih => exact .step (same ▸ passed) (headers ▸ found) ih

theorem Node.Executed.storeBlock (ex : Execution) (executed : n.Executed genesis hash)
    (genuine : n.Genuine preimage) (named : preimage block.hash = block) :
    (n.storeBlock ex block).Executed genesis hash := by
  induction executed with
  | genesis => exact .genesis
  | @step hash header passed found _ ih =>
    refine .step ?_ (genuine.update named found) ih
    rw [Node.storeBlock_executed]
    split
    · rfl
    · exact passed

variable (settled : n.Settled genesis)

include settled

theorem Node.Settled.congr (same : m.executed = n.executed)
    (headers : m.store.headers = n.store.headers) : m.Settled genesis :=
  fun hash header found => (settled hash header (headers ▸ found)).congr same headers

theorem Node.Settled.storeBlock (ex : Execution) {parent : Header} (genuine : n.Genuine preimage)
    (named : preimage block.hash = block)
    (found : n.store.getBlockHeaderByHash block.parentHash = some parent) :
    (n.storeBlock ex block).Settled genesis := by
  rw [genuine.getBlockHeaderByHash] at found
  intro hash header stored
  rw [Node.storeBlock_store, Store.storeBlock_headers] at stored
  split at stored
  · next same =>
    subst same
    refine .step ?_ ((Store.storeBlock_headers ..).trans (if_pos rfl))
      ((settled _ _ found).storeBlock ex genuine named)
    rw [Node.storeBlock_executed, if_pos rfl]
  · exact (settled _ _ stored).storeBlock ex genuine named

theorem Node.Settled.forkchoiceUpdate {blocks : List (Nat × H256)} {number : Nat} {hash : H256}
    {safe finalized : Option Nat} {outcome : Except StoreError Unit} {next : Store}
    (result : n.store.forkchoiceUpdate blocks number hash safe finalized = (outcome, next)) :
    Node.Settled genesis { n with store := next } := by
  cases outcome with
  | error e =>
    rw [Store.forkchoiceUpdate_error result]
    exact settled
  | ok done =>
    obtain ⟨-, -, headers, -⟩ := Store.forkchoiceUpdate_ok result
    exact settled.congr rfl headers

theorem Node.Settled.added {ex : Execution} {r : Except ChainError Unit × Node}
    (genuine : n.Genuine preimage) (named : preimage block.hash = block)
    (added : Added ex n block r) : r.2.Settled genesis := by
  cases added with
  | stored found => exact settled.storeBlock ex genuine named found
  | pending => exact settled.congr rfl rfl
  | _ => exact settled

omit settled

theorem Node.Settled.invariant :
    NodeInvariant preimage fun n => n.Genuine preimage ∧ n.Settled genesis where
  genuine holds := holds.1
  add _ _ _ holds named := ⟨holds.1.added named (addBlockPipeline_added rfl),
    holds.2.added holds.1 named (addBlockPipeline_added rfl)⟩
  replay _ _ _ holds named := ⟨holds.1.added named (addBlock_added rfl),
    holds.2.added holds.1 named (addBlock_added rfl)⟩
  record holds := ⟨holds.1.setLatestValidAncestor _ _, holds.2.congr rfl rfl⟩
  update holds result := ⟨holds.1.forkchoiceUpdate result, holds.2.forkchoiceUpdate result⟩
  table holds walked :=
    ⟨⟨holds.1.stored, holds.1.cached, holds.1.pending, walked⟩, holds.2.congr rfl rfl⟩
  states holds := ⟨holds.1.withStates _, holds.2.congr rfl rfl⟩

end Settled

section Answers

variable {preimage : H256 → Header} {genesis hash : H256} {n : Node} {block : Header}
  {env : EngineEnv} {headHash safeHash finalizedHash : H256}

theorem exists_header_of_payloadRoute {route : PayloadRoute} (routed : payloadRoute n block = route)
    (known : route = .known ∨ route = .execute true) :
    ∃ header, n.store.getBlockHeaderByHash block.hash = some header := by
  unfold payloadRoute at routed
  split at routed
  · next header found => exact ⟨header, found⟩
  split at routed
  · split at routed <;> subst routed <;> simp at known
  · subst routed
    simp at known

theorem newPayload_stored (genuine : n.Genuine preimage)
    (valid : (newPayload env n block).1 = .ok (.valid hash)) :
    ∃ header, (newPayload env n block).2.store.headers hash = some header := by
  have found : ∀ {route}, payloadRoute n block = route → route = .known ∨ route = .execute true →
      ∃ header, n.store.headers block.hash = some header := by
    intro route routed known
    obtain ⟨header, stored⟩ := exists_header_of_payloadRoute routed known
    exact ⟨header, genuine.getBlockHeaderByHash _ ▸ stored⟩
  unfold newPayload at valid ⊢
  split at valid
  · next recorded =>
    unfold validateAncestors at recorded
    split at recorded
    · cases recorded
      cases valid
    split at recorded
    · cases recorded
      cases valid
    · cases recorded
  unfold tryExecutePayload at valid ⊢
  split at valid
  · next routed =>
    cases valid
    exact found routed (Or.inl rfl)
  · cases valid
  next reexecuting routed =>
  generalize result : addBlockPipeline env.toExecution n block = added at valid ⊢
  obtain ⟨outcome, next⟩ := added
  cases outcome with
  | ok done =>
    cases valid
    obtain ⟨-, -, -, -, -, rfl⟩ := (addBlockPipeline_added result).ok
    exact ⟨block, (Store.storeBlock_headers ..).trans (if_pos rfl)⟩
  | error e =>
    -- A canonical block whose execution fails is answered VALID; it was stored before.
    obtain ⟨store, -⟩ := (addBlockPipeline_added result).error
    cases reexecuting with
    | false => cases e <;> cases valid
    | true =>
      obtain ⟨header, stored⟩ := found routed (Or.inr rfl)
      cases e <;> cases valid <;> exact ⟨header, store ▸ stored⟩

theorem checkForkChoice_of_missing {s : Store} {depth : Option Nat}
    (missing : s.getBlockHeaderByHash headHash = none) {e : InvalidForkChoice}
    (rejected : checkForkChoice s headHash safeHash finalizedHash depth = .error e) :
    e ≠ .newHeadAlreadyCanonical := by
  have ordered : ∀ {given first second element e'},
      checkOrderIf given first second element = .error e' → e' ≠ .newHeadAlreadyCanonical := by
    intro given first second element e' failed
    unfold checkOrderIf checkOrder at failed
    split at failed
    · split at failed
      · cases failed
        simp
      · split at failed
        · cases failed
          simp
        · cases failed
      · cases failed
        simp
    · cases failed
  unfold checkForkChoice at rejected
  rcases bind_eq_error.1 rejected with zero | ⟨_, -, rejected⟩
  · unfold require at zero
    split at zero
    · cases zero
    · cases zero
      simp
  rcases bind_eq_error.1 rejected with order | ⟨_, -, rejected⟩
  · exact ordered order
  rcases bind_eq_error.1 rejected with order | ⟨_, -, rejected⟩
  · exact ordered order
  rw [missing] at rejected
  cases rejected
  simp

theorem forkchoiceResponse_valid {m : Node} {outcome : Except InvalidForkChoice Header}
    (valid : forkchoiceResponse m headHash outcome = .ok (.valid hash)) :
    hash = headHash ∧ ∀ e, outcome = .error e → e = .newHeadAlreadyCanonical := by
  cases outcome with
  | ok header =>
    cases valid
    exact ⟨rfl, by simp⟩
  | error e =>
    cases e <;> cases valid
    exact ⟨rfl, by simp⟩

/-- A fork choice for a head that is not stored is not answered VALID. -/
theorem handleForkchoice_stored
    (valid : (handleForkchoice env n headHash safeHash finalizedHash).1 = .ok (.valid hash)) :
    hash = headHash ∧ ∃ header, n.store.getBlockHeaderByHash headHash = some header := by
  unfold handleForkchoice at valid
  split at valid
  · cases valid
  · cases valid
  split at valid
  · cases valid
  obtain ⟨rfl, outcome⟩ := forkchoiceResponse_valid valid
  refine ⟨rfl, Option.ne_none_iff_exists'.1 fun missing => ?_⟩
  unfold applyForkChoiceWithDeepReorg at outcome valid
  cases result : applyForkChoice n.store hash safeHash finalizedHash env.maxReorgDepth with
  | mk shallow store =>
    cases shallow with
    | ok header =>
      obtain ⟨choice, checked, -⟩ := applyForkChoice_ok result
      rw [checked.head] at missing
      cases missing
    | error e =>
      simp only [result] at outcome
      by_cases deep : e = .stateNotReachable
      · subst deep
        have syncing : (reorgApplyDeep env n hash safeHash finalizedHash).1 = .error .syncing := by
          unfold reorgApplyDeep
          split
          · rfl
          · rw [missing]
        cases outcome .syncing syncing
      have other : e = .newHeadAlreadyCanonical := by
        cases e <;> first | exact absurd rfl deep | exact outcome _ rfl
      subst other
      unfold applyForkChoice at result
      split at result
      · next checked =>
        cases result
        exact checkForkChoice_of_missing missing checked rfl
      · simp only at result
        split at result <;> cases result

theorem stored_invariant (hash : H256) :
    NodeInvariant preimage fun n => n.Genuine preimage ∧
      ∃ header, n.store.headers hash = some header := by
  have added : ∀ {ex : Execution} {n : Node} {block : Header} {r},
      (n.Genuine preimage ∧ ∃ header, n.store.headers hash = some header) →
      preimage block.hash = block → Added ex n block r →
      r.2.Genuine preimage ∧ ∃ header, r.2.store.headers hash = some header := by
    rintro ex n block r ⟨genuine, header, found⟩ named added
    refine ⟨genuine.added named added, header, ?_⟩
    cases added with
    | stored => exact genuine.update named found
    | _ => exact found
  exact {
    genuine := And.left
    add := fun _ _ _ holds named => added holds named (addBlockPipeline_added rfl)
    replay := fun _ _ _ holds named => added holds named (addBlock_added rfl)
    record := fun ⟨genuine, stored⟩ => ⟨genuine.setLatestValidAncestor _ _, stored⟩
    update := fun {n blocks number hash' safe finalized outcome next} ⟨genuine, stored⟩ result => by
      refine ⟨genuine.forkchoiceUpdate result, ?_⟩
      cases outcome with
      | error e => rwa [Store.forkchoiceUpdate_error result]
      | ok done =>
        obtain ⟨-, -, headers, -⟩ := Store.forkchoiceUpdate_ok result
        exact headers ▸ stored
    table := fun ⟨genuine, stored⟩ walked =>
      ⟨⟨genuine.stored, genuine.cached, genuine.pending, walked⟩, stored⟩
    states := fun ⟨genuine, stored⟩ => ⟨genuine.withStates _, stored⟩ }

/-- A block that is answered VALID is stored afterwards. -/
theorem Request.stored_of_valid {request : Request} (genuine : n.Genuine preimage)
    (valid : (request.handle n).1 = some (.valid hash)) :
    ∃ header, (request.handle n).2.store.headers hash = some header := by
  have answered : ∀ {answer : Except RpcErr PayloadStatus} {status},
      answer.toOption = some status → answer = .ok status := by
    rintro (e | status) _ same
    · cases same
    · cases same
      rfl
  cases request with
  | newPayload env block => exact newPayload_stored genuine (answered valid)
  | forkchoiceUpdated env headHash safeHash finalizedHash =>
    obtain ⟨rfl, header, found⟩ := handleForkchoice_stored (answered valid)
    rw [genuine.getBlockHeaderByHash] at found
    exact ((stored_invariant hash).handleForkchoice env _ _ _ ⟨genuine, header, found⟩).2
  | fullSync => cases valid
  | states => cases valid

/-- A VALID answer is given only for a block that has been executed with all its ancestors. -/
def Request.ValidMeansExecuted (genesis : H256) (n : Node) (request : Request) : Prop :=
  ∀ hash, (request.handle n).1 = some (.valid hash) → (request.handle n).2.Executed genesis hash

/-- Without ACCEPTED answers all stored blocks stay executed. -/
theorem Node.Settled.run {requests : List Request} (settled : n.Settled genesis)
    (genuine : n.Genuine preimage) (given : ∀ request ∈ requests, request.Genuine preimage)
    (executes : ∀ done request, done ++ [request] <+: requests →
      (request.handle (n.run done)).1 ≠ some .accepted) {done : List Request}
    (le : done <+: requests) : (n.run done).Genuine preimage ∧ (n.run done).Settled genesis := by
  induction done using List.reverseRecOn with
  | nil => exact ⟨genuine, settled⟩
  | append_singleton done request ih =>
    have before := ih ((prefix_append _ _).trans le)
    rw [Node.run, foldl_append]
    exact Node.Settled.invariant.handle (given request (le.subset (by simp)))
      (fun _ accepted => absurd accepted (executes done request le)) before

theorem Node.Settled.validMeansExecuted {done : List Request} {request : Request}
    (genuine : (n.run done).Genuine preimage)
    (settled : (n.run (done ++ [request])).Settled genesis) :
    request.ValidMeansExecuted genesis (n.run done) := by
  intro hash valid
  obtain ⟨header, stored⟩ := Request.stored_of_valid genuine valid
  rw [Node.run, foldl_append] at settled
  exact settled hash header stored

/-- As long as no payload is answered ACCEPTED, every VALID answer is for a block that was executed
with all its ancestors. -/
theorem Node.Settled.run_validMeansExecuted {requests : List Request} (settled : n.Settled genesis)
    (genuine : n.Genuine preimage) (given : ∀ request ∈ requests, request.Genuine preimage)
    (executes : ∀ done request, done ++ [request] <+: requests →
      (request.handle (n.run done)).1 ≠ some .accepted) :
    ∀ done request, done ++ [request] <+: requests →
      request.ValidMeansExecuted genesis (n.run done) := fun _ _ le =>
  Node.Settled.validMeansExecuted (settled.run genuine given executes ((prefix_append _ _).trans le)).1
    (settled.run genuine given executes le).2

/-- A payload for a block that is not stored, without a recorded invalid ancestor, whose parent is
stored without its state. -/
def Request.stashes (n : Node) : Request → Bool
  | .newPayload _ block =>
    (n.latestValidAncestor block.hash).isNone && (n.latestValidAncestor block.parentHash).isNone &&
      (n.store.headers block.hash).isNone &&
      (n.store.headers block.parentHash).any fun parent => !n.store.hasStateRoot parent.stateRoot
  | _ => false

theorem Request.stashes_of_accepted {request : Request} (genuine : n.Genuine preimage)
    (accepted : (request.handle n).1 = some .accepted) : request.stashes n = true := by
  cases request with
  | newPayload env block =>
    simp only [Request.handle, Chain.newPayload, validateAncestors] at accepted
    cases own : n.latestValidAncestor block.hash with
    | some ancestor =>
      rw [own] at accepted
      cases accepted
    | none =>
      cases parent : n.latestValidAncestor block.parentHash with
      | some ancestor =>
        rw [own, parent] at accepted
        cases accepted
      | none =>
        simp only [own, parent, tryExecutePayload] at accepted
        split at accepted
        · cases accepted
        · next stashed =>
          unfold payloadRoute at stashed
          rw [genuine.getBlockHeaderByHash, genuine.getBlockHeaderByHash] at stashed
          split at stashed
          · split at stashed
            · cases stashed
            · split at stashed <;> cases stashed
          next unknown =>
          split at stashed
          · next header found =>
            split at stashed
            · cases stashed
            · next absent => simp [Request.stashes, own, parent, unknown, found, absent]
          · cases stashed
        · next reexecuting _ =>
          unfold classifyExecution at accepted
          split at accepted <;> first | cases accepted | (cases reexecuting <;> cases accepted)
  | forkchoiceUpdated env headHash safeHash finalizedHash =>
    simp only [Request.handle, handleForkchoice] at accepted
    split at accepted
    · cases accepted
    · cases accepted
    split at accepted
    · cases accepted
    · unfold forkchoiceResponse at accepted
      split at accepted <;> cases accepted
  | fullSync => cases accepted
  | states => cases accepted

/-- As long as no payload finds its parent stored without its state, every VALID answer is for a
block that was executed with all its ancestors. -/
theorem Node.run_validMeansExecuted_of_states {requests : List Request}
    (settled : n.Settled genesis) (genuine : n.Genuine preimage)
    (given : ∀ request ∈ requests, request.Genuine preimage)
    (states : ∀ done request, done ++ [request] <+: requests →
      request.stashes (n.run done) = false) :
    ∀ done request, done ++ [request] <+: requests →
      request.ValidMeansExecuted genesis (n.run done) := by
  have executes : ∀ done request, done ++ [request] <+: requests →
      (n.run done).Genuine preimage ∧ (request.handle (n.run done)).1 ≠ some .accepted := by
    intro done request le
    have genuine' : (n.run done).Genuine preimage := genuine.run fun r mem =>
      given r (((prefix_append _ _).trans le).subset mem)
    refine ⟨genuine', fun accepted => ?_⟩
    have := Request.stashes_of_accepted genuine' accepted
    rw [states done request le] at this
    cases this
  intro done request le
  exact Node.Settled.validMeansExecuted (executes done request le).1
    (settled.run genuine given (fun done request le => (executes done request le).2) le).2

end Answers

section Stashed

def stashedHeaders : List Header := [sampleHeader 1 0 0, sampleHeader 2 1 1, sampleHeader 3 1 1]

def stashedPreimage (hash : H256) : Header :=
  (stashedHeaders.find? (·.hash = hash)).getD (sampleHeader 1 0 0)

def genesisNode : Node where
  store := .ofTables [sampleHeader 1 0 0] (sampleHeader 1 0 0) [] [.ofNat 101]
  pendingBlocks _ := none
  latestValidAncestor _ := none
  fullsyncHeaders _ := none
  executed _ := false

def stashedEnv : EngineEnv where
  toExecution := .keeping fun block _ =>
    if block.hash = .ofNat 3 then .error .invalidBlock else .ok ()
  maxReorgDepth := none
  storeFault := false
  flatkeyvalueFullyGenerated := true
  installOverlay _ _ _ := none
  abortReorg roots := roots

theorem genuine_genesisNode : genesisNode.Genuine stashedPreimage where
  stored {h x} found := by
    have mem := mem_of_find?_eq_some found
    obtain rfl : x = sampleHeader 1 0 0 := by simpa using mem
    obtain rfl : (sampleHeader 1 0 0).hash = h := by simpa using find?_some found
    exact ⟨rfl, by decide +kernel⟩
  cached := by decide +kernel
  pending found := by cases found
  walked found := by cases found

theorem settled_genesisNode : genesisNode.Settled (.ofNat 1) := by
  intro hash header found
  obtain rfl : header = sampleHeader 1 0 0 := by simpa using mem_of_find?_eq_some found
  obtain rfl : (sampleHeader 1 0 0).hash = hash := by simpa using find?_some found
  exact .genesis

def firstChild : Request := .newPayload stashedEnv (sampleHeader 2 1 1)

/-- A payload that fails on the genesis block. -/
def secondChild : Request := .newPayload stashedEnv (sampleHeader 3 1 1)

def chooseFirst : Request := .forkchoiceUpdated stashedEnv (.ofNat 2) zeroHash zeroHash

/-- The first child is executed and the genesis state goes, so the second child is stored
unexecuted. Sent again, it is VALID for its header. -/
def stashedRequests : List Request :=
  [firstChild, .states (· = .ofNat 102), secondChild, secondChild]

theorem genuine_children : ∀ request ∈ [firstChild, secondChild, chooseFirst,
    .states (· = .ofNat 102)], request.Genuine stashedPreimage := by
  simp only [firstChild, secondChild, chooseFirst, mem_cons, not_mem_nil, or_false,
    forall_eq_or_imp, forall_eq, Request.Genuine, and_true]
  decide +kernel

theorem stashedRequests_valid_unexecuted :
    genesisNode.Genuine stashedPreimage ∧
      (∀ request ∈ stashedRequests, request.Genuine stashedPreimage) ∧
      stashedEnv.execute (sampleHeader 3 1 1) (sampleHeader 1 0 0) = .error .invalidBlock ∧
      ¬ ∀ done request, done ++ [request] <+: stashedRequests →
          request.ValidMeansExecuted (.ofNat 1) (genesisNode.run done) := by
  refine ⟨genuine_genesisNode, fun request mem => genuine_children request ?_, by decide +kernel,
    fun holds => ?_⟩
  · simp only [stashedRequests, mem_cons] at mem ⊢
    tauto
  have answered : (secondChild.handle (genesisNode.run (stashedRequests.take 3))).1 =
      some (.valid (.ofNat 3)) := by
    decide +kernel
  have unexecuted : (secondChild.handle (genesisNode.run
      (stashedRequests.take 3))).2.executed (.ofNat 3) = false := by
    decide +kernel
  cases holds (stashedRequests.take 3) _ (prefix_refl _) _ answered with
  | step executed => exact absurd executed (by rw [unexecuted]; decide)

/-- The genesis state goes once the first child is there. -/
theorem validMeansExecuted_repeated :
    let requests := [firstChild, .states (· = .ofNat 102), firstChild, chooseFirst]
    (firstChild.handle (genesisNode.run (requests.take 2))).1 = some (.valid (.ofNat 2)) ∧
      (chooseFirst.handle (genesisNode.run (requests.take 3))).1 = some (.valid (.ofNat 2)) ∧
      ∀ done request, done ++ [request] <+: requests →
        request.ValidMeansExecuted (.ofNat 1) (genesisNode.run done) := by
  intro requests
  refine ⟨by decide +kernel, by decide +kernel, Node.run_validMeansExecuted_of_states
    settled_genesisNode genuine_genesisNode (fun request mem => genuine_children request ?_)
    (forall_step (by decide +kernel))⟩
  simp only [requests, mem_cons] at mem ⊢
  tauto

theorem run_validMeansExecuted_children :
    let requests := [firstChild, secondChild, firstChild, chooseFirst]
    ((firstChild.handle genesisNode).1 = some (.valid (.ofNat 2)) ∧
      (secondChild.handle (genesisNode.run (requests.take 1))).1 = some (.invalid (.ofNat 1)) ∧
      (firstChild.handle (genesisNode.run (requests.take 2))).1 = some (.valid (.ofNat 2)) ∧
      (chooseFirst.handle (genesisNode.run (requests.take 3))).1 = some (.valid (.ofNat 2))) ∧
      ∀ done request, done ++ [request] <+: requests →
        request.ValidMeansExecuted (.ofNat 1) (genesisNode.run done) := by
  intro requests
  refine ⟨by decide +kernel, settled_genesisNode.run_validMeansExecuted genuine_genesisNode
    (fun request mem => genuine_children request ?_) (forall_step (by decide +kernel))⟩
  simp only [requests, mem_cons] at mem ⊢
  tauto

end Stashed

end Ethrex.Chain
