import Ethrex.Chain.HeaderWalk
import Ethrex.Chain.Reorg

/-!
# Which full sync cycles keep the index linked

Two things detach what a cycle makes canonical: headers walked down to the zero hash, and pending
blocks on top of a download that gave up, when their parent has its state from elsewhere.
-/

namespace Ethrex.Chain

open List

namespace Attempt

variable {ε : Type} {a : Attempt ε} {next : Node → Attempt ε}

theorem andThen_of_ok (ok : a.result = .ok ()) :
    a.andThen next = ⟨a.events ++ (next a.node).events, (next a.node).node, (next a.node).result⟩ := by
  rw [andThen, ok]
  rfl

theorem andThen_of_error {e : ε} (error : a.result = .error e) : a.andThen next = a := by
  rw [andThen, error]

end Attempt

section Cycle

variable {preimage : H256 → Header} {env : SyncEnv} {n : Node}

theorem exists_of_downloadBodies {blocks : List Header}
    (missing : downloadBodies env blocks = .unavailable) :
    ∃ x ∈ blocks, env.requestBlockBody x = .unavailable := by
  induction blocks with
  | nil => cases missing
  | cons header blocks ih =>
    rw [downloadBodies] at missing
    split at missing
    · obtain ⟨x, mem, body⟩ := ih missing
      exact ⟨x, mem_cons_of_mem _ mem, body⟩
    · next body => exact ⟨header, mem_cons_self .., body⟩
    · cases missing

/-- What a download leaves: the newest header is canonical, or a body is missing and the newest header
is not stored by the download. -/
structure Ran (preimage : H256 → Header) (env : SyncEnv) (batches : List (List Header))
    (s s' : Store) : Prop where
  sound : s'.Sound preimage
  newest : ∀ last ∈ batches.flatten.getLast?, s'.isCanonicalSync last.hash = true ∨
    (∃ x ∈ batches.flatten, env.requestBlockBody x = .unavailable) ∧
      (s.headers last.hash = none → s'.headers last.hash = none)

theorem Plan.getLast?_flatten {batches : List (List Header)} (plan : Plan preimage batches)
    (some' : batches ≠ []) : ∃ last, batches.flatten.getLast? = some last := by
  refine Option.ne_none_iff_exists'.1 fun none' => ?_
  obtain ⟨batch, rest, rfl⟩ := exists_cons_of_ne_nil some'
  rw [getLast?_eq_none_iff, flatten_cons, append_eq_nil_iff] at none'
  exact plan.nonempty batch (by simp) none'.1

variable (env) in
/-- A download whose first block stands on a canonical block with its state stays linked. -/
theorem runBatches_sound {batches : List (List Header)} (sound : n.store.Sound preimage)
    (plan : Plan preimage batches) (anchors : n.store.Anchors batches.flatten) :
    (∀ e ∈ (runBatches env n (batches.map .ok)).events, e.Sound) ∧
      ((runBatches env n (batches.map .ok)).result = .ok () →
        Ran preimage env batches n.store (runBatches env n (batches.map .ok)).node.store) := by
  induction batches generalizing n with
  | nil => exact ⟨by simp [runBatches, Attempt.done], fun _ => ⟨sound, by simp⟩⟩
  | cons batch batches ih =>
    obtain ⟨nonempty, linked, named⟩ := plan
    have here := nonempty batch (mem_cons_self ..)
    rw [flatten_cons] at linked named anchors
    rw [map_cons, runBatches]
    split
    · obtain ⟨batchLinked, restLinked, joint⟩ := isChain_append.1 linked
      have batchAnchors : n.store.Anchors batch := fun first isFirst =>
        anchors first (by rw [head?_append, isFirst]; rfl)
      obtain ⟨events, extended⟩ := addBlocksInBatch_sound env.toExecution sound
        (fun b mem => named b (mem_append_left _ mem)) (batchLinked.imp fun _ _ => And.left)
        batchAnchors
      cases result : (addBlocksInBatch env.toExecution n batch).result with
      | error e =>
        rw [Attempt.andThen_of_error result]
        exact ⟨events, fun ok => by rw [result] at ok; cases ok⟩
      | ok done =>
        obtain ⟨sound', canonical, state, headers⟩ := extended result
        obtain ⟨last, isLast⟩ : ∃ last, batch.getLast? = some last :=
          Option.isSome_iff_exists.1 (by simpa using here)
        have plan' : Plan preimage batches :=
          ⟨fun batch mem => nonempty batch (mem_cons_of_mem _ mem), restLinked,
            fun x mem => named x (mem_append_right _ mem)⟩
        -- The next batch stands on the last block of this one.
        obtain ⟨events', after⟩ := ih sound' plan' fun second isSecond => by
          rw [(joint last isLast second isSecond).1]
          exact ⟨canonical last isLast, state last isLast⟩
        rw [Attempt.andThen_of_ok result]
        refine ⟨fun e mem => (mem_append.1 mem).elim (events e) (events' e), fun ok => ?_⟩
        obtain ⟨sound'', newest⟩ := after ok
        refine ⟨sound'', fun top isTop => ?_⟩
        rw [flatten_cons, getLast?_append] at isTop
        by_cases none' : batches = []
        · subst none'
          obtain rfl : last = top := by simpa [isLast] using isTop
          exact Or.inl (canonical last isLast)
        obtain ⟨top', above⟩ := plan'.getLast?_flatten none'
        obtain rfl : top' = top := by simpa [above] using isTop
        refine (newest top' above).imp_right fun missing => ?_
        obtain ⟨⟨x, mem, body⟩, kept⟩ := missing
        refine ⟨⟨x, by rw [flatten_cons]; exact mem_append_right _ mem, body⟩, fun absent => kept ?_⟩
        -- A block of the batch is not the newest one.
        refine Option.eq_none_iff_forall_ne_some.2 fun x found => ?_
        rcases headers found with before | mem
        · rw [absent] at before
          cases before
        · have own := (sound'.genuine found).2
          rw [plan'.named top' (mem_of_getLast? above)] at own
          exact linked.notMem_right mem (own ▸ mem_of_getLast? above)
    · next missing =>
      refine ⟨by simp [Attempt.done], fun _ => ⟨sound, fun last _ => Or.inr ⟨?_, id⟩⟩⟩
      obtain ⟨x, mem, body⟩ := exists_of_downloadBodies missing
      exact ⟨x, by rw [flatten_cons]; exact mem_append_left _ mem, body⟩
    · exact ⟨by simp [Attempt.failed], fun ok => by cases ok⟩

variable {syncHead : H256} {d : Download}

theorem walkHeaders_failed {rounds : Nat} {s : Store} {fcuHead : H256} {w : HeaderWalk}
    {e : SyncError} {table : Nat → Option Header}
    (walked : walkHeaders env s fcuHead rounds w = .failed e table)
    (c : ChainError) : e ≠ .chain c := by
  induction rounds generalizing w with
  | zero => cases walked
  | succ rounds ih =>
    rw [walkHeaders] at walked
    split at walked
    · cases walked
    split at walked
    · cases walked
      simp
    · split at walked
      · cases walked
      · exact ih walked
    split at walked
    · simp only at walked
      split at walked
      · unfold finishWalk at walked
        simp only at walked
        split at walked
        · cases walked
        · cases walked
          simp
      · exact ih walked
    · cases walked
      simp

theorem prepare_cases {rounds : Nat} {head : H256} {p : Prepared}
    (prepared : prepare env rounds n head = some p) :
    (∃ a, p = .ended a ∧ a.events = [] ∧ ∀ c, a.result ≠ .error (.chain c)) ∨
    ∃ syncHead pending, gatherPendingBlocks n rounds head [] = some (syncHead, pending) ∧
      ((p = .pendingOnly pending ∧ pending ≠ [] ∧ n.store.isCanonicalSync syncHead = true ∧
          n.store.hasBlockAndState syncHead = true) ∨
        ∃ d, p = .download d pending ∧ n.store.hasBlockAndState head = false ∧
          ¬(pending ≠ [] ∧ n.store.isCanonicalSync syncHead ∧ n.store.hasBlockAndState syncHead) ∧
          walkHeaders env n.store head rounds
            { syncHead, endBlockNumber := 0, singleBatch := true, attempts := 0,
              fullsyncHeaders := n.fullsyncHeaders } = .found d) := by
  unfold prepare at prepared
  split at prepared
  · cases prepared
    exact Or.inl ⟨_, rfl, rfl, by simp [Attempt.done]⟩
  next unknown =>
  split at prepared
  · cases prepared
  next syncHead pending gathered =>
  split at prepared
  · next covered =>
    cases prepared
    exact Or.inr ⟨syncHead, pending, gathered, Or.inl ⟨rfl, covered⟩⟩
  next open' =>
  split at prepared
  · cases prepared
  · cases prepared
    exact Or.inl ⟨_, rfl, rfl, by simp [Attempt.done]⟩
  · next walked =>
    cases prepared
    exact Or.inl ⟨_, rfl, rfl, fun c same => walkHeaders_failed walked c (Except.error.inj same)⟩
  next d walked =>
  cases prepared
  exact Or.inr ⟨syncHead, pending, gathered, Or.inr ⟨d, rfl, by simpa using unknown, open',
    walked⟩⟩

/-- What keeps a cycle linked: the served headers end in the block zero of the store, and if a body
may be missing, no pending block stands on a block that is stored but cannot be resumed from. -/
structure SyncEnv.Joins (env : SyncEnv) (n : Node) : Prop where
  rooted : env.Rooted n.store
  pending : (∀ x, env.Served x → env.requestBlockBody x ≠ .unavailable) ∨
    ∀ {h x}, n.pendingBlocks h = some x → n.store.headers x.parentHash = none ∨
      n.store.isCanonicalSync x.parentHash = true ∧ n.store.hasBlockAndState x.parentHash = true

/-- The pending blocks run only on top of a canonical block. -/
theorem runPending_sound {pending : List Header} (sound : n.store.Sound preimage)
    (linked : pending.IsChain fun p b => b.parentHash = p.hash)
    (named : ∀ b ∈ pending, preimage b.hash = b)
    (canonical : ∀ oldest ∈ pending.head?, n.store.hasBlockAndState oldest.parentHash = true →
      n.store.isCanonicalSync oldest.parentHash = true) :
    ∀ e ∈ (runPending env n pending).events, e.Sound := by
  unfold runPending
  split
  · simp [Attempt.done]
  next oldest isOldest =>
  split
  · next state =>
    refine (addBlocksInBatch_sound _ sound named linked fun first isFirst => ?_).1
    obtain rfl := Option.some.inj (isOldest.symm.trans isFirst)
    exact ⟨canonical oldest isOldest state, state⟩
  · simp [Attempt.done]

theorem Download.events_sound {batches : List (List Header)} {pending : List Header}
    (sound : n.store.Sound preimage)
    (genuine : ∀ {h x}, n.pendingBlocks h = some x → x.hash = h ∧ preimage h = x)
    (joins : env.Joins n) (planned : Planned preimage env n.store syncHead batches)
    (linked : pending.IsChain fun p b => b.parentHash = p.hash)
    (held : ∀ b ∈ pending, n.pendingBlocks b.hash = some b)
    (bottom : ∀ oldest ∈ pending.head?, oldest.parentHash = syncHead)
    (detour : ¬(pending ≠ [] ∧ n.store.isCanonicalSync syncHead ∧
      n.store.hasBlockAndState syncHead)) :
    ∀ e ∈ ((runBatches env { n with fullsyncHeaders := d.fullsyncHeaders }
      (batches.map .ok)).andThen fun n => runPending env n pending).events, e.Sound := by
  obtain ⟨events, ran⟩ := runBatches_sound env
    (n := { n with fullsyncHeaders := d.fullsyncHeaders }) sound planned.toPlan
    (planned.anchors joins.rooted)
  cases result : (runBatches env { n with fullsyncHeaders := d.fullsyncHeaders }
      (batches.map .ok)).result with
  | error e =>
    rw [Attempt.andThen_of_error result]
    exact events
  | ok done =>
    rw [Attempt.andThen_of_ok result]
    obtain ⟨sound', newest⟩ := ran result
    refine fun e mem => (mem_append.1 mem).elim (events e) fun mem => runPending_sound sound' linked
      (fun b mem => by rw [(genuine (held b mem)).2]) (fun oldest isOldest state => ?_) e mem
    have detour' : ¬(n.store.isCanonicalSync syncHead ∧ n.store.hasBlockAndState syncHead) :=
      fun both => detour ⟨fun none' => by simp [none'] at isOldest, both⟩
    obtain ⟨last, isLast⟩ := planned.getLast?_flatten fun none' => detour' (planned.empty none')
    rw [bottom oldest isOldest, ← planned.newest last isLast] at state ⊢
    rcases newest last isLast with canonical | ⟨⟨x, mem', body⟩, absent⟩
    · exact canonical
    -- A body is missing: what the pending blocks stand on was not stored before.
    rcases joins.pending with obtained | parents
    · exact absurd body (obtained x (planned.served x mem'))
    have parent := parents (held oldest (mem_of_mem_head? isOldest))
    rw [bottom oldest isOldest] at parent
    rw [planned.newest last isLast] at absent state
    obtain ⟨header, stored, -⟩ := sound'.canonical.hasBlockAndState.1 state
    rw [absent (parent.resolve_right detour')] at stored
    cases stored

/-- A cycle hands over only blocks whose parent is stored with its state and keeps the index
linked. -/
theorem syncCycleFull_sound {rounds : Nat} {head : H256} {run : Attempt SyncError}
    (sound : n.store.Sound preimage)
    (genuine : ∀ {h x}, n.pendingBlocks h = some x → x.hash = h ∧ preimage h = x)
    (honest : env.Honest preimage) (joins : env.Joins n)
    (finished : syncCycleFull env rounds n head = some run) : ∀ e ∈ run.events, e.Sound := by
  have clear : ∀ a : Attempt SyncError, (a.andThen clearFullsyncHeaders).events = a.events := by
    intro a
    cases result : a.result with
    | error e => rw [Attempt.andThen_of_error result]
    | ok _ =>
      rw [Attempt.andThen_of_ok result]
      exact append_nil _
  cases prepared : prepare env rounds n head with
  | none => simp [syncCycleFull, prepared] at finished
  | some p =>
    rcases prepare_cases prepared with ⟨a, rfl, silent, -⟩ | ⟨syncHead, pending, gathered, rest⟩
    · obtain rfl : a = run := by simpa [syncCycleFull, prepared] using finished
      simp [silent]
    obtain ⟨linked, held, bottom, -⟩ :=
      gatherPendingBlocks_linked genuine .nil (by simp) (by simp) gathered
    rcases rest with ⟨rfl, -, canonical, state⟩ | ⟨d, rfl, unknown, detour, walked⟩
    · obtain rfl := Option.some.inj (by simpa only [syncCycleFull, prepared] using finished)
      rw [clear]
      refine (addBlocksInBatch_sound _ sound (fun b mem => by rw [(genuine (held b mem)).2]) linked
        fun oldest isOldest => ?_).1
      rw [bottom oldest isOldest]
      exact ⟨canonical, state⟩
    · obtain rfl := Option.some.inj
        (by simpa only [syncCycleFull, prepared, unknown, Bool.false_eq_true, if_false]
          using finished)
      rw [clear]
      obtain ⟨batches, isPlan, planned⟩ :=
        walkHeaders_found sound.resumes (Covers.nothing ..) honest walked
      rw [isPlan]
      exact Download.events_sound sound genuine joins planned linked held bottom detour

end Cycle

section Siblings

def siblingHeaders : List Header :=
  [sampleHeader 1 0 0, sampleHeader 2 1 1, sampleHeader 3 1 1, sampleHeader 4 2 3]

def siblingPreimage (hash : H256) : Header :=
  (siblingHeaders.find? (·.hash = hash)).getD (sampleHeader 1 0 0)

/-- The child of the second sibling is pending. -/
def siblingNode : Node where
  store := siblingStore
  pendingBlocks hash := if hash = .ofNat 4 then some (sampleHeader 4 2 3) else none
  latestValidAncestor _ := none
  fullsyncHeaders _ := none
  executed hash := hash = .ofNat 1 || hash = .ofNat 2 || hash = .ofNat 3

/-- Every block executes, and the peers serve the header of the second sibling. -/
def siblingEnv (body : BodyFetch) : SyncEnv where
  toExecution := .keeping fun _ _ => .ok ()
  requestBlockHeaders _ hash :=
    if hash = .ofNat 3 then .headers [sampleHeader 3 1 1] else .unavailable
  requestBlockBody _ := body
  executeBatchSize := 1024
  executeBatchSize_pos := by decide

theorem sound_siblingStore : siblingStore.Sound siblingPreimage := by
  refine ⟨canonical_siblingStore, fun {h x} found => ?_⟩
  have same : x.hash = h := numbered_siblingStore.hash found
  have mem := mem_of_find?_eq_some found
  subst same
  simp only [mem_cons, not_mem_nil, or_false] at mem
  rcases mem with rfl | rfl | rfl <;> exact ⟨rfl, by decide +kernel⟩

theorem genuine_siblingNode {h : H256} {x : Header} (found : siblingNode.pendingBlocks h = some x) :
    x.hash = h ∧ siblingPreimage h = x := by
  simp only [siblingNode, Option.ite_none_right_eq_some, Option.some.injEq] at found
  obtain ⟨rfl, rfl⟩ := found
  decide +kernel

theorem served_siblingEnv {body : BodyFetch} {round : Nat} {hash : H256} {headers : List Header}
    (answer : (siblingEnv body).requestBlockHeaders round hash = .headers headers) :
    hash = .ofNat 3 ∧ headers = [sampleHeader 3 1 1] := by
  simp only [siblingEnv] at answer
  split at answer
  · next same =>
    injection answer with list
    exact ⟨same, list.symm⟩
  · cases answer

theorem honest_siblingEnv (body : BodyFetch) : (siblingEnv body).Honest siblingPreimage := by
  refine ⟨fun answer isHead => ?_, fun answer => ?_, fun answer mem => ?_, fun answer mem _ => ?_⟩ <;>
    obtain ⟨rfl, rfl⟩ := served_siblingEnv answer
  · obtain rfl : sampleHeader 3 1 1 = _ := by simpa using isHead
    rfl
  · exact .singleton _
  · obtain rfl := mem_singleton.1 mem
    decide +kernel
  · obtain rfl := mem_singleton.1 mem
    decide +kernel

/-- The body of the second sibling is not served but its state is there: its child becomes canonical
on top of the first. -/
theorem syncCycleFull_detaches_pending :
    siblingStore.Sound siblingPreimage ∧ (siblingEnv .unavailable).Honest siblingPreimage ∧
      ∃ run updated, syncCycleFull (siblingEnv .unavailable) 2 siblingNode (.ofNat 4) = some run ∧
        .updated updated ∈ run.events ∧
        updated.canonicalBlockHashes 1 = some (.ofNat 2) ∧
        updated.canonicalBlockHashes 2 = some (.ofNat 4) ∧ ¬ updated.Canonical := by
  have evaluated : (syncCycleFull (siblingEnv .unavailable) 2 siblingNode (.ofNat 4)).any
      (fun run => run.events.any fun
        | .updated s => s.canonicalBlockHashes 1 = some (.ofNat 2) ∧
            s.canonicalBlockHashes 2 = some (.ofNat 4) ∧
            s.headers (.ofNat 4) = some (sampleHeader 4 2 3)
        | .handed .. => false) = true := by
    decide +kernel
  refine ⟨sound_siblingStore, honest_siblingEnv _, ?_⟩
  cases finished : syncCycleFull (siblingEnv .unavailable) 2 siblingNode (.ofNat 4) with
  | none =>
    rw [finished] at evaluated
    cases evaluated
  | some run =>
    rw [finished, Option.any_some, any_eq_true] at evaluated
    obtain ⟨e, mem, entries⟩ := evaluated
    cases e with
    | handed => cases entries
    | updated s =>
      obtain ⟨first, second, stored⟩ := of_decide_eq_true entries
      refine ⟨run, s, rfl, mem, first, second, fun canonical => ?_⟩
      obtain ⟨low, -, chain⟩ := canonical.earliest
      have parent : H256.ofNat 3 = .ofNat 2 := chain.linked first second stored
      exact absurd parent (by decide +kernel)

theorem syncCycleFull_sound_siblings :
    ∃ run, syncCycleFull (siblingEnv .obtained) 2 siblingNode (.ofNat 4) = some run ∧
      run.events.length = 4 ∧ ∀ e ∈ run.events, e.Sound := by
  have finished : (syncCycleFull (siblingEnv .obtained) 2 siblingNode (.ofNat 4)).map
      (·.events.length) = some 4 := by
    decide +kernel
  obtain ⟨run, isRun, length⟩ := Option.map_eq_some_iff.1 finished
  refine ⟨run, isRun, length, syncCycleFull_sound sound_siblingStore genuine_siblingNode
    (honest_siblingEnv _) ⟨fun served zero => ?_, Or.inl fun x _ missing => by cases missing⟩ isRun⟩
  obtain ⟨_, _, _, answer, mem⟩ := served
  obtain ⟨rfl, rfl⟩ := served_siblingEnv answer
  obtain rfl := mem_singleton.1 mem
  exact absurd zero (by decide +kernel)

end Siblings

end Ethrex.Chain
