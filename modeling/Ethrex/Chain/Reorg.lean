import Ethrex.Chain.ForkChoice

/-!
# Accepted fork choices

Which safe and finalized blocks an accepted fork choice records, and the canonical chain over any
sequence of fork choices.
-/

namespace Ethrex.Chain

open Lineage List

variable {s next : Store} {headHash safeHash finalizedHash : H256} {depth : Option Nat}

/-- The lowest block of the branch that a fork choice to the head makes canonical. -/
structure LowestNew (s : Store) (headHash : H256) (lowest : Header) : Prop where
  found : s.headers lowest.hash = some lowest
  ancestor : s.forest.Ancestor lowest.hash headHash
  fresh : s.canonicalBlockHashes lowest.number ≠ some lowest.hash
  parent : ∃ n, s.canonicalBlockHashes n = some lowest.parentHash

variable {head : Header} {branch : List (Nat × H256)} {link : H256}

theorem Joins.lowest (numbered : s.Numbered) (joins : Joins s head headHash branch link)
    (off : s.canonicalBlockHashes head.number ≠ some headHash) :
    ∃ lowest, LowestNew s headHash lowest ∧ lowest.parentHash = link ∧
      lowest.number = (branch.getLastD (head.number, headHash)).1 := by
  have path := joins.path
  rw [if_neg off] at path
  obtain ⟨lowest, found, height, parent, up⟩ := path.lowest
  have own := numbered.hash found
  have height : lowest.number = (branch.getLastD (head.number, headHash)).1 := height
  have parent : lowest.parentHash = link := parent
  have fresh : s.canonicalBlockHashes (branch.getLastD (head.number, headHash)).1 ≠
      some (branch.getLastD (head.number, headHash)).2 := by
    cases branch with
    | nil => exact off
    | cons b rest =>
      have mem := getLast_mem (cons_ne_nil b rest)
      rw [getLast_eq_getLastD] at mem
      rw [getLastD_cons]
      exact joins.fresh _ mem
  refine ⟨lowest, ⟨own ▸ found, own ▸ up, ?_, parent.symm ▸ joins.anchored⟩, parent, height⟩
  rw [own, height]
  exact fresh

/-- A block that passes the test for the new chain is an ancestor of the head, or the old canonical
block beside the lowest new one. -/
theorem ancestor_of_onNewChain (canonical : s.Canonical) (numbered : s.Numbered) {element : Header}
    {hash : H256} (joins : Joins s head headHash branch link)
    (on : onNewChain s head headHash (branch.getLastD (head.number,
      headHash)).1 branch element hash)
    (replaced : ∀ lowest, LowestNew s headHash lowest →
      s.canonicalBlockHashes lowest.number ≠ some hash) : s.forest.Ancestor hash headHash := by
  obtain ⟨low, -, chain⟩ := canonical.earliest
  rw [onNewChain, decide_eq_true_eq] at on
  rcases on with ⟨index, le⟩ | ⟨-, rfl⟩ | mem
  · have index := canonical.isCanonical.1 index
    by_cases onIndex : s.canonicalBlockHashes head.number = some headHash
    · rw [joins.empty onIndex] at le
      exact chain.ancestor le index onIndex
    obtain ⟨lowest, new, parent, number⟩ := joins.lowest numbered onIndex
    have strict : element.number ≠ lowest.number :=
      fun same => replaced lowest new (same ▸ index)
    obtain ⟨n, anchored⟩ := joins.anchored
    obtain ⟨w, found, height⟩ := chain.stored anchored
    subst parent
    have above : lowest.number = w.number + 1 := numbered.graded new.found found
    have below : element.number ≤ n := by
      have : w.number = n := height
      omega
    exact (chain.ancestor below index anchored).trans joins.path.ancestor
  · exact .refl _
  by_cases onIndex : s.canonicalBlockHashes head.number = some headHash
  · rw [joins.empty onIndex] at mem
    cases mem
  · have path := joins.path
    rw [if_neg onIndex] at path
    exact (path.mem_ancestor (mem_cons_of_mem _ mem)).1

/-- What a fork choice records as safe and finalized are the head or ancestors of it, in this
order. -/
structure RecordsAncestors (s next : Store) (headHash safeHash finalizedHash : H256) : Prop where
  safe : ∀ {b}, safeHash ≠ zeroHash → s.headers safeHash = some b →
    next.safeBlockNumber = some b.number ∧ s.forest.Ancestor safeHash headHash
  finalized : ∀ {f}, finalizedHash ≠ zeroHash → s.headers finalizedHash = some f →
    next.finalizedBlockNumber = some f.number ∧ s.forest.Ancestor finalizedHash headHash
  ordered : ∀ {f b}, safeHash ≠ zeroHash → finalizedHash ≠ zeroHash →
    s.headers finalizedHash = some f → s.headers safeHash = some b → f.number ≤ b.number

/-- An accepted fork choice records ancestors of the head exactly when neither hash is the old
canonical one at the height of the lowest new block. -/
theorem applyForkChoice_recordsAncestors_iff (canonical : s.Canonical) (numbered : s.Numbered)
    {header : Header}
    (accepted : applyForkChoice s headHash safeHash finalizedHash depth = (.ok header, next)) :
    RecordsAncestors s next headHash safeHash finalizedHash ↔
      ∀ lowest, LowestNew s headHash lowest → ∀ hash ∈ [safeHash, finalizedHash],
        hash ≠ zeroHash → s.canonicalBlockHashes lowest.number ≠ some hash := by
  obtain ⟨choice, checked, rfl, updated⟩ := applyForkChoice_ok accepted
  obtain ⟨-, -, -, -, -, -, safeNumber, finalizedNumber, -, -⟩ := Store.forkchoiceUpdate_ok updated
  have headFound := canonical.getBlockHeaderByHash _ ▸ checked.head
  obtain ⟨link, joins⟩ := joins_of_findLink canonical numbered headFound checked.linked
  have safeEq : ∀ {b}, safeHash ≠ zeroHash → s.headers safeHash = some b → choice.safe = some b := by
    intro b given found
    rw [checked.safe, if_neg given, canonical.getBlockHeaderByHash, found]
  have finalizedEq : ∀ {f}, finalizedHash ≠ zeroHash → s.headers finalizedHash = some f →
      choice.finalized = some f := by
    intro f given found
    rw [checked.finalized, if_neg given, canonical.getBlockHeaderByHash, found]
  constructor
  · rintro ⟨safe, finalized, -⟩ lowest new hash mem given index
    obtain ⟨_, -, chain⟩ := canonical.earliest
    obtain ⟨v, found, height⟩ := chain.stored index
    have up : s.forest.Ancestor hash headHash := by
      rcases mem_pair.1 mem with rfl | rfl
      · exact (safe given found).2
      · exact (finalized given found).2
    -- Two ancestors of the head at one height are one block.
    have same := up.eq_of_height numbered.graded new.ancestor found new.found height
    exact new.fresh (same ▸ index)
  · intro replaced
    refine ⟨fun given found => ⟨?_, ?_⟩, fun given found => ⟨?_, ?_⟩, ?_⟩
    · rw [safeNumber, safeEq given found]
      rfl
    · exact ancestor_of_onNewChain canonical numbered joins
        (checked.onChain (Or.inl ⟨rfl, safeEq given found⟩))
        fun lowest new => replaced lowest new _ (by simp) given
    · rw [finalizedNumber, finalizedEq given found]
      rfl
    · exact ancestor_of_onNewChain canonical numbered joins
        (checked.onChain (Or.inr ⟨rfl, finalizedEq given found⟩))
        fun lowest new => replaced lowest new _ (by simp) given
    · intro f b safeGiven finalizedGiven finalizedFound safeFound
      exact checked.ordered safeGiven (finalizedEq finalizedGiven finalizedFound)
        (safeEq safeGiven safeFound)

def sampleHeader (id number parent : Nat) : Header :=
  ⟨.ofNat id, number, .ofNat parent, .ofNat (100 + id)⟩

/-- Two children of the genesis block, the first of them canonical. -/
def siblingStore : Store :=
  .ofTables [sampleHeader 1 0 0, sampleHeader 2 1 1, sampleHeader 3 1 1] (sampleHeader 1 0 0)
    [sampleHeader 2 1 1] [.ofNat 101, .ofNat 102, .ofNat 103]

theorem canonical_siblingStore : siblingStore.Canonical :=
  Store.canonical_ofTables (by decide +kernel) (by decide +kernel)

theorem numbered_siblingStore : siblingStore.Numbered :=
  Store.numbered_ofTables (by decide +kernel)

/-- A fork choice to the second child is accepted with the first child as the safe block. -/
theorem applyForkChoice_records_replaced_block :
    siblingStore.Canonical ∧ siblingStore.Numbered ∧
      (applyForkChoice siblingStore (.ofNat 3) (.ofNat 2) zeroHash none).1 =
        .ok (sampleHeader 3 1 1) ∧
      ¬ RecordsAncestors siblingStore
        (applyForkChoice siblingStore (.ofNat 3) (.ofNat 2) zeroHash none).2
        (.ofNat 3) (.ofNat 2) zeroHash := by
  refine ⟨canonical_siblingStore, numbered_siblingStore, by decide +kernel, fun records => ?_⟩
  have first : siblingStore.headers (.ofNat 2) = some (sampleHeader 2 1 1) := by decide +kernel
  have second : siblingStore.headers (.ofNat 3) = some (sampleHeader 3 1 1) := by decide +kernel
  have up := (records.safe (by decide +kernel) first).2
  have same := (up.height_le numbered_siblingStore.graded first second).2 rfl
  exact absurd same (by decide +kernel)

/-- The same fork choice with the genesis block as safe and finalized block. -/
theorem applyForkChoice_records_genesis :
    RecordsAncestors siblingStore
      (applyForkChoice siblingStore (.ofNat 3) (.ofNat 1) (.ofNat 1) none).2
      (.ofNat 3) (.ofNat 1) (.ofNat 1) := by
  have accepted : (applyForkChoice siblingStore (.ofNat 3) (.ofNat 1) (.ofNat 1) none).1 =
      .ok (sampleHeader 3 1 1) := by decide +kernel
  refine (applyForkChoice_recordsAncestors_iff canonical_siblingStore numbered_siblingStore
    (Prod.ext accepted rfl)).2 fun lowest new hash mem _ index => ?_
  obtain rfl : hash = .ofNat 1 := by simpa using mem
  have listed := mem_of_find?_eq_some new.found
  have fresh := new.fresh
  simp only [mem_cons, not_mem_nil, or_false] at listed
  rcases listed with rfl | rfl | rfl
  · exact fresh (by decide +kernel)
  · exact absurd index (by decide +kernel)
  · exact absurd index (by decide +kernel)

theorem Store.Canonical.applyForkChoice (canonical : s.Canonical) (numbered : s.Numbered)
    {header : Header}
    (accepted : Chain.applyForkChoice s headHash safeHash finalizedHash depth = (.ok header,
      next)) :
    next.Canonical ∧ next.headers = s.headers ∧ next.latestBlockHeader.hash = headHash := by
  obtain ⟨choice, checked, rfl, updated⟩ := applyForkChoice_ok accepted
  obtain ⟨found', foundEq, headers, cached, -⟩ := Store.forkchoiceUpdate_ok updated
  rw [canonical.getBlockHeaderByHash] at foundEq
  have headFound := canonical.getBlockHeaderByHash _ ▸ checked.head
  obtain ⟨link, joins⟩ := joins_of_findLink canonical numbered headFound checked.linked
  refine ⟨canonical.forkchoiceUpdate numbered updated headFound joins.path joins.anchored ?_ ?_,
    headers, by rw [cached, numbered.hash foundEq]⟩
  · intro block mem
    split
    · next onIndex =>
      rw [joins.empty onIndex] at mem
      exact mem
    · exact mem_cons_of_mem _ mem
  · intro block mem
    split at mem
    · cases mem
    · exact mem_cons.1 mem

/-- What happens to the store between and at fork choices. -/
inductive Event where
  /-- A block is stored.  Its hash determines the header, so a known one stays. -/
  | header (header : Header)
  /-- States are computed or dropped. -/
  | states (available : H256 → Bool)
  | forkChoice (headHash safeHash finalizedHash : H256) (maxReorgDepth : Option Nat)

/-- The store with the head of the last accepted fork choice. -/
structure Followed where
  store : Store
  acceptedHead : H256

def Followed.step (f : Followed) : Event → Followed
  | .header header =>
    { f with store := { f.store with
        headers := fun hash =>
          (f.store.headers hash).or (if hash = header.hash then some header else none) } }
  | .states available => { f with store := { f.store with hasStateRoot := available } }
  | .forkChoice headHash safeHash finalizedHash maxReorgDepth =>
    let (outcome, store) := applyForkChoice f.store headHash safeHash finalizedHash maxReorgDepth
    { store
      acceptedHead :=
        match outcome with
        | .ok _ => headHash
        | .error _ => f.acceptedHead }

/-- The index is a chain that ends in the head of the last accepted fork choice. -/
structure Followed.Consistent (f : Followed) : Prop where
  canonical : f.store.Canonical
  head : f.store.latestBlockHeader.hash = f.acceptedHead

variable {f : Followed}

theorem Followed.Consistent.step (consistent : f.Consistent) (numbered : f.store.Numbered)
    (event : Event) : (f.step event).Consistent := by
  cases event with
  | header header =>
    obtain ⟨⟨⟨low, lowest, chain⟩, latest, stored, head⟩, accepted⟩ := consistent
    refine ⟨⟨⟨low, lowest, ?_⟩, latest, ?_, head⟩, accepted⟩
    · refine chain.mono rfl rfl fun {k v} found => ?_
      have found : f.store.headers k = some v := found
      simp [Followed.step, Store.forest, found]
    · simp [Followed.step, stored]
  | states available =>
    exact ⟨⟨consistent.canonical.earliest, consistent.canonical.latest, consistent.canonical.stored,
      consistent.canonical.head⟩, consistent.head⟩
  | forkChoice headHash safeHash finalizedHash depth =>
    rw [Followed.step]
    generalize result : applyForkChoice f.store headHash safeHash finalizedHash depth = outcome
    obtain ⟨verdict, next⟩ := outcome
    cases verdict with
    | error e =>
      rw [applyForkChoice_error result]
      exact ⟨consistent.canonical, consistent.head⟩
    | ok header =>
      obtain ⟨canonical, -, head⟩ := consistent.canonical.applyForkChoice numbered result
      exact ⟨canonical, head⟩

def Followed.run (f : Followed) (events : List Event) : Followed :=
  events.foldl Followed.step f

theorem applyForkChoice_headers (s : Store) (headHash safeHash finalizedHash : H256)
    (depth : Option Nat) :
    (applyForkChoice s headHash safeHash finalizedHash depth).2.headers = s.headers := by
  generalize result : applyForkChoice s headHash safeHash finalizedHash depth = outcome
  obtain ⟨verdict, next⟩ := outcome
  cases verdict with
  | error e => rw [applyForkChoice_error result]
  | ok header =>
    obtain ⟨choice, -, rfl, updated⟩ := applyForkChoice_ok result
    obtain ⟨-, -, headers, -⟩ := Store.forkchoiceUpdate_ok updated
    exact headers

theorem Followed.headers_run {events : List Event}
    (calls : ∀ event ∈ events, ∃ headHash safeHash finalizedHash depth,
      event = .forkChoice headHash safeHash finalizedHash depth) :
    (f.run events).store.headers = f.store.headers := by
  induction events generalizing f with
  | nil => rfl
  | cons event events ih =>
    obtain ⟨headHash, safeHash, finalizedHash, depth, rfl⟩ := calls event (mem_cons_self ..)
    rw [Followed.run, foldl_cons, ← Followed.run,
      ih fun event mem => calls event (mem_cons_of_mem _ mem)]
    exact applyForkChoice_headers f.store headHash safeHash finalizedHash depth

/-- Over any fork choices the canonical index stays a parent-linked chain from the earliest to the
latest block, the head of the last accepted one, and a rejected one changes nothing. -/
theorem Followed.run_consistent {f : Followed} (consistent : f.Consistent) (events : List Event)
    (numbered : ∀ done, done <+: events → (f.run done).store.Numbered) :
    (f.run events).Consistent ∧
      ∀ headHash safeHash finalizedHash depth e,
        (applyForkChoice (f.run events).store headHash safeHash finalizedHash depth).1 = .error e →
        (applyForkChoice (f.run events).store headHash safeHash finalizedHash depth).2 =
          (f.run events).store := by
  refine ⟨?_, fun _ _ _ _ e rejected => applyForkChoice_error (Prod.ext rejected rfl)⟩
  induction events using List.reverseRecOn with
  | nil => exact consistent
  | append_singleton events event ih =>
    rw [Followed.run, foldl_append]
    refine (ih fun done le => numbered done (le.trans (prefix_append _ _))).step ?_ event
    exact numbered events (prefix_append _ _)

/-- A reorganisation, a fork choice to an unknown block and a truncation to the genesis block. -/
theorem Followed.run_consistent_siblings :
    (Followed.run ⟨siblingStore, .ofNat 2⟩ [.forkChoice (.ofNat 3) (.ofNat 1) (.ofNat 1) none,
      .forkChoice (.ofNat 7) (.ofNat 1) (.ofNat 1) none,
      .forkChoice (.ofNat 1) zeroHash zeroHash none]).Consistent := by
  refine (Followed.run_consistent ⟨canonical_siblingStore, by decide +kernel⟩ _
    fun done le => ?_).1
  have same := @Followed.headers_run ⟨siblingStore, .ofNat 2⟩ done fun event mem => by
    have := le.subset mem
    simp only [mem_cons, not_mem_nil, or_false] at this
    rcases this with rfl | rfl | rfl <;> exact ⟨_, _, _, _, rfl⟩
  exact numbered_siblingStore.congr same

end Ethrex.Chain
