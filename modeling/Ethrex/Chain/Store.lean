import Ethrex.Types
import Ethrex.Lineage.Forest

/-!
# The block tables of the store

Headers by hash, the canonical index, the cached head and the chain data. Which state roots are
available is a table of its own.
-/

namespace Ethrex.Chain

open Lineage List

/-- The fields of a block header that decide about chains; a header is kept with its hash. -/
structure Header where
  hash : H256
  number : Nat
  parentHash : H256
  stateRoot : H256
  deriving DecidableEq

inductive StoreError where
  | missingEarliestBlockNumber
  | missingLatestBlockNumber
  deriving DecidableEq, Repr

structure Store where
  headers : H256 → Option Header
  canonicalBlockHashes : Nat → Option H256
  /-- The cached head. -/
  latestBlockHeader : Header
  latestBlockNumber : Option Nat
  earliestBlockNumber : Option Nat
  safeBlockNumber : Option Nat
  finalizedBlockNumber : Option Nat
  hasStateRoot : H256 → Bool
  /-- The keys of `STATE_HISTORY` in ascending order. -/
  stateHistory : List Nat
  journalPruningPaused : Bool
  commitThreshold : Nat
  safeCommitRoot : H256

namespace Store

variable (s : Store)

def getBlockHeaderByHash (hash : H256) : Option Header :=
  if hash = s.latestBlockHeader.hash then some s.latestBlockHeader else s.headers hash

def getCanonicalBlockHash (number : Nat) : Option H256 :=
  if s.latestBlockHeader.number = number then some s.latestBlockHeader.hash
  else s.canonicalBlockHashes number

def isCanonical (number : Nat) (hash : H256) : Bool :=
  s.getCanonicalBlockHash number = some hash

/-- Puts the entries of a list into the index, the later ones over the earlier ones. -/
def putAll (index : Nat → Option H256) (blocks : List (Nat × H256)) : Nat → Option H256 :=
  blocks.foldl (fun index block => Function.update index block.1 (some block.2)) index

def forkchoiceUpdateInner (newCanonicalBlocks : List (Nat × H256))
    (headNumber : Nat) (headHash : H256) (safe finalized : Option Nat) : Store :=
  let latest := s.latestBlockNumber.getD 0
  let written := putAll s.canonicalBlockHashes newCanonicalBlocks
  -- The keys `head_number + 1 ..= latest` are deleted one by one.
  let truncated := fun n => if headNumber < n ∧ n ≤ latest then none else written n
  let pruned : List Nat :=
    match finalized with
    | some number =>
      if s.finalizedBlockNumber.getD 0 < number ∧ s.journalPruningPaused = false then
        s.stateHistory.filter (number < ·)
      else s.stateHistory
    | none => s.stateHistory
  { s with
    canonicalBlockHashes := Function.update truncated headNumber (some headHash)
    latestBlockNumber := some headNumber
    safeBlockNumber := safe.or s.safeBlockNumber
    finalizedBlockNumber := finalized.or s.finalizedBlockNumber
    stateHistory := pruned }

/-- `compute_safe_commit_root`: the state root of the canonical block that is the commit
threshold below the head. -/
def computeSafeCommitRoot (head : Nat) : Option H256 :=
  if s.commitThreshold ≤ head then do
    let hash ← s.getCanonicalBlockHash (head - s.commitThreshold)
    let header ← s.getBlockHeaderByHash hash
    return header.stateRoot
  else none

/-- `forkchoice_update`, with the store that it leaves. -/
def forkchoiceUpdate (newCanonicalBlocks : List (Nat × H256)) (headNumber : Nat)
    (headHash : H256) (safe finalized : Option Nat) : Except StoreError Unit × Store :=
  match s.getBlockHeaderByHash headHash with
  | none => (.error .missingLatestBlockNumber, s)
  | some newHead =>
    let updated := { s with latestBlockHeader := newHead }.forkchoiceUpdateInner
      newCanonicalBlocks headNumber headHash safe finalized
    let root := (updated.computeSafeCommitRoot headNumber).getD updated.safeCommitRoot
    (.ok (), { updated with safeCommitRoot := root })

def forest : Forest H256 Header where
  find := s.headers
  parent := Header.parentHash
  height := Header.number

/-- Headers are stored under their hashes and are numbered one above their parents. -/
structure Numbered (s : Store) : Prop where
  hash : ∀ {h header}, s.headers h = some header → header.hash = h
  graded : s.forest.Graded

variable {s next : Store} {number n : Nat} {hash : H256} {index : Nat → Option H256}
  {blocks : List (Nat × H256)} {safe finalized : Option Nat}

theorem Numbered.congr (numbered : s.Numbered) (same : next.headers = s.headers) :
    next.Numbered := by
  refine ⟨fun found => numbered.hash (same ▸ found), fun k v w found found' => ?_⟩
  exact numbered.graded (k := k) (by rw [Store.forest, ← same]; exact found)
    (by rw [Store.forest, ← same]; exact found')

/-- The index is a parent-linked chain from the earliest to the latest block, and the cached head is
its last. -/
structure Canonical (s : Store) : Prop where
  earliest : ∃ low, s.earliestBlockNumber = some low ∧
    s.forest.Linked s.canonicalBlockHashes low s.latestBlockHeader.number
  latest : s.latestBlockNumber = some s.latestBlockHeader.number
  stored : s.headers s.latestBlockHeader.hash = some s.latestBlockHeader
  head : s.canonicalBlockHashes s.latestBlockHeader.number = some s.latestBlockHeader.hash

theorem Canonical.getBlockHeaderByHash (canonical : s.Canonical) (hash : H256) :
    s.getBlockHeaderByHash hash = s.headers hash := by
  unfold Store.getBlockHeaderByHash
  split
  · next same => rw [same, canonical.stored]
  · rfl

theorem Canonical.getCanonicalBlockHash (canonical : s.Canonical) (number : Nat) :
    s.getCanonicalBlockHash number = s.canonicalBlockHashes number := by
  unfold Store.getCanonicalBlockHash
  split
  · next same => rw [← same, canonical.head]
  · rfl

theorem Canonical.isCanonical (canonical : s.Canonical) :
    s.isCanonical number hash = true ↔ s.canonicalBlockHashes number = some hash := by
  rw [Store.isCanonical, canonical.getCanonicalBlockHash, decide_eq_true_eq]

theorem putAll_of_notMem (absent : ∀ k, (n, k) ∉ blocks) : putAll index blocks n = index n := by
  induction blocks generalizing index with
  | nil => rfl
  | cons block rest ih =>
    rw [putAll, foldl_cons, ← putAll, ih fun k mem => absent k (mem_cons_of_mem _ mem)]
    refine Function.update_of_ne ?_ _ _
    rintro rfl
    exact absent block.2 (mem_cons_self ..)

theorem putAll_of_mem {k : H256} (unique : ∀ {k'}, (n, k') ∈ blocks → k' = k)
    (mem : (n, k) ∈ blocks) : putAll index blocks n = some k := by
  induction blocks generalizing index with
  | nil => cases mem
  | cons block rest ih =>
    rw [putAll, foldl_cons, ← putAll]
    by_cases later : (n, k) ∈ rest
    · exact ih (fun mem' => unique (mem_cons_of_mem _ mem')) later
    have here : (n, k) = block := (mem_cons.1 mem).resolve_right later
    subst here
    rw [putAll_of_notMem fun k' mem' => ?_, Function.update_self]
    exact later (unique (mem_cons_of_mem _ mem') ▸ mem')

theorem forkchoiceUpdate_ok
    (accepted : s.forkchoiceUpdate blocks number hash safe finalized = (.ok (), next)) :
    ∃ header, s.getBlockHeaderByHash hash = some header ∧ next.headers = s.headers ∧
      next.latestBlockHeader = header ∧ next.latestBlockNumber = some number ∧
      next.earliestBlockNumber = s.earliestBlockNumber ∧
      next.safeBlockNumber = safe.or s.safeBlockNumber ∧
      next.finalizedBlockNumber = finalized.or s.finalizedBlockNumber ∧
      next.hasStateRoot = s.hasStateRoot ∧
      ∀ n, next.canonicalBlockHashes n =
        if n = number then some hash
        else if number < n ∧ n ≤ s.latestBlockNumber.getD 0 then none
        else putAll s.canonicalBlockHashes blocks n := by
  unfold forkchoiceUpdate at accepted
  split at accepted
  · cases accepted
  next header found =>
  cases accepted
  refine ⟨header, found, rfl, rfl, rfl, rfl, rfl, rfl, rfl, fun n => ?_⟩
  simp only [forkchoiceUpdateInner, Function.update_apply]

theorem forkchoiceUpdate_error {e : StoreError}
    (rejected : s.forkchoiceUpdate blocks number hash safe finalized = (.error e, next)) :
    next = s := by
  unfold forkchoiceUpdate at rejected
  split at rejected
  · exact (congrArg Prod.snd rejected).symm
  · cases rejected

/-- An update with a path down to a canonical block keeps the index a chain, with or without the
head in the list. -/
theorem Canonical.forkchoiceUpdate (canonical : s.Canonical) (numbered : s.Numbered)
    {path : List (Nat × H256)} {link : H256} {header : Header}
    (accepted : s.forkchoiceUpdate blocks header.number hash safe finalized = (.ok (), next))
    (found : s.headers hash = some header) (down : s.forest.Path hash path link)
    (anchored : ∃ n, s.canonicalBlockHashes n = some link) (listed : ∀ block ∈ blocks, block ∈ path)
    (covered : ∀ block ∈ path, block = (header.number, hash) ∨ block ∈ blocks) :
    next.Canonical := by
  obtain ⟨header', found', headers, cached, latest, earliest, -, -, -, index⟩ :=
    forkchoiceUpdate_ok accepted
  rw [canonical.getBlockHeaderByHash] at found'
  obtain rfl : header = header' := Option.some.inj (found.symm.trans found')
  obtain ⟨low, lowest, chain⟩ := canonical.earliest
  obtain ⟨m, anchor⟩ := anchored
  obtain ⟨w, hw, height⟩ := chain.stored anchor
  subst height
  obtain ⟨v, hv, length, heights⟩ := down.heights numbered.graded hw
  obtain rfl : header = v := Option.some.inj (found.symm.trans hv)
  have forest : next.forest = s.forest := by rw [Store.forest, headers]; rfl
  have top : header.number = s.forest.height header := rfl
  have spliced : s.forest.Linked next.canonicalBlockHashes low header.number := by
    refine chain.splice numbered.graded down hw anchor found (fun n le => ?_) (fun {n k} mem => ?_)
      fun n lt => ?_
    · rw [index]
      by_cases same : n = header.number
      · -- The path is empty: the head itself is canonical.
        have empty : path = [] := eq_nil_of_length_eq_zero (by omega)
        subst empty
        cases down
        rw [if_pos same, same, top, Option.some.inj (found.symm.trans hw), anchor]
      · rw [if_neg same, if_neg (by omega), putAll_of_notMem]
        intro k mem
        have := (heights n).1 ⟨k, listed _ mem⟩
        omega
    · rw [index]
      have bounds := (heights n).1 ⟨k, mem⟩
      rcases covered _ mem with same | mem'
      · cases same
        exact if_pos rfl
      by_cases same : n = header.number
      · subst same
        obtain ⟨up, u, hu, height⟩ := down.mem_ancestor mem
        rw [if_pos rfl, (up.height_le numbered.graded hu found).2 height]
      · rw [if_neg same, if_neg (by omega)]
        exact putAll_of_mem (fun mem'' => down.unique numbered.graded (listed _ mem'') mem) mem'
    · rw [index, if_neg (by omega)]
      split
      · rfl
      next outside =>
      rw [putAll_of_notMem]
      · have past : s.latestBlockHeader.number < n := by
          rw [canonical.latest, Option.getD_some] at outside
          omega
        refine Option.not_isSome_iff_eq_none.1 fun inside => ?_
        have := (chain.range n).1 inside
        omega
      · intro k mem
        have := (heights n).1 ⟨k, listed _ mem⟩
        omega
  refine ⟨⟨low, earliest.trans lowest, ?_⟩, by rw [latest, cached], ?_, ?_⟩
  · rw [forest, cached]
    exact spliced
  · rw [headers, cached, numbered.hash found]
    exact found
  · rw [cached, index, if_pos rfl, numbered.hash found]

/-- The store with the listed headers, index and states. -/
def ofTables (blocks : List Header) (genesis : Header) (chain : List Header)
    (roots : List H256) : Store where
  headers hash := blocks.find? (·.hash = hash)
  canonicalBlockHashes n := ((genesis :: chain)[n]?).map Header.hash
  latestBlockHeader := chain.getLastD genesis
  latestBlockNumber := some (chain.getLastD genesis).number
  earliestBlockNumber := some 0
  safeBlockNumber := none
  finalizedBlockNumber := none
  hasStateRoot root := root ∈ roots
  stateHistory := []
  journalPruningPaused := false
  commitThreshold := 128
  safeCommitRoot := genesis.stateRoot

section OfTables

variable {blocks chain : List Header} {genesis : Header} {roots : List H256}

theorem numbered_ofTables
    (graded : ∀ b ∈ blocks, ∀ p ∈ blocks, b.parentHash = p.hash → b.number = p.number + 1) :
    (ofTables blocks genesis chain roots).Numbered := by
  have own : ∀ {h header}, (ofTables blocks genesis chain roots).headers h = some header →
      header.hash = h := fun found => by simpa using find?_some found
  refine ⟨own, fun k v w found found' => ?_⟩
  exact graded v (mem_of_find?_eq_some found) w (mem_of_find?_eq_some found')
    (own found').symm

theorem canonical_ofTables
    (stored : ∀ p ∈ (genesis :: chain).zipIdx,
      blocks.find? (·.hash = p.1.hash) = some p.1 ∧ p.1.number = p.2)
    (linked : (genesis :: chain).IsChain fun p b => b.parentHash = p.hash) :
    (ofTables blocks genesis chain roots).Canonical := by
  have entry : ∀ {n header}, (genesis :: chain)[n]? = some header →
      blocks.find? (·.hash = header.hash) = some header ∧ header.number = n := by
    intro n header found
    exact stored (header, n) (mem_zipIdx_iff_getElem?.2 found)
  have last : (genesis :: chain)[chain.length]? = some (chain.getLastD genesis) := by
    rw [← getLast_eq_getLastD (cons_ne_nil genesis chain), getLast_eq_getElem]
    simp
  have lastNumber := (entry last).2
  refine ⟨⟨0, rfl, ?_, ?_, ?_⟩, rfl, (entry last).1, ?_⟩
  · intro n
    show (((genesis :: chain)[n]?).map Header.hash).isSome ↔ 0 ≤ n ∧ n ≤ (chain.getLastD genesis).number
    rw [Option.isSome_map, isSome_getElem?, length_cons]
    omega
  · intro n k found
    obtain ⟨header, listed, rfl⟩ := Option.map_eq_some_iff.1 found
    exact ⟨header, (entry listed).1, (entry listed).2⟩
  · intro n p k v first second found
    obtain ⟨parent, lower, rfl⟩ := Option.map_eq_some_iff.1 first
    obtain ⟨header, upper, rfl⟩ := Option.map_eq_some_iff.1 second
    obtain rfl := Option.some.inj ((entry upper).1.symm.trans found)
    obtain ⟨bound, here⟩ := List.getElem?_eq_some_iff.1 upper
    obtain ⟨_, there⟩ := List.getElem?_eq_some_iff.1 lower
    rw [← here, ← there]
    exact linked.getElem n bound
  · show ((genesis :: chain)[(chain.getLastD genesis).number]?).map Header.hash = _
    rw [lastNumber, last]
    rfl

end OfTables

end Store

end Ethrex.Chain
