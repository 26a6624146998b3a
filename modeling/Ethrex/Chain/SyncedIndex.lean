import Ethrex.Chain.FullSync

/-!
# The canonical index under a full sync

A batch that stands on a canonical block with its state hands over only blocks whose parent has its
state, and leaves the index a chain.
-/

namespace Ethrex.Chain

open Lineage List

def Stacked (parent : Header) (blocks : List Header) : Prop :=
  (parent :: blocks).IsChain fun p b => b.parentHash = p.hash ∧ b.number = p.number + 1

variable {blocks : List Header} {i : Nat} {b : Header}

theorem Stacked.number {parent : Header} (stacked : Stacked parent blocks)
    (found : blocks[i]? = some b) : b.number = parent.number + 1 + i := by
  induction blocks generalizing parent i with
  | nil => cases found
  | cons first rest ih =>
    obtain ⟨here, stacked'⟩ := isChain_cons_cons.1 stacked
    cases i with
    | zero =>
      obtain rfl : first = b := by simpa using found
      exact here.2
    | succ i =>
      have := ih stacked' (i := i) (by simpa using found)
      omega

theorem Stacked.last {parent last : Header} (stacked : Stacked parent blocks)
    (isLast : blocks.getLast? = some last) :
    0 < blocks.length ∧ last.number = parent.number + blocks.length := by
  have nonempty := length_pos_of_mem (mem_of_getLast? isLast)
  rw [getLast?_eq_getElem?] at isLast
  have := stacked.number isLast
  exact ⟨nonempty, by omega⟩

theorem Stacked.parent {parent p : Header} (stacked : Stacked parent blocks)
    (lower : (parent :: blocks)[i]? = some p) (upper : blocks[i]? = some b) :
    b.parentHash = p.hash := by
  rw [← getElem?_cons_succ (a := parent)] at upper
  obtain ⟨bound, rfl⟩ := List.getElem?_eq_some_iff.1 upper
  obtain ⟨_, rfl⟩ := List.getElem?_eq_some_iff.1 lower
  exact (stacked.getElem i bound).1

namespace Store

/-- The second store has the blocks of the first and the same canonical chain. -/
structure Grows (s t : Store) : Prop where
  headers : ∀ {h x}, s.headers h = some x → t.headers h = some x
  index : t.canonicalBlockHashes = s.canonicalBlockHashes
  head : t.latestBlockHeader = s.latestBlockHeader
  latest : t.latestBlockNumber = s.latestBlockNumber
  earliest : t.earliestBlockNumber = s.earliestBlockNumber

theorem Grows.refl (s : Store) : s.Grows s := ⟨fun found => found, rfl, rfl, rfl, rfl⟩

variable {s t : Store} {hash : H256}

theorem Grows.trans {u : Store} (first : s.Grows t) (second : t.Grows u) : s.Grows u :=
  ⟨fun found => second.headers (first.headers found), second.index.trans first.index,
    second.head.trans first.head, second.latest.trans first.latest,
    second.earliest.trans first.earliest⟩

theorem Canonical.grows (canonical : s.Canonical) (grows : s.Grows t) : t.Canonical := by
  obtain ⟨low, lowest, chain⟩ := canonical.earliest
  refine ⟨⟨low, grows.earliest.trans lowest, ?_⟩, ?_, ?_, ?_⟩
  · rw [grows.index, grows.head]
    exact chain.mono rfl rfl grows.headers
  · rw [grows.latest, grows.head, canonical.latest]
  · rw [grows.head]
    exact grows.headers canonical.stored
  · rw [grows.index, grows.head, canonical.head]

theorem Canonical.isCanonicalSync (canonical : s.Canonical) {header : Header}
    (found : s.headers hash = some header) :
    s.isCanonicalSync hash = true ↔ s.canonicalBlockHashes header.number = some hash := by
  rw [Store.isCanonicalSync, found, canonical.isCanonical]

theorem Canonical.hasBlockAndState (canonical : s.Canonical) :
    s.hasBlockAndState hash = true ↔
      ∃ header, s.headers hash = some header ∧ s.hasStateRoot header.stateRoot = true := by
  rw [Store.hasBlockAndState, canonical.getBlockHeaderByHash]
  split
  · next header found => simp [found]
  · next missing => simp [missing]

section Update

variable {s next : Store} {parent last : Header} {blocks : List Header}

theorem putAll_of_stacked (index : Nat → Option H256) (stacked : Stacked parent blocks) :
    (∀ n ≤ parent.number, putAll index (blocks.map fun b => (b.number, b.hash)) n = index n) ∧
      ∀ i, putAll index (blocks.map fun b => (b.number, b.hash)) (parent.number + 1 + i) =
        ((blocks.map Header.hash)[i]?).or (index (parent.number + 1 + i)) := by
  have listed : ∀ {n k}, (n, k) ∈ blocks.map (fun b => (b.number, b.hash)) →
      ∃ i b, blocks[i]? = some b ∧ n = parent.number + 1 + i ∧ k = b.hash := by
    intro n k mem
    obtain ⟨b, member, same⟩ := mem_map.1 mem
    obtain ⟨i, found⟩ := mem_iff_getElem?.1 member
    cases same
    exact ⟨i, b, found, stacked.number found, rfl⟩
  refine ⟨fun n le => putAll_of_notMem fun k mem => ?_, fun i => ?_⟩
  · obtain ⟨i, -, -, same, -⟩ := listed mem
    omega
  rw [getElem?_map]
  cases found : blocks[i]? with
  | none =>
    refine putAll_of_notMem fun k mem => ?_
    obtain ⟨j, b, found', same, -⟩ := listed mem
    obtain rfl : i = j := by omega
    rw [found] at found'
    cases found'
  | some b =>
    refine putAll_of_mem (fun mem => ?_) ?_
    · obtain ⟨j, b', found', same, rfl⟩ := listed mem
      obtain rfl : i = j := by omega
      rw [Option.some.inj (found.symm.trans found')]
    · exact mem_map.2 ⟨b, mem_of_getElem? found, by rw [stacked.number found]⟩

theorem Canonical.update {s next : Store} (canonical : s.Canonical)
    (stacked : Stacked parent blocks) (isLast : blocks.getLast? = some last)
    (stored : ∀ b ∈ blocks, s.headers b.hash = some b)
    (accepted : s.forkchoiceUpdate (blocks.map fun b => (b.number, b.hash)) last.number last.hash
      none none = (.ok (), next)) :
    next.headers = s.headers ∧ next.latestBlockHeader = last ∧
      next.latestBlockNumber = some last.number ∧
      next.earliestBlockNumber = s.earliestBlockNumber ∧ next.hasStateRoot = s.hasStateRoot ∧
      (∀ n ≤ parent.number, next.canonicalBlockHashes n = s.canonicalBlockHashes n) ∧
      ∀ i, next.canonicalBlockHashes (parent.number + 1 + i) = (blocks.map Header.hash)[i]? := by
  obtain ⟨header, found, headers, cached, latest, earliest, -, -, states, index⟩ :=
    forkchoiceUpdate_ok accepted
  rw [canonical.getBlockHeaderByHash, stored last (mem_of_getLast? isLast)] at found
  obtain rfl := Option.some.inj found
  obtain ⟨nonempty, top⟩ := stacked.last isLast
  obtain ⟨old, written⟩ := putAll_of_stacked s.canonicalBlockHashes stacked
  refine ⟨headers, cached, latest, earliest, states, fun n le => ?_, fun i => ?_⟩
  · rw [index, if_neg (by omega), if_neg (by omega), old n le]
  rw [index]
  split
  · next same =>
    rw [getElem?_map]
    rw [getLast?_eq_getElem?] at isLast
    rw [show i = blocks.length - 1 by omega, isLast]
    rfl
  · next other =>
    split
    · next above => exact (getElem?_eq_none (by rw [length_map]; omega)).symm
    next inside =>
    rw [written]
    cases entry : (blocks.map Header.hash)[i]? with
    | some hash => rfl
    | none =>
      -- Above the last block the old index ended already.
      have past : blocks.length ≤ i := by simpa using entry
      obtain ⟨low, -, chain⟩ := canonical.earliest
      rw [canonical.latest, Option.getD_some] at inside
      refine Option.not_isSome_iff_eq_none.1 fun some' => ?_
      have := (chain.range _).1 some'
      omega

/-- An update with executed blocks on top of a canonical block keeps the index a chain. -/
theorem Canonical.update_anchored (canonical : s.Canonical) (stacked : Stacked parent blocks)
    (isLast : blocks.getLast? = some last) (stored : ∀ b ∈ blocks, s.headers b.hash = some b)
    (accepted : s.forkchoiceUpdate (blocks.map fun b => (b.number, b.hash)) last.number last.hash
      none none = (.ok (), next))
    (anchored : s.canonicalBlockHashes parent.number = some parent.hash) : next.Canonical := by
  obtain ⟨headers, head, latest, earliest, -, below, above⟩ :=
    canonical.update stacked isLast stored accepted
  have forest : next.forest = s.forest := by rw [Store.forest, headers]; rfl
  obtain ⟨nonempty, top⟩ := stacked.last isLast
  obtain ⟨low, lowest, chain⟩ := canonical.earliest
  refine ⟨⟨low, earliest.trans lowest, ?_⟩, by rw [latest, head], ?_, ?_⟩
  · rw [forest, head, top, ← length_map (f := Header.hash)]
    refine chain.extend anchored (fun {i p k v} lower upper found => ?_) (fun {i k} entry => ?_)
      below above
    · rw [← map_cons, getElem?_map] at lower
      rw [getElem?_map] at upper
      obtain ⟨p, hp, rfl⟩ := Option.map_eq_some_iff.1 lower
      obtain ⟨b, hb, rfl⟩ := Option.map_eq_some_iff.1 upper
      obtain rfl := Option.some.inj ((stored b (mem_of_getElem? hb)).symm.trans found)
      exact stacked.parent hp hb
    · rw [getElem?_map] at entry
      obtain ⟨b, hb, rfl⟩ := Option.map_eq_some_iff.1 entry
      exact ⟨b, stored b (mem_of_getElem? hb), stacked.number hb⟩
  · rw [head, headers]
    exact stored last (mem_of_getLast? isLast)
  rw [head, top, show parent.number + blocks.length =
    parent.number + 1 + (blocks.length - 1) by omega, above, getElem?_map,
    ← getLast?_eq_getElem?, isLast]
  rfl

end Update

/-- A store whose index is a chain and in which a hash stands for one header. -/
structure Sound (preimage : H256 → Header) (s : Store) : Prop where
  canonical : s.Canonical
  genuine : ∀ {h x}, s.headers h = some x → x.hash = h ∧ preimage h = x

theorem Sound.storeBlock {preimage : H256 → Header} {block : Header} (sound : s.Sound preimage)
    (ex : Execution) (named : preimage block.hash = block) :
    s.Grows (s.storeBlock ex block) ∧ (s.storeBlock ex block).Sound preimage := by
  have grows : s.Grows (s.storeBlock ex block) := by
    refine ⟨fun {h x} found => ?_, rfl, rfl, rfl, rfl⟩
    rw [storeBlock_headers]
    split
    · next same =>
      subst same
      rw [← named, (sound.genuine found).2]
    · exact found
  refine ⟨grows, sound.canonical.grows grows, fun {h x} found => ?_⟩
  rw [storeBlock_headers] at found
  split at found
  · next same =>
    obtain rfl := Option.some.inj found
    exact ⟨same.symm, same ▸ named⟩
  · exact sound.genuine found

end Store

def SyncEvent.Sound : SyncEvent → Prop
  | .handed s block => s.hasBlockAndState block.parentHash = true
  | .updated s => s.Canonical

section Batch

variable {preimage : H256 → Header} {ex : Execution} {n : Node} {first : Header}
  {blocks rest : List Header} {lastValid : H256}

/-- Execution stores nothing but the blocks that it is handed. -/
theorem addBlocks_headers {h : H256} {x : Header}
    (found : (addBlocks ex lastValid n blocks).node.store.headers h = some x) :
    n.store.headers h = some x ∨ x ∈ blocks := by
  induction blocks generalizing n lastValid with
  | nil => exact Or.inl found
  | cons block blocks ih =>
    rw [addBlocks] at found
    split at found
    · next next added =>
      obtain ⟨-, -, -, -, -, rfl⟩ := (addBlockPipeline_added added).ok
      rcases ih found with before | mem
      · rw [Node.storeBlock_store, Store.storeBlock_headers] at before
        split at before
        · exact Or.inr (Option.some.inj before ▸ mem_cons_self ..)
        · exact Or.inl before
      · exact Or.inr (mem_cons_of_mem _ mem)
    · next e next refused =>
      change next.store.headers h = some x at found
      rw [(addBlockPipeline_added refused).error.1] at found
      exact Or.inl found

theorem addBlocks_grows (ex : Execution) (lastValid : H256) (sound : n.store.Sound preimage)
    (named : ∀ b ∈ blocks, preimage b.hash = b) :
    n.store.Grows (addBlocks ex lastValid n blocks).node.store ∧
      (addBlocks ex lastValid n blocks).node.store.Sound preimage := by
  induction blocks generalizing n lastValid with
  | nil => exact ⟨.refl _, sound⟩
  | cons block blocks ih =>
    rw [addBlocks]
    split
    · next next added =>
      obtain ⟨-, -, -, -, -, rfl⟩ := (addBlockPipeline_added added).ok
      obtain ⟨grows, sound'⟩ := sound.storeBlock ex (named block (mem_cons_self ..))
      obtain ⟨grows', sound''⟩ := ih (n := n.storeBlock ex block) block.hash sound'
        fun b mem => named b (mem_cons_of_mem _ mem)
      exact ⟨grows.trans grows', sound''⟩
    · next e next refused =>
      show n.store.Grows next.store ∧ next.store.Sound preimage
      rw [(addBlockPipeline_added refused).error.1]
      exact ⟨.refl _, sound⟩

/-- Executed blocks stand on a stored parent with its state, are stored, and leave the state of the
last. -/
theorem addBlocks_ok (sound : n.store.Sound preimage)
    (named : ∀ b ∈ first :: rest, preimage b.hash = b)
    (linked : (first :: rest).IsChain fun p b => b.parentHash = p.hash)
    (executed : (addBlocks ex lastValid n (first :: rest)).result = .ok ()) :
    ∃ parent, n.store.headers first.parentHash = some parent ∧
      n.store.hasStateRoot parent.stateRoot = true ∧ Stacked parent (first :: rest) ∧
      (∀ b ∈ first :: rest,
        (addBlocks ex lastValid n (first :: rest)).node.store.headers b.hash = some b) ∧
      ∀ last, (first :: rest).getLast? = some last →
        (addBlocks ex lastValid n (first :: rest)).node.store.hasStateRoot last.stateRoot = true := by
  induction rest generalizing first n lastValid with
  | nil =>
    rw [addBlocks] at executed ⊢
    split at executed
    · next next added =>
      obtain ⟨parent, found, state, number, -, rfl⟩ := (addBlockPipeline_added added).ok
      rw [sound.canonical.getBlockHeaderByHash] at found
      have named' := sound.genuine found
      refine ⟨parent, found, state, ?_, ?_, ?_⟩
      · exact .cons_cons ⟨named'.1.symm, number⟩ (.singleton _)
      · intro b mem
        obtain rfl := mem_singleton.1 mem
        exact (Store.storeBlock_headers ..).trans (if_pos rfl)
      · rintro last isLast
        obtain rfl : first = last := by simpa using isLast
        exact ex.retain_own ..
    · cases executed
  | cons second rest ih =>
    rw [addBlocks] at executed ⊢
    split at executed
    · next next added =>
      obtain ⟨parent, found, state, number, -, rfl⟩ := (addBlockPipeline_added added).ok
      rw [sound.canonical.getBlockHeaderByHash] at found
      have named' := sound.genuine found
      obtain ⟨-, sound'⟩ := sound.storeBlock ex (named first (mem_cons_self ..))
      have tail : ∀ b ∈ second :: rest, preimage b.hash = b :=
        fun b mem => named b (mem_cons_of_mem _ mem)
      obtain ⟨follows, linked'⟩ := isChain_cons_cons.1 linked
      obtain ⟨parent', found', -, stacked, stored, last⟩ :=
        ih (n := n.storeBlock ex first) sound' tail linked' executed
      -- The parent of the second block is the first.
      rw [follows, Node.storeBlock_store, Store.storeBlock_headers, if_pos rfl] at found'
      obtain rfl := Option.some.inj found'
      refine ⟨parent, found, state, .cons_cons ⟨named'.1.symm, number⟩ stacked, ?_, ?_⟩
      · intro b mem
        rcases mem_cons.1 mem with rfl | mem
        · exact (addBlocks_grows ex _ (n := n.storeBlock ex b) sound' tail).1.headers
            ((Store.storeBlock_headers ..).trans (if_pos rfl))
        · exact stored b mem
      · intro b isLast
        exact last b (by simpa using isLast)
    · cases executed

/-- If the first block of a linked list finds its parent's state, so does every later one that is
handed over. -/
theorem addBlocks_handed (sound : n.store.Sound preimage)
    (named : ∀ b ∈ blocks, preimage b.hash = b)
    (linked : blocks.IsChain fun p b => b.parentHash = p.hash)
    (starts : ∀ first ∈ blocks.head?, n.store.hasBlockAndState first.parentHash = true) :
    ∀ e ∈ (addBlocks ex lastValid n blocks).events, e.Sound := by
  induction blocks generalizing n lastValid with
  | nil => simp [addBlocks, Attempt.done]
  | cons first rest ih =>
    have here : SyncEvent.Sound (.handed n.store first) := starts first rfl
    rw [addBlocks]
    split
    · next next added =>
      obtain ⟨-, -, -, -, -, rfl⟩ := (addBlockPipeline_added added).ok
      obtain ⟨-, sound'⟩ := sound.storeBlock ex (named first (mem_cons_self ..))
      have rest' := @ih (n.storeBlock ex first) first.hash sound' (fun b mem => named b (mem_cons_of_mem _ mem))
        linked.tail fun second mem => by
          have follows := isChain_cons.1 linked |>.1 second mem
          rw [follows, Node.storeBlock_store, sound'.canonical.hasBlockAndState]
          exact ⟨first, (Store.storeBlock_headers ..).trans (if_pos rfl), ex.retain_own ..⟩
      intro e mem
      rcases mem_cons.1 mem with rfl | mem
      · exact here
      · exact rest' e mem
    · intro e mem
      rw [mem_singleton.1 mem]
      exact here

/-- A list of blocks to run on top of a canonical block with its state. -/
def Store.Anchors (s : Store) (blocks : List Header) : Prop :=
  ∀ first ∈ blocks.head?, s.isCanonicalSync first.parentHash = true ∧
    s.hasBlockAndState first.parentHash = true

/-- What an executed batch leaves: an index that is a chain and ends in the last block, which has its
state, and no blocks beside the batch. -/
structure Extended (preimage : H256 → Header) (blocks : List Header) (s s' : Store) : Prop where
  sound : s'.Sound preimage
  canonical : ∀ last ∈ blocks.getLast?, s'.isCanonicalSync last.hash = true
  state : ∀ last ∈ blocks.getLast?, s'.hasBlockAndState last.hash = true
  headers : ∀ {h x}, s'.headers h = some x → s.headers h = some x ∨ x ∈ blocks

variable (ex) in
/-- A batch on top of a canonical block with its state keeps to what is asked of every event. -/
theorem addBlocksInBatch_sound (sound : n.store.Sound preimage)
    (named : ∀ b ∈ blocks, preimage b.hash = b)
    (linked : blocks.IsChain fun p b => b.parentHash = p.hash)
    (anchors : n.store.Anchors blocks) :
    (∀ e ∈ (addBlocksInBatch ex n blocks).events, e.Sound) ∧
      ((addBlocksInBatch ex n blocks).result = .ok () →
        Extended preimage blocks n.store (addBlocksInBatch ex n blocks).node.store) := by
  cases blocks with
  | nil => exact ⟨by simp [addBlocksInBatch, Attempt.failed], fun ok => by cases ok⟩
  | cons first rest =>
    obtain ⟨last, isLast⟩ : ∃ last, (first :: rest).getLast? = some last :=
      Option.isSome_iff_exists.1 (by simp)
    obtain ⟨grows, sound'⟩ := addBlocks_grows ex zeroHash sound named
    have handed : ∀ e ∈ (addBlocks ex zeroHash n (first :: rest)).events, e.Sound :=
      addBlocks_handed sound named linked fun b isFirst => (anchors b isFirst).2
    cases executed : (addBlocks ex zeroHash n (first :: rest)).result with
    | error failure => simpa only [addBlocksInBatch, isLast, executed, reduceCtorEq, false_implies,
        and_true] using handed
    | ok done =>
      obtain ⟨parent, found, -, stacked, stored, reached⟩ :=
        addBlocks_ok sound named linked executed
      have lastStored := stored last (mem_of_getLast? isLast)
      obtain ⟨updated, accepted⟩ : ∃ updated,
          (addBlocks ex zeroHash n (first :: rest)).node.store.forkchoiceUpdate
            ((first :: rest).map fun b => (b.number, b.hash)) last.number last.hash none none =
              (.ok (), updated) := by
        rw [Store.forkchoiceUpdate, sound'.canonical.getBlockHeaderByHash, lastStored]
        exact ⟨_, rfl⟩
      obtain ⟨headers, head, -, -, states, -, -⟩ :=
        sound'.canonical.update stacked isLast stored accepted
      have canonical : updated.Canonical := by
        refine sound'.canonical.update_anchored stacked isLast stored accepted ?_
        rw [grows.index, (sound.genuine found).1]
        exact (sound.canonical.isCanonicalSync found).1 (anchors first rfl).1
      simp only [addBlocksInBatch, isLast, executed, accepted]
      refine ⟨fun e mem => ?_, fun _ => ⟨⟨canonical, fun found' => sound'.genuine (headers ▸ found')⟩,
        ?_, ?_, fun found' => addBlocks_headers (headers ▸ found')⟩⟩
      · rcases mem_append.1 mem with mem | mem
        · exact handed e mem
        · rw [mem_singleton.1 mem]
          exact canonical
      · intro last' isLast'
        obtain rfl := Option.some.inj (isLast.symm.trans isLast')
        refine (canonical.isCanonicalSync (headers ▸ lastStored)).2 ?_
        rw [← head]
        exact canonical.head
      · intro last' isLast'
        obtain rfl := Option.some.inj (isLast.symm.trans isLast')
        exact canonical.hasBlockAndState.2 ⟨last, headers ▸ lastStored, states ▸ reached last isLast⟩

end Batch

end Ethrex.Chain
