import Ethrex.Storage.LayerChain

/-!
# What a commit of diff layers changes for readers

The layers above a commit stay only if their numbers are higher: a root flushed and put again is
numbered above the layers built on it, and its commit drops them.
-/

namespace Ethrex.Storage

open TrieLayerCache List

variable {layers layers' : AList fun _ : H256 => TrieLayer} {cache : TrieLayerCache}
  {root c r x : H256} {layer top : TrieLayer} {links links' upper : List (H256 × TrieLayer)}
  {falsePositive : BloomFilter → Bytes → Bool}

/-! ### The chain of a root -/

def chainFrom (layers : AList fun _ : H256 => TrieLayer) : Nat → H256 → List (H256 × TrieLayer)
  | 0, _ => []
  | fuel + 1, root =>
    match layers.lookup root with
    | none => []
    | some layer => (root, layer) :: chainFrom layers fuel layer.parent

def TrieLayerCache.chain (cache : TrieLayerCache) (root : H256) : List (H256 × TrieLayer) :=
  chainFrom cache.layers cache.layers.keys.length root

variable {fuel : Nat}

theorem FullPath.chainFrom_eq (path : FullPath layers root links) (hfuel : links.length ≤ fuel) :
    chainFrom layers fuel root = links := by
  obtain ⟨bottom, path, hbottom⟩ := path
  induction path generalizing fuel with
  | nil root =>
    cases fuel with
    | zero => rfl
    | succ fuel => rw [chainFrom, hbottom]
  | cons found path ih =>
    rw [length_cons] at hfuel
    obtain ⟨fuel, rfl⟩ := Nat.exists_eq_add_of_le' (Nat.le_of_add_left_le hfuel)
    rw [chainFrom, found]
    show _ :: chainFrom layers fuel _ = _
    rw [ih (by omega) hbottom]

theorem FullPath.unique (path : FullPath layers root links) (path' : FullPath layers root links') :
    links = links' :=
  (path.chainFrom_eq (Nat.le_max_left links.length links'.length)).symm.trans
    (path'.chainFrom_eq (Nat.le_max_right links.length links'.length))

theorem chain_spec (acyclic : Acyclic cache.layers) (root : H256) :
    FullPath cache.layers root (cache.chain root) ∧
      (cache.chain root).length ≤ cache.layers.keys.length := by
  obtain ⟨links, path, hlength⟩ := acyclic.exists_fullPath root
  rw [TrieLayerCache.chain, path.chainFrom_eq hlength]
  exact ⟨path, hlength⟩

theorem views_append (upper lower : List (H256 × TrieLayer)) :
    views (upper ++ lower) = views upper ++ views lower :=
  map_append

def Covered (cache : TrieLayerCache) : Prop :=
  ∀ root layer key value, cache.layers.lookup root = some layer →
    layer.view key = some value → key ∈ cache.bloom.inserted

theorem mem_of_lookup_foldl_insert {keyValues : List (Mpt.Nibbles × Bytes)} {key value : Bytes}
    {nodes : AList fun _ : Bytes => Bytes}
    (h : (keyValues.foldl (fun nodes kv => nodes.insert kv.1.data kv.2) nodes).lookup key =
      some value) : key ∈ keyValues.map (·.1.data) ∨ nodes.lookup key = some value := by
  induction keyValues generalizing nodes with
  | nil => exact Or.inr h
  | cons kv keyValues ih =>
    rw [map_cons]
    rcases ih h with hmem | hlookup
    · exact Or.inl (mem_cons_of_mem _ hmem)
    by_cases hkey : key = kv.1.data
    · exact Or.inl (mem_cons.2 (Or.inl hkey))
    · rw [AList.lookup_insert_ne hkey] at hlookup
      exact Or.inr hlookup

theorem Covered.putBatch (hcovered : Covered cache) (parent stateRoot : H256) (blockNumber : Nat)
    (blockHash : H256) (keyValues : List (Mpt.Nibbles × Bytes)) :
    Covered (cache.putBatch parent stateRoot blockNumber blockHash keyValues) := by
  rw [TrieLayerCache.putBatch]
  split_ifs
  · exact hcovered
  · exact hcovered
  · exact hcovered
  intro root layer key value hlookup hview
  apply mem_append.2
  by_cases hroot : root = stateRoot
  · subst hroot
    rw [AList.lookup_insert] at hlookup
    cases hlookup
    rcases mem_of_lookup_foldl_insert hview with hmem | hempty
    · exact Or.inr hmem
    · rw [AList.lookup_empty] at hempty
      cases hempty
  · rw [AList.lookup_insert_ne hroot] at hlookup
    exact Or.inl (hcovered root layer key value hlookup hview)

theorem covered_rebuildBloom (cache : TrieLayerCache) : Covered cache.rebuildBloom := by
  intro root layer key value hlookup hview
  have hentry : ⟨root, layer⟩ ∈ cache.layers.entries := AList.mem_lookup_iff.1 hlookup
  have hkey : key ∈ layer.nodes.keys := by
    rw [← AList.mem_keys, ← AList.lookup_isSome, ← TrieLayer.view, hview]
    rfl
  apply mem_append.2
  exact Or.inr (mem_flatMap.2 ⟨_, hentry, hkey⟩)

theorem takeChain_of_nil (h : (takeChain fuel layers root).1 = []) :
    (takeChain fuel layers root).2 = layers := by
  cases fuel with
  | zero => rfl
  | succ fuel =>
    rw [takeChain] at h ⊢
    cases hlookup : layers.lookup root with
    | none => rfl
    | some layer =>
      rw [hlookup] at h
      cases h

theorem Covered.commit (hcovered : Covered cache) (stateRoot : H256) :
    Covered (cache.commit stateRoot).2 := by
  rw [TrieLayerCache.commit]
  split
  case h_1 hnone =>
    rw [takeChain_of_nil hnone]
    exact hcovered
  case h_2 => exact covered_rebuildBloom _

theorem Reachable.covered (hreachable : Reachable cache) : Covered cache := by
  induction hreachable with
  | new =>
    intro root layer key value hlookup
    rw [TrieLayerCache.new, AList.lookup_empty] at hlookup
    cases hlookup
  | putBatch parent stateRoot blockNumber blockHash keyValues _ ih =>
    exact ih.putBatch parent stateRoot blockNumber blockHash keyValues
  | commit stateRoot _ ih => exact ih.commit stateRoot

theorem find_eq_none (hcovered : Covered cache) (path : FullPath cache.layers root links)
    {key : Bytes} (hkey : key ∉ cache.bloom.inserted) : Cascade.find (views links) key = none := by
  obtain ⟨bottom, path, -⟩ := path
  rw [Cascade.find, findSome?_eq_none_iff]
  intro view hview
  obtain ⟨⟨x, layer⟩, hmem, rfl⟩ := mem_map.1 hview
  cases h : layer.view key with
  | none => rfl
  | some value =>
    exact absurd (hcovered x layer key value (path.lookup_of_mem hmem) h) hkey

theorem wrapperGet_eq (falsePositive : BloomFilter → Bytes → Bool) (hcovered : Covered cache)
    (acyclic : Acyclic cache.layers) (disk : Disk) (root : H256) (account : Option H256)
    (key : Mpt.Nibbles) :
    wrapperGet falsePositive cache disk root account key =
      .ok (Cascade.read (views (cache.chain root)) disk (applyPrefix account key).data) := by
  obtain ⟨path, hlength⟩ := chain_spec acyclic root
  have hget : cache.get falsePositive root (applyPrefix account key).data =
      .ok (Cascade.find (views (cache.chain root)) (applyPrefix account key).data) := by
    rw [TrieLayerCache.get]
    split_ifs with hbloom
    · rw [find_eq_none hcovered path]
      intro hmem
      have hcontains : cache.bloom.inserted.contains (applyPrefix account key).data = true :=
        contains_iff_mem.2 hmem
      rw [BloomFilter.contains, hcontains] at hbloom
      cases hbloom
    · exact walk_eq acyclic (.nil root) path (by omega)
  rw [wrapperGet, hget, Cascade.read]
  cases Cascade.find (views (cache.chain root)) (applyPrefix account key).data <;> rfl

theorem chain_cons (acyclic : Acyclic cache.layers) (found : cache.layers.lookup c = some top) :
    ∃ rest, cache.chain c = (c, top) :: rest := by
  obtain ⟨bottom, path, hbottom⟩ := (chain_spec acyclic c).1
  generalize cache.chain c = links at path
  cases path with
  | nil =>
    rw [found] at hbottom
    cases hbottom
  | @cons _ _ layer rest found' _ =>
    obtain rfl := Option.some.inj (found'.symm.trans found)
    exact ⟨rest, rfl⟩

theorem commit_eq (acyclic : Acyclic cache.layers) (found : cache.layers.lookup c = some top) :
    (cache.commit c).1 = some (((cache.chain c).map (·.2)).reverse.map committedLayer) ∧
      ∀ x, (cache.commit c).2.layers.lookup x =
        if x ∈ (cache.chain c).map (·.1) then none
        else (cache.layers.lookup x).filter fun item => top.id < item.id := by
  obtain ⟨path, hlength⟩ := chain_spec acyclic c
  obtain ⟨htaken, hrest⟩ := takeChain_eq acyclic path hlength
  obtain ⟨rest, hchain⟩ := chain_cons acyclic found
  rw [hchain, map_cons] at htaken
  rw [TrieLayerCache.commit, htaken, hchain]
  refine ⟨rfl, fun x => ?_⟩
  show (retain _ _).lookup x = _
  rw [lookup_retain, hrest x, hchain]
  split_ifs <;> rfl

theorem lookup_of_lookup_commit (acyclic : Acyclic cache.layers)
    (h : (cache.commit c).2.layers.lookup x = some layer) : cache.layers.lookup x = some layer := by
  cases found : cache.layers.lookup c with
  | none =>
    rw [TrieLayerCache.commit, takeChain_of_none found] at h
    exact h
  | some top =>
    rw [(commit_eq acyclic found).2] at h
    split_ifs at h
    exact (Option.filter_eq_some_iff.1 h).1

theorem acyclic_commit (acyclic : Acyclic cache.layers) (c : H256) :
    Acyclic (cache.commit c).2.layers :=
  fun root links path => acyclic root links (path.mono fun _ _ hmem =>
    lookup_of_lookup_commit acyclic (path.lookup_of_mem hmem))

/-- The layers of the chain of `r` above `c`. -/
def TrieLayerCache.above (cache : TrieLayerCache) (c r : H256) : List (H256 × TrieLayer) :=
  (cache.chain r).takeWhile fun e => e.1 ≠ c

def TrieLayerCache.OnChain (cache : TrieLayerCache) (c r : H256) : Prop :=
  c ∈ (cache.chain r).map (·.1)

theorem chain_eq_above (acyclic : Acyclic cache.layers) (hon : cache.OnChain c r) :
    Path cache.layers r (cache.above c r) c ∧ cache.chain r = cache.above c r ++ cache.chain c := by
  obtain ⟨⟨c', layer⟩, hmem, heq⟩ := mem_map.1 hon
  obtain rfl : c' = c := heq
  obtain ⟨bottom, path, hbottom⟩ := (chain_spec acyclic r).1
  obtain ⟨upper, lower, hsplit, hupper, hlower⟩ := path.split hmem
  have hchain := FullPath.unique ⟨bottom, hlower, hbottom⟩ (chain_spec acyclic c').1
  have hnotMem (e) (he : e ∈ upper) : decide (e.1 ≠ c') = true := by
    obtain ⟨x, layer'⟩ := e
    refine decide_eq_true fun hx : x = c' => ?_
    subst hx
    obtain ⟨above, below, hsame, -, hbelow⟩ := hupper.split he
    cases acyclic _ _ hbelow
  have habove : cache.above c' r = upper := by
    rw [TrieLayerCache.above, hsplit, takeWhile_append_of_pos hnotMem,
      takeWhile_cons_of_neg (by simp), append_nil]
  rw [habove]
  exact ⟨hupper, hsplit.trans (congrArg (upper ++ ·) hchain)⟩

/-- After the commit a chain ends where the numbers are no longer above the committed one. -/
theorem Path.commit (acyclic : Acyclic cache.layers) (found : cache.layers.lookup c = some top)
    (path : Path cache.layers r upper c) :
    FullPath (cache.commit c).2.layers r (upper.takeWhile fun e => top.id < e.2.id) := by
  obtain ⟨-, hlookup⟩ := commit_eq acyclic found
  obtain ⟨bottom, chain, -⟩ := (chain_spec acyclic c).1
  induction path with
  | nil =>
    refine ⟨_, .nil _, ?_⟩
    obtain ⟨rest, hchain⟩ := chain_cons acyclic found
    rw [hlookup, hchain, map_cons, if_pos mem_cons_self]
  | @cons root c layer rest found' path ih =>
    have hnotMem : root ∉ (cache.chain c).map (·.1) := by
      intro hmem
      obtain ⟨⟨root', layer'⟩, hentry, heq⟩ := mem_map.1 hmem
      obtain rfl : root' = root := heq
      obtain ⟨between, -, -, hbetween, -⟩ := chain.split hentry
      exact append_ne_nil_of_right_ne_nil _ (cons_ne_nil _ _)
        (acyclic _ _ (hbetween.append (.cons found' path)))
    have hroot := hlookup root
    rw [if_neg hnotMem, found'] at hroot
    by_cases hid : top.id < layer.id
    · rw [takeWhile_cons_of_pos (by simpa using hid)]
      obtain ⟨end', kept, hend⟩ := ih found hlookup chain
      rw [Option.filter_some_pos (by simpa using hid)] at hroot
      exact ⟨end', .cons hroot kept, hend⟩
    · rw [takeWhile_cons_of_neg (by simpa using hid)]
      rw [Option.filter_some_neg (by simpa using hid)] at hroot
      exact ⟨root, .nil root, hroot⟩

theorem writeLayer_nodes {nodes : List (Σ _ : Bytes, Bytes)} (hnodup : nodes.NodupKeys)
    (disk : Disk) (key : Bytes) :
    (nodes.map fun e => (e.1, e.2)).foldl
      (fun disk kv => Function.update disk kv.1 (if kv.2.isEmpty then none else some kv.2)) disk
      key = Cascade.write List.isEmpty disk (fun key => nodes.dlookup key) key := by
  induction nodes generalizing disk with
  | nil => rfl
  | cons e nodes ih =>
    obtain ⟨hnotMem, hnodup⟩ := nodupKeys_cons.1 hnodup
    rw [map_cons, foldl_cons, ih hnodup, Cascade.write, Cascade.write]
    by_cases hkey : key = e.1
    · subst hkey
      rw [dlookup_eq_none.2 hnotMem, dlookup_cons_eq]
      exact Function.update_self _ _ _
    rw [dlookup_cons_ne _ _ hkey]
    cases nodes.dlookup key with
    | some value => rfl
    | none => exact Function.update_of_ne hkey _ _

theorem writeLayer_committedLayer (disk : Disk) (layer : TrieLayer) :
    disk.writeLayer (committedLayer layer) = Cascade.write List.isEmpty disk layer.view :=
  funext fun key => writeLayer_nodes layer.nodes.nodupKeys disk key

theorem writeLayers_chain (disk : Disk) (links : List (H256 × TrieLayer)) :
    disk.writeLayers ((links.map (·.2)).reverse.map committedLayer) =
      Cascade.flush List.isEmpty disk (views links) := by
  rw [Disk.writeLayers, Cascade.flush, views, foldr_map, foldl_map, foldl_reverse,
    foldr_map]
  exact congrArg (fun f => links.foldr f disk)
    (funext fun e => funext fun disk => writeLayer_committedLayer disk e.2)

/-- What readers see at `r` is the same before the commit of `c` and after, an empty value being no
value. -/
def CommitInvisible (falsePositive : BloomFilter → Bytes → Bool) (cache : TrieLayerCache)
    (c r : H256) : Prop :=
  ∃ committed, (cache.commit c).1 = some committed ∧
    ∀ (disk : Disk) (account : Option H256) (key : Mpt.Nibbles), ∃ before after,
      wrapperGet falsePositive cache disk r account key = .ok before ∧
      wrapperGet falsePositive (cache.commit c).2 (disk.writeLayers committed) r account key =
        .ok after ∧
      Cascade.seen List.isEmpty before = Cascade.seen List.isEmpty after

/-- The layers above `c` that its commit drops hold nothing of their own: each value is overwritten
in a layer that stays, or is that of the committed chain. -/
def NothingLost (cache : TrieLayerCache) (c r : H256) : Prop :=
  ∀ top, cache.layers.lookup c = some top → ∀ key value,
    Cascade.find (views ((cache.above c r).takeWhile fun e => top.id < e.2.id)) key = none →
    Cascade.find (views ((cache.above c r).dropWhile fun e => top.id < e.2.id)) key = some value →
    ∃ below, Cascade.find (views (cache.chain c)) key = some below ∧
      Cascade.seen List.isEmpty (some below) = Cascade.seen List.isEmpty (some value)

/-! ### Caches that are filled from below -/

/-- The numbers of the layers grow along the links. -/
structure Ordered (cache : TrieLayerCache) : Prop where
  bound : ∀ root layer, cache.layers.lookup root = some layer →
    0 < layer.id ∧ layer.id ≤ cache.lastId
  link : ∀ root layer below, cache.layers.lookup root = some layer →
    cache.layers.lookup layer.parent = some below → below.id < layer.id

/-- The caches that are never given a root on which a cached layer was already built. -/
inductive ReachableFromBelow : TrieLayerCache → Prop
  | new : ReachableFromBelow .new
  | putBatch {cache : TrieLayerCache} (parent stateRoot : H256) (blockNumber : Nat)
      (blockHash : H256) (keyValues : List (Mpt.Nibbles × Bytes)) :
      (∀ root layer, cache.layers.lookup root = some layer → layer.parent ≠ stateRoot) →
      ReachableFromBelow cache →
      ReachableFromBelow (cache.putBatch parent stateRoot blockNumber blockHash keyValues)
  | commit {cache : TrieLayerCache} (stateRoot : H256) : ReachableFromBelow cache →
      ReachableFromBelow (cache.commit stateRoot).2

namespace Ordered

theorem acyclic (hordered : Ordered cache) : Acyclic cache.layers := by
  refine acyclic_of_rank (fun x => ((cache.layers.lookup x).map TrieLayer.id).getD 0) ?_
  intro root layer found
  show ((cache.layers.lookup layer.parent).map TrieLayer.id).getD 0 <
    ((cache.layers.lookup root).map TrieLayer.id).getD 0
  rw [found]
  cases hparent : cache.layers.lookup layer.parent with
  | none => exact (hordered.bound root layer found).1
  | some below => exact hordered.link root layer below found hparent

theorem putBatch (hordered : Ordered cache) (parent stateRoot : H256) (blockNumber : Nat)
    (blockHash : H256) (keyValues : List (Mpt.Nibbles × Bytes))
    (hfresh : ∀ root layer, cache.layers.lookup root = some layer → layer.parent ≠ stateRoot) :
    Ordered (cache.putBatch parent stateRoot blockNumber blockHash keyValues) := by
  rw [TrieLayerCache.putBatch]
  split_ifs with _ hparent
  · exact hordered
  · exact hordered
  · exact hordered
  constructor
  · intro root layer found
    show 0 < layer.id ∧ layer.id ≤ cache.lastId + 1
    by_cases hroot : root = stateRoot
    · subst hroot
      rw [AList.lookup_insert] at found
      cases found
      exact ⟨Nat.succ_pos _, Nat.le_refl _⟩
    · rw [AList.lookup_insert_ne hroot] at found
      have := hordered.bound root layer found
      omega
  · intro root layer below found hbelow
    by_cases hroot : root = stateRoot
    · subst hroot
      rw [AList.lookup_insert] at found
      cases found
      rw [AList.lookup_insert_ne hparent] at hbelow
      exact Nat.lt_succ_of_le (hordered.bound parent below hbelow).2
    · rw [AList.lookup_insert_ne hroot] at found
      rw [AList.lookup_insert_ne (hfresh root layer found)] at hbelow
      exact hordered.link root layer below found hbelow

theorem commit (hordered : Ordered cache) (c : H256) : Ordered (cache.commit c).2 := by
  have hlastId : (cache.commit c).2.lastId = cache.lastId := by
    rw [TrieLayerCache.commit]
    split <;> rfl
  constructor
  · intro root layer found
    rw [hlastId]
    exact hordered.bound root layer (lookup_of_lookup_commit hordered.acyclic found)
  · intro root layer below found hbelow
    exact hordered.link root layer below (lookup_of_lookup_commit hordered.acyclic found)
      (lookup_of_lookup_commit hordered.acyclic hbelow)

theorem above (hordered : Ordered cache) (found : cache.layers.lookup c = some top)
    (path : Path cache.layers r upper c) : ∀ e ∈ upper, top.id < e.2.id := by
  induction path with
  | nil => exact fun e he => absurd he not_mem_nil
  | @cons root c layer rest found' path ih =>
    have hlayer : top.id < layer.id := by
      cases path with
      | nil => exact hordered.link root layer top found' found
      | @cons _ _ layer' _ found'' _ =>
        exact Nat.lt_trans (ih found _ mem_cons_self)
          (hordered.link root layer layer' found' found'')
    intro e he
    rcases mem_cons.1 he with rfl | he
    · exact hlayer
    · exact ih found e he

end Ordered

theorem ReachableFromBelow.ordered (hreachable : ReachableFromBelow cache) : Ordered cache := by
  induction hreachable with
  | new =>
    constructor
    · intro root layer found
      rw [TrieLayerCache.new, AList.lookup_empty] at found
      cases found
    · intro root layer below found
      rw [TrieLayerCache.new, AList.lookup_empty] at found
      cases found
  | putBatch parent stateRoot blockNumber blockHash keyValues hfresh _ ih =>
    exact ih.putBatch parent stateRoot blockNumber blockHash keyValues hfresh
  | commit stateRoot _ ih => exact ih.commit stateRoot

theorem ReachableFromBelow.nothingLost (hreachable : ReachableFromBelow cache)
    (hon : cache.OnChain c r) : Acyclic cache.layers ∧ NothingLost cache c r := by
  have hordered := hreachable.ordered
  refine ⟨hordered.acyclic, fun top found key value _ hlost => ?_⟩
  have habove := hordered.above found (chain_eq_above hordered.acyclic hon).1
  rw [dropWhile_eq_nil_iff.2 fun e he => decide_eq_true (habove e he)] at hlost
  cases hlost

theorem commitInvisible_iff_read (hcovered : Covered cache) (acyclic : Acyclic cache.layers)
    (found : cache.layers.lookup c = some top) :
    CommitInvisible falsePositive cache c r ↔ ∀ (disk : Disk) (key : Bytes),
      Cascade.seen List.isEmpty (Cascade.read (views (cache.chain r)) disk key) =
        Cascade.seen List.isEmpty (Cascade.read (views ((cache.commit c).2.chain r))
          (Cascade.flush List.isEmpty disk (views (cache.chain c))) key) := by
  obtain ⟨hcommitted, -⟩ := commit_eq acyclic found
  have hbefore := wrapperGet_eq falsePositive hcovered acyclic
  have hafter := wrapperGet_eq falsePositive (hcovered.commit c) (acyclic_commit acyclic c)
  constructor
  · rintro ⟨committed, heq, h⟩ disk key
    obtain rfl := Option.some.inj (hcommitted.symm.trans heq)
    obtain ⟨before, after, hb, ha, hseen⟩ := h disk none (.fromHex key)
    rw [hbefore] at hb
    rw [hafter, writeLayers_chain] at ha
    cases hb
    cases ha
    exact hseen
  · intro h
    refine ⟨_, hcommitted, fun disk account key => ⟨_, _, hbefore disk r account key,
      hafter _ r account key, ?_⟩⟩
    rw [writeLayers_chain]
    exact h disk _

theorem commitInvisible_iff (hreachable : Reachable cache) (acyclic : Acyclic cache.layers)
    (hlayer : c ∈ cache.layers) (hon : cache.OnChain c r) :
    CommitInvisible falsePositive cache c r ↔ NothingLost cache c r := by
  obtain ⟨top, found⟩ := Option.isSome_iff_exists.1 (AList.lookup_isSome.2 hlayer)
  obtain ⟨hpath, hchain⟩ := chain_eq_above acyclic hon
  have hchain' := (chain_spec (acyclic_commit acyclic c) r).1.unique
    (hpath.commit acyclic found)
  have hsplit : views (cache.chain r) =
      views ((cache.above c r).takeWhile fun e => top.id < e.2.id) ++
        (views ((cache.above c r).dropWhile fun e => top.id < e.2.id) ++
          views (cache.chain c)) := by
    rw [hchain, ← append_assoc, ← views_append, takeWhile_append_dropWhile,
      views_append]
  have hlost : NothingLost cache c r ↔ _ :=
    ⟨fun h => h top found, fun h top' found' => by
      obtain rfl := Option.some.inj (found.symm.trans found')
      exact h⟩
  rw [commitInvisible_iff_read hreachable.covered acyclic found, hchain', hsplit, hlost]
  exact Cascade.seen_read_lost_iff (x := [0]) rfl

/-- Two layers, put in the order of their links. -/
def twoLayers : TrieLayerCache :=
  (TrieLayerCache.new.putBatch (.ofNat 1) (.ofNat 2) 1 (.ofNat 11) [(.fromHex [1], [1])]).putBatch
    (.ofNat 2) (.ofNat 3) 2 (.ofNat 12) [(.fromHex [2], [2])]

theorem commitInvisible_twoLayers :
    CommitInvisible (fun _ _ => false) twoLayers (.ofNat 2) (.ofNat 3) := by
  have hbelow : ReachableFromBelow twoLayers := by
    refine .putBatch _ _ _ _ _ ?_ (.putBatch _ _ _ _ _ ?_ .new)
    · have hlayers : ∀ e ∈ (TrieLayerCache.new.putBatch (.ofNat 1) (.ofNat 2) 1 (.ofNat 11)
          [(.fromHex [1], [1])]).layers.entries, e.2.parent ≠ .ofNat 3 := by
        decide +kernel
      exact fun root layer found => hlayers _ (AList.mem_lookup_iff.1 found)
    · intro root layer found
      cases found
  have hon : H256.ofNat 2 ∈ (twoLayers.chain (.ofNat 3)).map (·.1) := by decide +kernel
  obtain ⟨acyclic, hlost⟩ := hbelow.nothingLost hon
  exact (commitInvisible_iff (.putBatch _ _ _ _ _ (.putBatch _ _ _ _ _ .new)) acyclic
    (by decide +kernel) hon).2 hlost

/-- Two layers on the parent `q`: `p` was put, flushed and put again, after `r` was put on it. -/
def flushedAgain (q p r : H256) : TrieLayerCache :=
  let first := TrieLayerCache.new.putBatch q p 1 (.ofNat 11) [(.fromHex [1], [1])]
  let second := (first.commit p).2.putBatch p r 2 (.ofNat 12) [(.fromHex [2], [2])]
  second.putBatch q p 1 (.ofNat 11) [(.fromHex [1], [1])]

theorem commit_drops_descendant :
    Reachable (flushedAgain (.ofNat 1) (.ofNat 2) (.ofNat 3)) ∧
    Acyclic (flushedAgain (.ofNat 1) (.ofNat 2) (.ofNat 3)).layers ∧
    .ofNat 2 ∈ (flushedAgain (.ofNat 1) (.ofNat 2) (.ofNat 3)).layers ∧
    (flushedAgain (.ofNat 1) (.ofNat 2) (.ofNat 3)).OnChain (.ofNat 2) (.ofNat 3) ∧
    ¬ CommitInvisible (fun _ _ => false) (flushedAgain (.ofNat 1) (.ofNat 2) (.ofNat 3))
      (.ofNat 2) (.ofNat 3) := by
  refine ⟨?_, ?_, by decide +kernel, ?_, ?_⟩
  · exact .putBatch _ _ _ _ _ (.putBatch _ _ _ _ _ (.commit _ (.putBatch _ _ _ _ _ .new)))
  · refine acyclic_of_rank (fun x => if x = .ofNat 3 then 2 else if x = .ofNat 2 then 1 else 0) ?_
    intro root layer found
    have hlayers : ∀ e ∈ (flushedAgain (.ofNat 1) (.ofNat 2) (.ofNat 3)).layers.entries,
        (if e.2.parent = .ofNat 3 then 2 else if e.2.parent = .ofNat 2 then 1 else 0) <
          (if e.1 = .ofNat 3 then 2 else if e.1 = .ofNat 2 then 1 else 0) := by
      decide +kernel
    exact hlayers _ (AList.mem_lookup_iff.1 found)
  · show H256.ofNat 2 ∈ ((flushedAgain (.ofNat 1) (.ofNat 2) (.ofNat 3)).chain (.ofNat 3)).map _
    decide +kernel
  rintro ⟨committed, hcommitted, h⟩
  obtain ⟨before, after, hbefore, hafter, hseen⟩ := h (fun _ => none) none (.fromHex [2])
  obtain rfl : committed = (((flushedAgain (.ofNat 1) (.ofNat 2) (.ofNat 3)).commit
      (.ofNat 2)).1).getD [] := by rw [hcommitted]; rfl
  have hread : wrapperGet (fun _ _ => false) (flushedAgain (.ofNat 1) (.ofNat 2) (.ofNat 3))
      (fun _ => none) (.ofNat 3) none (.fromHex [2]) = .ok (some [2]) := by
    decide +kernel
  have hreadAfter : wrapperGet (fun _ _ => false)
      ((flushedAgain (.ofNat 1) (.ofNat 2) (.ofNat 3)).commit (.ofNat 2)).2
      (Disk.writeLayers (fun _ => none) ((((flushedAgain (.ofNat 1) (.ofNat 2)
        (.ofNat 3)).commit (.ofNat 2)).1).getD [])) (.ofNat 3) none (.fromHex [2]) =
        .ok none := by
    decide +kernel
  obtain rfl := Except.ok.inj (hread.symm.trans hbefore)
  obtain rfl := Except.ok.inj (hreadAfter.symm.trans hafter)
  cases hseen

end Ethrex.Storage
