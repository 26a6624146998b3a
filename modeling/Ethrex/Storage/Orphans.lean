import Ethrex.Storage.LayerCommit

/-!
# Layers of other forks

A commit drops the layers numbered below the committed one. A layer of another fork that was put
later stays, and a read at its root sees its own values over the state of the other fork.
-/

namespace Ethrex.Storage

open TrieLayerCache

variable {layers : AList fun _ : H256 => TrieLayer} {cache : TrieLayerCache}
  {root c r x y : H256} {layer top : TrieLayer} {links : List (H256 × TrieLayer)}

/-- `x` is on the parent chain of `r`. -/
def Below (layers : AList fun _ : H256 => TrieLayer) (x r : H256) : Prop :=
  ∃ links, Path layers r links x

theorem Below.refl (layers : AList fun _ : H256 => TrieLayer) (x : H256) : Below layers x x :=
  ⟨[], .nil x⟩

theorem Below.cons (found : layers.lookup root = some layer) (h : Below layers x layer.parent) :
    Below layers x root := by
  obtain ⟨links, path⟩ := h
  exact ⟨_, .cons found path⟩

theorem below_of_lookup_eq_none (hroot : layers.lookup root = none) (h : Below layers x root) :
    x = root := by
  obtain ⟨links, path⟩ := h
  cases path with
  | nil => rfl
  | cons found _ =>
    rw [hroot] at found
    cases found

/-! ### Commits with and without cycles -/

theorem Path.avoid (found : layers.lookup root = some layer) (hx : x ≠ root)
    (path : Path layers y links x) :
    Below (layers.erase root) x y ∨ Below (layers.erase root) x layer.parent := by
  induction path with
  | nil => exact .inl (.refl _ _)
  | @cons y x layer' rest found' path ih =>
    by_cases hy : y = root
    · subst hy
      obtain rfl := Option.some.inj (found.symm.trans found')
      rcases ih hx with h | h
      · exact .inr h
      · exact .inr h
    · rcases ih hx with h | h
      · exact .inl (.cons (by rwa [AList.lookup_erase_ne hy]) h)
      · exact .inr h

theorem below_iff_erase (found : layers.lookup root = some layer) (hx : x ≠ root) :
    Below layers x root ↔ Below (layers.erase root) x layer.parent := by
  constructor
  · rintro ⟨links, path⟩
    rcases path.avoid found hx with h | h
    · exact absurd (below_of_lookup_eq_none (AList.lookup_erase root layers) h) hx
    · exact h
  · rintro ⟨links, path⟩
    exact .cons found ⟨links, path.of_erase⟩

theorem lookup_takeChain (fuel : Nat) (layers : AList fun _ : H256 => TrieLayer)
    (hfuel : layers.keys.length ≤ fuel) (root x : H256) :
    (Below layers x root → (takeChain fuel layers root).2.lookup x = none) ∧
      (¬ Below layers x root →
        (takeChain fuel layers root).2.lookup x = layers.lookup x) := by
  induction fuel generalizing layers root with
  | zero =>
    refine ⟨fun _ => ?_, fun _ => rfl⟩
    rw [AList.lookup_eq_none, AList.mem_keys]
    intro hmem
    have := List.length_pos_of_mem hmem
    have hkeys : (takeChain 0 layers root).2.keys.length ≤ 0 := hfuel
    omega
  | succ fuel ih =>
    cases found : layers.lookup root with
    | none =>
      rw [takeChain_of_none found]
      refine ⟨fun h => ?_, fun _ => rfl⟩
      rw [below_of_lookup_eq_none found h]
      exact found
    | some layer =>
      have hlength := length_keys_erase found
      obtain ⟨hbelow, hother⟩ := ih (layers.erase root) (by omega) layer.parent
      have hstep : (takeChain (fuel + 1) layers root).2 =
          (takeChain fuel (layers.erase root) layer.parent).2 := by
        rw [takeChain, found]
      rw [hstep]
      by_cases hx : x = root
      · subst hx
        refine ⟨fun _ => ?_, fun h => absurd (.refl _ _) h⟩
        by_cases h : Below (layers.erase x) x layer.parent
        · exact hbelow h
        · rw [hother h, AList.lookup_erase]
      · rw [below_iff_erase found hx]
        refine ⟨hbelow, fun h => ?_⟩
        rw [hother h, AList.lookup_erase_ne hx]

theorem lookup_commit_eq_some_iff (found : cache.layers.lookup c = some top) :
    (cache.commit c).2.layers.lookup r = some layer ↔
      cache.layers.lookup r = some layer ∧ top.id < layer.id ∧ ¬ Below cache.layers r c := by
  have hlength := length_keys_erase found
  obtain ⟨fuel, hfuel⟩ : ∃ fuel, cache.layers.keys.length = fuel + 1 := ⟨_, hlength.symm⟩
  obtain ⟨hbelow, hother⟩ := lookup_takeChain _ cache.layers le_rfl c r
  have htaken : (takeChain cache.layers.keys.length cache.layers c).1 =
      top :: (takeChain fuel (cache.layers.erase c) top.parent).1 := by
    rw [hfuel, takeChain, found]
  have hlayers : (cache.commit c).2.layers = retain (fun item => top.id < item.id)
      (takeChain cache.layers.keys.length cache.layers c).2 := by
    rw [TrieLayerCache.commit, htaken]
    rfl
  rw [hlayers, lookup_retain, Option.filter_eq_some_iff]
  by_cases h : Below cache.layers r c
  · rw [hbelow h]
    simp [h]
  · rw [hother h]
    simp [h]

/-- Every layer that stays when `c` is committed leads down to `c`, over layers that stay. -/
def Rooted (cache : TrieLayerCache) (c : H256) : Prop :=
  ∀ r ∈ (cache.commit c).2.layers, Below (cache.commit c).2.layers c r

/-- Every layer put after `c` is on the parent chain of `c`, or leads down to `c` over such layers
off that chain. -/
def ForkFree (cache : TrieLayerCache) (c : H256) : Prop :=
  ∀ top, cache.layers.lookup c = some top →
    ∀ r layer, cache.layers.lookup r = some layer → top.id < layer.id →
      Below cache.layers r c ∨ ∃ links, Path cache.layers r links c ∧
        ∀ e ∈ links, top.id < e.2.id ∧ ¬ Below cache.layers e.1 c

/-- No layer of another fork survives a commit if and only if none was put after the committed
layer. -/
theorem rooted_iff (hlayer : c ∈ cache.layers) : Rooted cache c ↔ ForkFree cache c := by
  obtain ⟨top, found⟩ := Option.isSome_iff_exists.1 (AList.lookup_isSome.2 hlayer)
  constructor
  · intro hrooted top' found' r layer hr hid
    obtain rfl := Option.some.inj (found.symm.trans found')
    by_cases hbelow : Below cache.layers r c
    · exact .inl hbelow
    have hstays := (lookup_commit_eq_some_iff found).2 ⟨hr, hid, hbelow⟩
    obtain ⟨links, path⟩ := hrooted r (AList.lookup_isSome.1 (by rw [hstays]; rfl))
    refine .inr ⟨links, path.mono fun x layer hmem => ?_, fun e he => ?_⟩
    · exact ((lookup_commit_eq_some_iff found).1 (path.lookup_of_mem hmem)).1
    · exact ((lookup_commit_eq_some_iff found).1 (path.lookup_of_mem he)).2
  · intro hfree r hmem
    obtain ⟨layer, hstays⟩ := Option.isSome_iff_exists.1 (AList.lookup_isSome.2 hmem)
    obtain ⟨hr, hid, hnot⟩ := (lookup_commit_eq_some_iff found).1 hstays
    rcases hfree top found r layer hr hid with hbelow | ⟨links, path, hlinks⟩
    · exact absurd hbelow hnot
    · refine ⟨links, path.mono fun x layer hmem => ?_⟩
      exact (lookup_commit_eq_some_iff found).2 ⟨path.lookup_of_mem hmem, hlinks _ hmem⟩

/-- The caches that executing and committing blocks make, with the root on disk. A block is executed
on a root in the cache or on disk, and a commit is one that is allowed. -/
inductive ExecutedWith (allowed : TrieLayerCache → H256 → Prop) : TrieLayerCache → H256 → Prop
  | new (diskRoot : H256) : ExecutedWith allowed .new diskRoot
  | putBatch {cache : TrieLayerCache} {diskRoot : H256} (parent stateRoot : H256)
      (blockNumber : Nat) (blockHash : H256) (keyValues : List (Mpt.Nibbles × Bytes)) :
      parent ∈ cache.layers ∨ parent = diskRoot → ExecutedWith allowed cache diskRoot →
      ExecutedWith allowed (cache.putBatch parent stateRoot blockNumber blockHash keyValues) diskRoot
  | commit {cache : TrieLayerCache} {diskRoot : H256} (c : H256) : c ∈ cache.layers →
      allowed cache c → ExecutedWith allowed cache diskRoot → ExecutedWith allowed (cache.commit c).2 c

abbrev Executed : TrieLayerCache → H256 → Prop := ExecutedWith fun _ _ => True

/-- In a run whose commits are all free of forks, every layer leads down to the root on disk. -/
theorem ExecutedWith.rooted {diskRoot : H256} (h : ExecutedWith ForkFree cache diskRoot) :
    ∀ r ∈ cache.layers, Below cache.layers diskRoot r := by
  induction h with
  | new => exact fun r hmem => absurd hmem (AList.notMem_empty r)
  | @putBatch cache diskRoot parent stateRoot blockNumber blockHash keyValues hparent _ ih =>
    rw [TrieLayerCache.putBatch]
    split_ifs with _ _ hfresh
    · exact ih
    · exact ih
    · exact ih
    -- the paths of the other layers do not meet the new one
    have hkeep : ∀ r, Below cache.layers diskRoot r → ∀ layer,
        Below (cache.layers.insert stateRoot layer) diskRoot r := by
      rintro r ⟨links, path⟩ layer
      refine ⟨links, path.mono fun x layer' hmem => ?_⟩
      have hlookup := path.lookup_of_mem hmem
      rwa [AList.lookup_insert_ne]
      rintro rfl
      exact hfresh (AList.lookup_isSome.1 (by rw [hlookup]; rfl))
    intro r hmem
    rcases AList.mem_insert _ |>.1 hmem with rfl | hmem
    · refine .cons (AList.lookup_insert _) (hkeep _ ?_ _)
      rcases hparent with hmem | rfl
      · exact ih _ hmem
      · exact .refl _ _
    · exact hkeep r (ih r hmem) _
  | commit c hlayer hfree _ _ => exact (rooted_iff hlayer).2 hfree

theorem rooted_twoLayers : Rooted twoLayers (.ofNat 2) := by
  refine (rooted_iff (by decide +kernel)).2 fun top found r layer hr hid => ?_
  have hlayers : ∀ e ∈ twoLayers.layers.entries,
      e.1 = .ofNat 2 ∨ e.1 = .ofNat 3 ∧ e.2.parent = .ofNat 2 := by
    decide +kernel
  have hparent : ∀ e ∈ twoLayers.layers.entries, e.1 = .ofNat 2 → e.2.parent = .ofNat 1 := by
    decide +kernel
  have hbottom : twoLayers.layers.lookup (.ofNat 1) = none :=
    AList.lookup_eq_none.2 (by decide +kernel)
  rcases hlayers _ (AList.mem_lookup_iff.1 hr) with hroot | ⟨hroot, hlink⟩
  · obtain rfl : r = .ofNat 2 := hroot
    exact .inl (.refl _ _)
  obtain rfl : r = .ofNat 3 := hroot
  refine .inr ⟨[(.ofNat 3, layer)], .cons hr ?_, fun e he => ?_⟩
  · rw [show layer.parent = .ofNat 2 from hlink]
    exact .nil _
  obtain rfl := List.mem_singleton.1 he
  refine ⟨hid, ?_⟩
  rintro ⟨links, path⟩
  cases path with
  | cons found' rest =>
    rw [hparent _ (AList.mem_lookup_iff.1 found') rfl] at rest
    have : H256.ofNat 3 = .ofNat 1 := below_of_lookup_eq_none hbottom ⟨_, rest⟩
    revert this
    decide +kernel

/-- Two blocks on the same parent, each with a value of its own. -/
def forked : TrieLayerCache :=
  (TrieLayerCache.new.putBatch (.ofNat 1) (.ofNat 2) 1 (.ofNat 11) [(.fromHex [1], [1])]).putBatch
    (.ofNat 1) (.ofNat 3) 1 (.ofNat 12) [(.fromHex [2], [2])]

/-- The second block stays when the first is committed; a read at its root finds the value of the
first block beside its own. -/
theorem later_fork_survives :
    Executed forked (.ofNat 1) ∧ .ofNat 2 ∈ forked.layers ∧
    .ofNat 3 ∈ (forked.commit (.ofNat 2)).2.layers ∧ ¬ Below forked.layers (.ofNat 2) (.ofNat 3) ∧
    ¬ Rooted forked (.ofNat 2) ∧
    wrapperGet (fun _ _ => false) forked (fun _ => none) (.ofNat 3) none (.fromHex [1]) =
      .ok none ∧
    wrapperGet (fun _ _ => false) (forked.commit (.ofNat 2)).2
      (Disk.writeLayers (fun _ => none) (((forked.commit (.ofNat 2)).1).getD [])) (.ofNat 3) none
      (.fromHex [1]) = .ok (some [1]) ∧
    wrapperGet (fun _ _ => false) (forked.commit (.ofNat 2)).2
      (Disk.writeLayers (fun _ => none) (((forked.commit (.ofNat 2)).1).getD [])) (.ofNat 3) none
      (.fromHex [2]) = .ok (some [2]) := by
  have hnot (layers : AList fun _ : H256 => TrieLayer)
      (hparent : ∀ e ∈ layers.entries, e.2.parent = .ofNat 1)
      (hbottom : .ofNat 1 ∉ layers) : ¬ Below layers (.ofNat 2) (.ofNat 3) := by
    rintro ⟨links, path⟩
    cases path with
    | cons found rest =>
      rw [hparent _ (AList.mem_lookup_iff.1 found)] at rest
      have := below_of_lookup_eq_none (AList.lookup_eq_none.2 hbottom) ⟨_, rest⟩
      revert this
      decide +kernel
  have hstays : .ofNat 3 ∈ (forked.commit (.ofNat 2)).2.layers := by decide +kernel
  refine ⟨?_, by decide +kernel, hstays, ?_, ?_, by decide +kernel, by decide +kernel,
    by decide +kernel⟩
  · exact .putBatch _ _ _ _ _ (.inr rfl) (.putBatch _ _ _ _ _ (.inr rfl) (.new _))
  · exact hnot _ (by decide +kernel) (by decide +kernel)
  · exact fun hrooted => hnot _ (by decide +kernel) (by decide +kernel) (hrooted _ hstays)

end Ethrex.Storage
