import Ethrex.Storage.Layers

/-!
# Chains of diff layers

In a cache without cycles every chain of parent links is finite, a read finds the newest value of
its chain, and a commit takes out one chain.
-/

namespace Ethrex.Storage

open TrieLayerCache List

variable {layers layers' : AList fun _ : H256 => TrieLayer} {root top bottom x : H256}
  {layer : TrieLayer} {chain upper lower : List (H256 × TrieLayer)}

/-- The layers from the first root down to the last, which is left out. -/
inductive Path (layers : AList fun _ : H256 => TrieLayer) :
    H256 → List (H256 × TrieLayer) → H256 → Prop
  | nil (root : H256) : Path layers root [] root
  | cons {root bottom : H256} {layer : TrieLayer} {rest : List (H256 × TrieLayer)} :
      layers.lookup root = some layer → Path layers layer.parent rest bottom →
      Path layers root ((root, layer) :: rest) bottom

def Acyclic (layers : AList fun _ : H256 => TrieLayer) : Prop :=
  ∀ root chain, Path layers root chain root → chain = []

def FullPath (layers : AList fun _ : H256 => TrieLayer) (root : H256)
    (chain : List (H256 × TrieLayer)) : Prop :=
  ∃ bottom, Path layers root chain bottom ∧ layers.lookup bottom = none

theorem acyclic_of_rank (rank : H256 → Nat)
    (hrank : ∀ root layer, layers.lookup root = some layer → rank layer.parent < rank root) :
    Acyclic layers := by
  have hle {root bottom chain} (h : Path layers root chain bottom) :
      rank bottom + chain.length ≤ rank root := by
    induction h with
    | nil => simp
    | @cons root bottom layer rest found _ ih =>
      have := hrank root layer found
      rw [length_cons]
      omega
  intro root chain h
  have := hle h
  exact eq_nil_of_length_eq_zero (by omega)

namespace Path

theorem append (first : Path layers root upper x) (second : Path layers x lower bottom) :
    Path layers root (upper ++ lower) bottom := by
  induction first with
  | nil => exact second
  | cons found _ ih => exact .cons found (ih second)

theorem split (path : Path layers root chain bottom) (hmem : (x, layer) ∈ chain) :
    ∃ upper lower, chain = upper ++ (x, layer) :: lower ∧ Path layers root upper x ∧
      Path layers x ((x, layer) :: lower) bottom := by
  induction path with
  | nil => cases hmem
  | @cons root bottom layer' rest found path ih =>
    rcases mem_cons.1 hmem with heq | hmem
    · cases heq
      exact ⟨[], rest, rfl, .nil _, .cons found path⟩
    · obtain ⟨upper, lower, rfl, hupper, hlower⟩ := ih hmem
      exact ⟨(root, layer') :: upper, lower, rfl, .cons found hupper, hlower⟩

theorem lookup_of_mem (path : Path layers root chain bottom) (hmem : (x, layer) ∈ chain) :
    layers.lookup x = some layer := by
  obtain ⟨_, _, _, _, hlower⟩ := path.split hmem
  cases hlower with
  | cons found _ => exact found

theorem head_notMem (acyclic : Acyclic layers)
    (path : Path layers root ((root, layer) :: chain) bottom) : root ∉ chain.map (·.1) := by
  intro hmem
  obtain ⟨⟨root', layer'⟩, hentry, heq⟩ := mem_map.1 hmem
  obtain rfl : root' = root := heq
  cases path with
  | cons found path =>
    obtain ⟨upper, _, _, hupper, _⟩ := path.split hentry
    cases acyclic _ _ (.cons found hupper)

theorem mono (hsub : ∀ x layer, (x, layer) ∈ chain → layers'.lookup x = some layer)
    (path : Path layers root chain bottom) : Path layers' root chain bottom := by
  induction path with
  | nil => exact .nil _
  | @cons root bottom layer rest found path ih =>
    refine .cons (hsub root layer mem_cons_self) (ih ?_)
    intro x layer hmem
    exact hsub x layer (mem_cons_of_mem _ hmem)

theorem erase_head (acyclic : Acyclic layers)
    (path : Path layers root ((root, layer) :: chain) bottom) :
    Path (layers.erase root) layer.parent chain bottom := by
  have hnotMem := path.head_notMem acyclic
  cases path with
  | cons found path =>
    refine path.mono fun x layer' hmem => ?_
    have hne : x ≠ root := by
      rintro rfl
      exact hnotMem (mem_map.2 ⟨_, hmem, rfl⟩)
    rw [AList.lookup_erase_ne hne]
    exact path.lookup_of_mem hmem

end Path

theorem lookup_of_lookup_erase (h : (layers.erase root).lookup x = some layer) :
    x ≠ root ∧ layers.lookup x = some layer := by
  have hne : x ≠ root := by
    rintro rfl
    rw [AList.lookup_erase] at h
    cases h
  rw [AList.lookup_erase_ne hne] at h
  exact ⟨hne, h⟩

theorem Path.of_erase (path : Path (layers.erase root) x chain bottom) :
    Path layers x chain bottom :=
  path.mono fun _ _ hmem => (lookup_of_lookup_erase (path.lookup_of_mem hmem)).2

theorem Acyclic.erase (acyclic : Acyclic layers) (root : H256) : Acyclic (layers.erase root) :=
  fun x chain path => acyclic x chain path.of_erase

theorem length_keys_erase (found : layers.lookup root = some layer) :
    (layers.erase root).keys.length + 1 = layers.keys.length := by
  have hmem : root ∈ layers.keys := by
    rw [← AList.mem_keys, ← AList.lookup_isSome, found]
    rfl
  have hpos := length_pos_of_mem hmem
  rw [AList.keys_erase, length_erase_of_mem hmem]
  omega

theorem Acyclic.exists_fullPath (acyclic : Acyclic layers) (root : H256) :
    ∃ chain, FullPath layers root chain ∧ chain.length ≤ layers.keys.length := by
  -- on the number of layers: the rest of the chain lies in the cache without the first layer
  induction hn : layers.keys.length generalizing layers root with
  | zero =>
    refine ⟨[], ⟨root, .nil root, ?_⟩, Nat.le_refl 0⟩
    rw [AList.lookup_eq_none, AList.mem_keys, length_eq_zero_iff.1 hn]
    exact not_mem_nil
  | succ n ih =>
    cases found : layers.lookup root with
    | none => exact ⟨[], ⟨root, .nil root, found⟩, Nat.zero_le _⟩
    | some layer =>
      have hlength := length_keys_erase found
      obtain ⟨chain, ⟨bottom, path, hbottom⟩, hle⟩ :=
        ih (acyclic.erase root) layer.parent (by omega)
      have hpath := Path.cons found path.of_erase
      refine ⟨(root, layer) :: chain, ⟨bottom, hpath, ?_⟩, by rw [length_cons]; omega⟩
      have hne : bottom ≠ root := by
        rintro rfl
        cases acyclic _ _ hpath
      rwa [AList.lookup_erase_ne hne] at hbottom

def TrieLayer.view (layer : TrieLayer) (key : Bytes) : Option Bytes := layer.nodes.lookup key

def views (chain : List (H256 × TrieLayer)) : List (Bytes → Option Bytes) :=
  chain.map fun e => e.2.view

variable {fuel : Nat}

theorem walk_eq (acyclic : Acyclic layers) {stateRoot current : H256} {key : Bytes}
    (above : Path layers stateRoot upper current) (path : FullPath layers current chain)
    (hfuel : chain.length < fuel) :
    walk layers stateRoot key fuel current = .ok (Cascade.find (views chain) key) := by
  obtain ⟨bottom, path, hbottom⟩ := path
  induction path generalizing upper fuel with
  | nil root =>
    cases fuel with
    | zero => rfl
    | succ fuel =>
      rw [walk, hbottom]
      rfl
  | @cons root bottom layer rest found path ih =>
    obtain ⟨fuel, rfl⟩ := Nat.exists_eq_succ_of_ne_zero (Nat.ne_of_gt (Nat.zero_lt_of_lt hfuel))
    have habove : Path layers stateRoot (upper ++ [(root, layer)]) layer.parent :=
      above.append (.cons found (.nil _))
    rw [walk, found, views, map_cons, Cascade.find, findSome?_cons]
    have hview : layer.view key = layer.nodes.lookup key := rfl
    simp only [hview]
    cases layer.nodes.lookup key with
    | some value => rfl
    | none =>
      have hne : layer.parent ≠ stateRoot := by
        intro heq
        rw [heq] at habove
        exact append_ne_nil_of_right_ne_nil _ (cons_ne_nil _ _) (acyclic _ _ habove)
      show (if layer.parent = stateRoot then _ else _) = _
      rw [if_neg hne]
      rw [length_cons] at hfuel
      exact ih habove (by omega) hbottom

theorem takeChain_of_none (h : layers.lookup root = none) (fuel : Nat) :
    takeChain fuel layers root = ([], layers) := by
  cases fuel with
  | zero => rfl
  | succ fuel => rw [takeChain, h]

theorem takeChain_eq (acyclic : Acyclic layers) (path : FullPath layers root chain)
    (hfuel : chain.length ≤ fuel) :
    (takeChain fuel layers root).1 = chain.map (·.2) ∧
      ∀ x, (takeChain fuel layers root).2.lookup x =
        if x ∈ chain.map (·.1) then none else layers.lookup x := by
  obtain ⟨bottom, path, hbottom⟩ := path
  induction chain generalizing layers root fuel with
  | nil =>
    obtain rfl : root = bottom := by cases path; rfl
    rw [takeChain_of_none hbottom]
    exact ⟨rfl, fun x => rfl⟩
  | cons e rest ih =>
    obtain ⟨root', layer⟩ := e
    obtain rfl : root' = root := by cases path; rfl
    have herase := path.erase_head acyclic
    have hbottom' : (layers.erase root').lookup bottom = none := by
      rw [AList.lookup_eq_none] at hbottom ⊢
      exact fun hmem => hbottom (AList.mem_erase.1 hmem).2
    rw [length_cons] at hfuel
    obtain ⟨fuel, rfl⟩ := Nat.exists_eq_succ_of_ne_zero (n := fuel) (by omega)
    obtain ⟨htaken, hrest⟩ :=
      ih (acyclic.erase root') (Nat.le_of_succ_le_succ hfuel) herase hbottom'
    rw [takeChain, path.lookup_of_mem mem_cons_self]
    refine ⟨congrArg (layer :: ·) htaken, fun x => ?_⟩
    show (takeChain fuel (layers.erase root') layer.parent).2.lookup x = _
    rw [hrest x, map_cons]
    by_cases hx : x = root'
    · subst hx
      rw [AList.lookup_erase, ite_self, if_pos mem_cons_self]
    rw [AList.lookup_erase_ne hx]
    by_cases hmem : x ∈ rest.map (·.1)
    · rw [if_pos hmem, if_pos (mem_cons_of_mem _ hmem)]
    · rw [if_neg hmem, if_neg fun h => hmem ((mem_cons.1 h).resolve_left hx)]

end Ethrex.Storage
