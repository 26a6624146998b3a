import Mathlib

/-!
# Blocks and their ancestors

Blocks are found by key and name the key of their parent. An index maps heights to the blocks of
one branch; a path of blocks that ends in the index can replace the part above its end.
-/

namespace Lineage

open List
open Option (isSome_iff_exists some)

variable {K V : Type*}

structure Forest (K V : Type*) where
  find : K → Option V
  parent : V → K
  height : V → ℕ

namespace Forest

variable (F : Forest K V)

def Graded : Prop :=
  ∀ ⦃k v w⦄, F.find k = some v → F.find (F.parent v) = some w → F.height v = F.height w + 1

/-- The first block is the second or an ancestor of it. -/
inductive Ancestor : K → K → Prop
  | refl (k : K) : Ancestor k k
  | step {a b : K} {v : V} : F.find b = some v → Ancestor a (F.parent v) → Ancestor a b

variable {F} {a b c : K} {u v w : V}

theorem Ancestor.trans (first : F.Ancestor a b) (second : F.Ancestor b c) : F.Ancestor a c := by
  induction second with
  | refl => exact first
  | step found _ ih => exact .step found ih

theorem Ancestor.parent (found : F.find b = some v) : F.Ancestor (F.parent v) b :=
  .step found (.refl _)

theorem Ancestor.height_le (graded : F.Graded) (up : F.Ancestor a b) (hu : F.find a = some u)
    (hv : F.find b = some v) : F.height u ≤ F.height v ∧ (F.height u = F.height v → a = b) := by
  induction up generalizing v with
  | refl =>
    obtain rfl : u = v := some.inj (hu.symm.trans hv)
    exact ⟨le_rfl, fun _ => rfl⟩
  | @step b v' found up ih =>
    obtain rfl : v' = v := some.inj (found.symm.trans hv)
    obtain ⟨w, hw⟩ : ∃ w, F.find (F.parent v') = some w := by
      cases up with
      | refl => exact ⟨u, hu⟩
      | step found' _ => exact ⟨_, found'⟩
    have above := graded found hw
    have below := (ih hw).1
    exact ⟨by omega, fun same => by omega⟩

theorem Ancestor.total (left : F.Ancestor a c) (right : F.Ancestor b c) :
    F.Ancestor a b ∨ F.Ancestor b a := by
  induction left with
  | refl => exact Or.inr right
  | @step c v found up ih =>
    cases right with
    | refl => exact Or.inl (.step found up)
    | step found' right =>
      obtain rfl := some.inj (found.symm.trans found')
      exact ih right

theorem Ancestor.eq_of_height (graded : F.Graded) (left : F.Ancestor a c) (right : F.Ancestor b c)
    (hu : F.find a = some u) (hv : F.find b = some v) (same : F.height u = F.height v) : a = b := by
  rcases left.total right with up | up
  · exact (up.height_le graded hu hv).2 same
  · exact ((up.height_le graded hv hu).2 same.symm).symm

/-- The index holds one block for every height between the two, each the parent of the next. -/
structure Linked (F : Forest K V) (index : ℕ → Option K) (low high : ℕ) : Prop where
  range : ∀ n, (index n).isSome ↔ low ≤ n ∧ n ≤ high
  stored : ∀ {n k}, index n = some k → ∃ v, F.find k = some v ∧ F.height v = n
  linked : ∀ {n p k v}, index n = some p → index (n + 1) = some k → F.find k = some v →
    F.parent v = p

section Linked

variable {index : ℕ → Option K} {low high m n : ℕ}

theorem Linked.exists_of_le (chain : Linked F index low high) (lower : low ≤ n)
    (upper : n ≤ high) : ∃ k, index n = some k :=
  isSome_iff_exists.1 ((chain.range n).2 ⟨lower, upper⟩)

theorem Linked.bounds (chain : Linked F index low high) (found : index n = some a) :
    low ≤ n ∧ n ≤ high :=
  (chain.range n).1 (isSome_iff_exists.2 ⟨a, found⟩)

theorem Linked.ancestor (chain : Linked F index low high) (le : m ≤ n)
    (first : index m = some a) (second : index n = some b) : F.Ancestor a b := by
  induction n, le using Nat.le_induction generalizing b with
  | base =>
    obtain rfl := some.inj (first.symm.trans second)
    exact .refl _
  | succ n le ih =>
    have bounds := chain.bounds second
    obtain ⟨p, hp⟩ := chain.exists_of_le (n := n) ((chain.bounds first).1.trans le) (by omega)
    obtain ⟨v, found, -⟩ := chain.stored second
    exact .step found (chain.linked hp second found ▸ ih hp)

end Linked

/-- The blocks from the first key down to the last, which is left out, with their heights. -/
inductive Path (F : Forest K V) : K → List (ℕ × K) → K → Prop
  | nil (k : K) : Path F k [] k
  | cons {k link : K} {v : V} {rest : List (ℕ × K)} : F.find k = some v →
      Path F (F.parent v) rest link → Path F k ((F.height v, k) :: rest) link

section Path

variable {top link : K} {blocks : List (ℕ × K)}

theorem Path.ancestor (path : Path F top blocks link) : F.Ancestor link top := by
  induction path with
  | nil => exact .refl _
  | cons found _ ih => exact .step found ih

variable {n : ℕ}

theorem Path.mem_ancestor (path : Path F top blocks link) {k : K} (mem : (n, k) ∈ blocks) :
    F.Ancestor k top ∧ ∃ v, F.find k = some v ∧ F.height v = n := by
  induction path with
  | nil => cases mem
  | cons found _ ih =>
    rcases mem_cons.1 mem with same | later
    · cases same
      exact ⟨.refl _, _, found, rfl⟩
    · exact ⟨.step found (ih later).1, (ih later).2⟩

variable (graded : F.Graded) (path : Path F top blocks link)

include graded path

theorem Path.heights (hw : F.find link = some w) :
    ∃ v, F.find top = some v ∧ F.height v = F.height w + blocks.length ∧
      ∀ n, (∃ k, (n, k) ∈ blocks) ↔ F.height w < n ∧ n ≤ F.height v := by
  induction path with
  | nil =>
    refine ⟨w, hw, rfl, fun n => ⟨by simp, fun bounds => ?_⟩⟩
    omega
  | @cons k link v rest found _ ih =>
    obtain ⟨p, hp, height, covered⟩ := ih hw
    have above := graded found hp
    refine ⟨v, found, by simp only [length_cons]; omega, fun n => ?_⟩
    constructor
    · rintro ⟨k', mem⟩
      rcases mem_cons.1 mem with same | later
      · cases same
        omega
      · have := (covered n).1 ⟨k', later⟩
        omega
    · rintro ⟨lower, upper⟩
      by_cases top' : n = F.height v
      · exact ⟨k, by simp [top']⟩
      · obtain ⟨k', mem⟩ := (covered n).2 ⟨lower, by omega⟩
        exact ⟨k', mem_cons_of_mem _ mem⟩

theorem Path.unique (first : (n, a) ∈ blocks) (second : (n, b) ∈ blocks) : a = b := by
  obtain ⟨left, u, hu, height⟩ := path.mem_ancestor first
  obtain ⟨right, v, hv, height'⟩ := path.mem_ancestor second
  exact left.eq_of_height graded right hu hv (height.trans height'.symm)

theorem Path.parent_mem (hw : F.find link = some w) (mem : (n + 1, b) ∈ blocks)
    (found : F.find b = some v) :
    (n, F.parent v) ∈ blocks ∨ n = F.height w ∧ F.parent v = link := by
  induction path with
  | nil => cases mem
  | @cons k link v' rest found' path ih =>
    rcases mem_cons.1 mem with same | later
    · have heightEq : n + 1 = F.height v' := congrArg Prod.fst same
      obtain rfl : b = k := congrArg Prod.snd same
      obtain rfl := some.inj (found'.symm.trans found)
      cases path with
      | nil =>
        have := graded found hw
        exact Or.inr ⟨by omega, rfl⟩
      | @cons _ _ u _ found'' _ =>
        have := graded found found''
        obtain rfl : n = F.height u := by omega
        exact Or.inl (mem_cons_of_mem _ (mem_cons_self ..))
    · exact (ih hw later).imp_left (mem_cons_of_mem _)

omit graded path

theorem Path.lowest {b : ℕ × K} (path : Path F top (b :: blocks) link) :
    ∃ v, F.find (blocks.getLastD b).2 = some v ∧ F.height v = (blocks.getLastD b).1 ∧
      F.parent v = link ∧ F.Ancestor (blocks.getLastD b).2 top := by
  induction blocks generalizing b top with
  | nil =>
    cases path with
    | cons found rest =>
      cases rest
      exact ⟨_, found, rfl, rfl, .refl _⟩
  | cons next blocks ih =>
    cases path with
    | cons found rest =>
      obtain ⟨v, found', height, parent, up⟩ := ih rest
      rw [getLastD_cons]
      exact ⟨v, found', height, parent, .step found up⟩

end Path

variable {index next : ℕ → Option K} {low high : ℕ} {link : K}

theorem Linked.mono {F' : Forest K V} (chain : Linked F index low high)
    (parent : F'.parent = F.parent) (height : F'.height = F.height)
    (grows : ∀ {k v}, F.find k = some v → F'.find k = some v) : Linked F' index low high := by
  refine ⟨chain.range, fun {n k} entry => ?_, fun {n p k v} first second found => ?_⟩
  · obtain ⟨v, found, same⟩ := chain.stored entry
    exact ⟨v, grows found, height ▸ same⟩
  · obtain ⟨v', found', -⟩ := chain.stored second
    obtain rfl := some.inj (found.symm.trans (grows found'))
    exact parent ▸ chain.linked first second found'

/-- An index whose part above a block is replaced by a path down to that block. -/
theorem Linked.splice {top : K} {blocks : List (ℕ × K)} (graded : F.Graded)
    (chain : Linked F index low high) (path : Path F top blocks link) (hw : F.find link = some w)
    (anchored : index (F.height w) = some link) (hv : F.find top = some v)
    (below : ∀ n ≤ F.height w, next n = index n)
    (written : ∀ {n k}, (n, k) ∈ blocks → next n = some k)
    (above : ∀ n, F.height v < n → next n = none) : Linked F next low (F.height v) := by
  obtain ⟨v', hv', length, covered⟩ := path.heights graded hw
  obtain rfl := some.inj (hv.symm.trans hv')
  have bounds := chain.bounds anchored
  -- Every entry of the new index is an old one at or below the anchor or a block of the path.
  have entry : ∀ {n k}, next n = some k →
      (n ≤ F.height w ∧ index n = some k) ∨ (F.height w < n ∧ (n, k) ∈ blocks) := by
    intro n k found
    by_cases low' : n ≤ F.height w
    · exact Or.inl ⟨low', below n low' ▸ found⟩
    have upper : n ≤ F.height v := by
      by_contra high'
      rw [above n (by omega)] at found
      cases found
    obtain ⟨k', mem⟩ := (covered n).2 ⟨by omega, upper⟩
    obtain rfl := some.inj ((written mem).symm.trans found)
    exact Or.inr ⟨by omega, mem⟩
  refine ⟨fun n => ⟨fun some' => ?_, fun inside => ?_⟩, ?_, ?_⟩
  · obtain ⟨k, found⟩ := isSome_iff_exists.1 some'
    rcases entry found with ⟨le, old⟩ | ⟨lt, mem⟩
    · have := chain.bounds old
      omega
    · have := (covered n).1 ⟨k, mem⟩
      omega
  · by_cases le : n ≤ F.height w
    · rw [below n le]
      exact (chain.range n).2 ⟨inside.1, by omega⟩
    · obtain ⟨k, mem⟩ := (covered n).2 ⟨by omega, inside.2⟩
      exact isSome_iff_exists.2 ⟨k, written mem⟩
  · intro n k found
    rcases entry found with ⟨_, old⟩ | ⟨_, mem⟩
    · exact chain.stored old
    · exact (path.mem_ancestor mem).2
  · intro n p k u first second found
    rcases entry second with ⟨le, old⟩ | ⟨lt, mem⟩
    · exact chain.linked (below n (by omega) ▸ first) old found
    rcases path.parent_mem graded hw mem found with parent | ⟨same, parent⟩
    · exact some.inj ((written parent).symm.trans first)
    · subst same
      rw [below _ le_rfl, anchored] at first
      exact parent.trans (some.inj first)

/-- An index whose part above a block is replaced by the blocks of a list, each a child of the one
before. -/
theorem Linked.extend {m : ℕ} {blocks : List K} (chain : Linked F index low high)
    (anchored : index m = some link)
    (follows : ∀ {i : ℕ} {p k v}, (link :: blocks)[i]? = some p → blocks[i]? = some k →
      F.find k = some v → F.parent v = p)
    (found : ∀ {i : ℕ} {k}, blocks[i]? = some k → ∃ v, F.find k = some v ∧ F.height v = m + 1 + i)
    (below : ∀ n ≤ m, next n = index n) (above : ∀ i, next (m + 1 + i) = blocks[i]?) :
    Linked F next low (m + blocks.length) := by
  have bounds := chain.bounds anchored
  have split : ∀ n, n ≤ m ∨ ∃ i, n = m + 1 + i := fun n => by
    rcases Nat.lt_or_ge m n with lt | le
    · exact Or.inr ⟨n - (m + 1), by omega⟩
    · exact Or.inl le
  refine ⟨fun n => ?_, fun {n k} entry => ?_, fun {n p k v} first second stored => ?_⟩
  · rcases split n with le | ⟨i, rfl⟩
    · rw [below n le, chain.range]
      omega
    · rw [above, isSome_getElem?]
      omega
  · rcases split n with le | ⟨i, rfl⟩
    · exact chain.stored (below n le ▸ entry)
    · exact found (above i ▸ entry)
  rcases split (n + 1) with le | ⟨i, same⟩
  · exact chain.linked (below n (by omega) ▸ first) (below _ le ▸ second) stored
  -- Seen from the anchor, both are neighbours in the list.
  have lower : (link :: blocks)[i]? = some p := by
    cases i with
    | zero =>
      obtain rfl : n = m := by omega
      rw [getElem?_cons_zero, ← anchored, ← below n le_rfl, first]
    | succ i =>
      obtain rfl : n = m + 1 + i := by omega
      rw [getElem?_cons_succ, ← above, first]
  exact follows lower (by rw [← above, ← same, second]) stored

section Verdict

variable (F) (fails : K → Prop)

def Rejected (k : K) : Prop := ∃ a, F.Ancestor a k ∧ fails a

/-- The second block is the last sound one on the branch of the first: the parent of a failing block
with none below. -/
def LastSound (k l : K) : Prop :=
  ∃ a v, F.Ancestor a k ∧ F.find a = some v ∧ fails a ∧ F.parent v = l ∧ ¬ F.Rejected fails l

variable {F fails} {k l : K}

theorem LastSound.descend (last : F.LastSound fails a l) (up : F.Ancestor a b) :
    F.LastSound fails b l := by
  obtain ⟨first, v, below, found, failed, parent, sound⟩ := last
  exact ⟨first, v, below.trans up, found, failed, parent, sound⟩

end Verdict

end Forest

end Lineage
