import Ethrex.Mpt.Injective
import Ethrex.Mpt.VerifyRange

/-!
# The walk over the edge proofs

What `process_proof_nodes` does from the hash of a canonical tree without collisions: which children
are visited, become external references or are counted. The queue only permutes the visits.
-/

namespace Ethrex.Mpt

open Patricia Rlp List
open RangeWalk (visit visitChildNode visitChoices visitNode)

theorem compare_eq_cmpStart {k l : List UInt8} (h : k.length = l.length) :
    compare k l = cmpStart k l := by
  induction k generalizing l with
  | nil =>
    obtain rfl : l = [] := eq_nil_of_length_eq_zero h.symm
    rfl
  | cons a k ih =>
    cases l with
    | nil => simp at h
    | cons b l =>
      rw [cmpStart, List.compare_cons_cons, ih (by simpa using h)]

theorem cmpStart_take_left {α : Type*} [LinearOrder α] (k l : List α) :
    cmpStart (k.take l.length) l = cmpStart k l := by
  induction k generalizing l with
  | nil => simp
  | cons a k ih => cases l <;> simp [cmpStart, ih]

theorem cmpStart_take_right {α : Type*} [LinearOrder α] (k l : List α) :
    cmpStart k (l.take k.length) = cmpStart k l := by
  induction k generalizing l with
  | nil => simp [cmpStart]
  | cons a k ih => cases l <;> simp [cmpStart, ih]

theorem comparePrefix_eq (n p : Nibbles) : n.comparePrefix p = cmpStart n.data p.data := by
  rw [Nibbles.comparePrefix, Nibbles.len, Nibbles.len]
  split
  · rename_i h
    rw [compare_eq_cmpStart (by rw [length_take]; omega), cmpStart_take_left]
  · rename_i h
    rw [compare_eq_cmpStart (by rw [length_take]; omega), cmpStart_take_right]

theorem compare_nibble : ∀ a b : Fin 16, compare (nibble a) (nibble b) = compare a b := by
  decide

variable {q : Word} {o : Ordering}

theorem cmpStart_hex {k : Word} (e : List UInt8) (h : q.length ≤ k.length) :
    cmpStart (hex k ++ e) (hex q) = cmpStart k q := by
  induction k generalizing q with
  | nil =>
    obtain rfl : q = [] := eq_nil_of_length_eq_zero (by simpa using h)
    cases e <;> rfl
  | cons a k ih =>
    cases q with
    | nil => rfl
    | cons b q =>
      rw [hex_cons, hex_cons, cons_append, cmpStart, cmpStart, compare_nibble,
        ih (by simpa using h)]

theorem cmpStart_terminated {k : Word} (h : q.length = k.length) :
    cmpStart (terminated k) (terminated q) = cmpStart k q := by
  induction k generalizing q with
  | nil =>
    obtain rfl : q = [] := eq_nil_of_length_eq_zero (by simpa using h)
    rfl
  | cons a k ih =>
    cases q with
    | nil => simp at h
    | cons b q =>
      rw [terminated_cons, terminated_cons, cmpStart, cmpStart, compare_nibble,
        ih (by simpa using h)]

theorem isLT_iff : o.isLT = true ↔ o = .lt := by cases o <;> simp

theorem isGT_iff : o.isGT = true ↔ o = .gt := by cases o <;> simp

theorem isEq_iff : o.isEq = true ↔ o = .eq := by cases o <;> simp

/-- The range of a walk in words: its bounds, the first key of the range and the nodes that the
proof has. -/
structure Edge where
  left : Word
  right : Word
  first : Option Word
  Given : MTree → Prop

namespace Edge

variable (edge : Edge)

def Inside (q : Word) : Prop := Before edge.left q ∧ Before q edge.right

def OnEdge (q : Word) : Prop := q <+: edge.left ∨ q <+: edge.right

def BeforeFirst (q : Word) : Prop := ∃ k ∈ edge.first, Before q k

def Descends (v : Word × MTree) : Prop :=
  ¬edge.Inside v.1 ∧ edge.Given v.2 ∧ ¬edge.BeforeFirst v.1

def Counted (v : Word × MTree) : Prop := Before edge.left v.1 ∧ Before edge.right v.1

end Edge

open Classical in
/-- The children of a branch at the given choices, with the words that lead to them. -/
noncomputable def choicesOf (q : Word) (cs : Fin 16 → MTree) (is : List (Fin 16)) :
    List (Word × MTree) :=
  (is.filter fun i => cs i ≠ .nil).map fun i => (q ++ [i], cs i)

noncomputable def childrenOf (q : Word) : MTree → List (Word × MTree)
  | .ext w c => [(q ++ w, c)]
  | .branch cs _ => choicesOf q cs (List.finRange 16)
  | _ => []

namespace Edge

variable (edge : Edge)

open Classical in
/-- All visits below a node, each child followed by the visits below it. -/
noncomputable def visits : Word → MTree → List (Word × MTree)
  | q, .ext w c => (q ++ w, c) :: if edge.Descends (q ++ w, c) then visits (q ++ w) c else []
  | q, .branch cs _ => (List.finRange 16).flatMap fun i =>
    if cs i ≠ .nil then
      (q ++ [i], cs i) :: if edge.Descends (q ++ [i], cs i) then visits (q ++ [i]) (cs i) else []
    else []
  | _, _ => []

open Classical in
theorem visits_eq (q : Word) (t : MTree) : edge.visits q t = (childrenOf q t).flatMap fun v =>
    v :: if edge.Descends v then edge.visits v.1 v.2 else [] := by
  cases t with
  | nil => rfl
  | leaf w v => rfl
  | ext w c => simp [visits, childrenOf]
  | branch cs v =>
    rw [visits, childrenOf, choicesOf, flatMap_map]
    induction List.finRange 16 with
    | nil => rfl
    | cons i is ih =>
      by_cases hi : cs i = .nil
      · simpa [hi] using ih
      · simpa [hi] using ih

open Classical in
theorem visits_perm (q : Word) (t : MTree) : (edge.visits q t).Perm
    (childrenOf q t ++ ((childrenOf q t).filter edge.Descends).flatMap fun v =>
      edge.visits v.1 v.2) := by
  rw [visits_eq]
  induction childrenOf q t with
  | nil => exact .refl _
  | cons v vs ih =>
    by_cases hv : edge.Descends v
    · simp only [flatMap_cons, hv, if_true, filter_cons, decide_true, cons_append]
      refine .cons v ?_
      rw [← append_assoc]
      refine .trans (.append_left _ ih) ?_
      rw [← append_assoc]
      exact .append_right _ perm_append_comm
    · simpa [hv] using ih

end Edge

/-! ### The effect of a visit -/

def visitWord (v : Word × MTree) : Word :=
  match v.2 with
  | .leaf w _ => v.1 ++ w
  | _ => v.1

def visitPath (v : Word × MTree) : Nibbles :=
  match v.2 with
  | .leaf w _ => ⟨terminated (v.1 ++ w), []⟩
  | _ => ⟨hex v.1, []⟩

section

variable (keccak256 : Bytes → H256) (edge : Edge) (v : Word × MTree)

def queued : Nibbles × Node := (visitPath v, shallowNode keccak256 v.2)

open Classical in
noncomputable def reference : Option (Nibbles × NodeHash) :=
  if edge.Inside v.1 then none
  else if edge.Given v.2 ∧ ¬edge.BeforeFirst v.1 then
    if Before edge.right (visitWord v) then some (visitPath v, hashOf keccak256 v.2) else none
  else some (⟨hex v.1, []⟩, hashOf keccak256 v.2)

/-- A visit that does not fail: the proof has the node and it can be decoded, or the node is not
needed. -/
def Clear : Prop :=
  edge.Inside v.1 ∨ (edge.Given v.2 ∧ Fits keccak256 v.2) ∨ (¬edge.Given v.2 ∧ ¬edge.OnEdge v.1)

open Classical in
noncomputable def visited (walk : ProofWalk) (v : Word × MTree) : ProofWalk where
  stack := walk.stack ++ if edge.Descends v then [queued keccak256 v] else []
  externalReferences := walk.externalReferences ++ (reference keccak256 edge v).toList
  leftValue := walk.leftValue
  numRightReferences := walk.numRightReferences + if edge.Counted v then 1 else 0

/-- The walk is about a canonical tree over 32-byte keys, and the proof has the nodes that it is
said to have. -/
structure WalksOver (t : MTree) (range : RangeWalk) : Prop where
  left : range.leftBound.data = terminated edge.left
  right : range.rightBound.data = terminated edge.right
  first : range.firstKey.map Nibbles.data = edge.first.map terminated
  left_length : edge.left.length = 64
  right_length : edge.right.length = 64
  first_length : ∀ k ∈ edge.first, k.length = 64
  proper : t.Proper
  uniform : t.Uniform 64
  given : ∀ q c, Subtree t q c → edge.Given c →
    range.proof.getNode (hashOf keccak256 c) = some <$> Node.decode (encodeOf keccak256 c)
  missing : ∀ q c, Subtree t q c → ¬edge.Given c →
    range.proof.getNode (hashOf keccak256 c) = .ok none
  decode : ∀ q c, Subtree t q c → ¬Fits keccak256 c →
    ∃ f, Node.decode (encodeOf keccak256 c) = .error f

variable {keccak256 edge} {t : MTree} {range : RangeWalk} {v : Word × MTree}

variable (h : WalksOver keccak256 edge t range)

include h

theorem WalksOver.length_le (hv : Subtree t v.1 v.2) :
    v.1.length ≤ 64 := by
  obtain ⟨k, hk⟩ := (hv.proper h.proper).exists_lookup
  have := h.uniform.subtree hv hk
  omega

variable {q : Word} {x : Value}

theorem WalksOver.length_leaf {w : Word} (hv : Subtree t q (.leaf w x)) : (q ++ w).length = 64 := by
  rw [length_append]
  exact h.uniform.subtree hv (by simp)

theorem WalksOver.comparePrefix_left (hv : Subtree t v.1 v.2) :
    range.leftBound.comparePrefix ⟨hex v.1, []⟩ = cmpStart edge.left v.1 := by
  rw [comparePrefix_eq, h.left, terminated, cmpStart_hex]
  rw [h.left_length]
  exact h.length_le hv

theorem WalksOver.comparePrefix_right (hv : Subtree t v.1 v.2) :
    range.rightBound.comparePrefix ⟨hex v.1, []⟩ = cmpStart edge.right v.1 := by
  rw [comparePrefix_eq, h.right, terminated, cmpStart_hex]
  rw [h.right_length]
  exact h.length_le hv

theorem WalksOver.comparePrefix_visitPath (hv : Subtree t v.1 v.2) :
    range.rightBound.comparePrefix (visitPath v) = cmpStart edge.right (visitWord v) := by
  have hopen := h.comparePrefix_right hv
  obtain ⟨q, c⟩ := v
  cases c with
  | leaf w x =>
    rw [comparePrefix_eq, h.right, visitPath, visitWord, cmpStart_terminated]
    rw [h.right_length, h.length_leaf hv]
  | nil => exact hopen
  | ext w c => exact hopen
  | branch cs x => exact hopen

theorem WalksOver.beforeFirst (hv : Subtree t v.1 v.2) :
    (range.firstKey.any fun fk => (fk.comparePrefix ⟨hex v.1, []⟩).isGT) = true ↔
      edge.BeforeFirst v.1 := by
  have hfirst := h.first
  have hlen := h.first_length
  rw [Edge.BeforeFirst]
  cases hf : range.firstKey with
  | none =>
    rw [hf, Option.map_none] at hfirst
    simp [Option.map_eq_none_iff.1 hfirst.symm]
  | some fk =>
    rw [hf, Option.map_some] at hfirst
    obtain ⟨k, hk, hdata⟩ := Option.map_eq_some_iff.1 hfirst.symm
    have hcmp : fk.comparePrefix ⟨hex v.1, []⟩ = cmpStart k v.1 := by
      rw [comparePrefix_eq, ← hdata, terminated, cmpStart_hex]
      rw [hlen k hk]
      exact h.length_le hv
    simp [hk, hcmp, cmpStart_eq_gt_iff]

omit h

theorem extendByLeaf_shallowNode :
    extendByLeaf ⟨hex v.1, []⟩ (shallowNode keccak256 v.2) = visitPath v := by
  obtain ⟨q, c⟩ := v
  cases c <;>
    simp [extendByLeaf, shallowNode, visitPath, Nibbles.extend, Nibbles.fromHex, terminated]

theorem WalksOver.visitFound (h : WalksOver keccak256 edge t range) (hv : Subtree t v.1 v.2)
    (walk : ProofWalk) (hin : ¬edge.Inside v.1) (hgiven : edge.Given v.2) :
    range.visitFound walk ⟨hex v.1, []⟩ (hashOf keccak256 v.2) (shallowNode keccak256 v.2) =
      { visited keccak256 edge walk v with numRightReferences := walk.numRightReferences } := by
  simp only [RangeWalk.visitFound, extendByLeaf_shallowNode, h.comparePrefix_visitPath hv]
  by_cases hfirst : edge.BeforeFirst v.1
  · rw [if_pos ((h.beforeFirst hv).2 hfirst)]
    simp [visited, Edge.Descends, reference, hin, hfirst, ProofWalk.addReference]
  rw [if_neg fun hf => hfirst ((h.beforeFirst hv).1 hf)]
  by_cases hright : Before edge.right (visitWord v)
  · rw [if_pos (isLT_iff.2 ((cmpStart_eq_lt_iff _ _).2 hright))]
    simp [visited, Edge.Descends, reference, hin, hfirst, hgiven, hright, queued,
      ProofWalk.addReference, ProofWalk.push]
  · rw [if_neg fun hr => hright ((cmpStart_eq_lt_iff _ _).1 (isLT_iff.1 hr))]
    simp [visited, Edge.Descends, reference, hin, hfirst, hgiven, hright, queued,
      ProofWalk.push]

theorem Edge.Counted.not_inside (h : edge.Counted v) : ¬edge.Inside v.1 := fun hin =>
  h.2.asymm hin.2

variable (h : WalksOver keccak256 edge t range) (hv : Subtree t v.1 v.2)

include h hv

theorem WalksOver.inside_iff :
    ((range.leftBound.comparePrefix ⟨hex v.1, []⟩).isLT = true ∧
      (range.rightBound.comparePrefix ⟨hex v.1, []⟩).isGT = true) ↔ edge.Inside v.1 := by
  rw [h.comparePrefix_left hv, h.comparePrefix_right hv, isLT_iff, isGT_iff, cmpStart_eq_lt_iff,
    cmpStart_eq_gt_iff, Edge.Inside]

theorem WalksOver.counted_iff :
    ((range.leftBound.comparePrefix ⟨hex v.1, []⟩).isLT = true ∧
      (range.rightBound.comparePrefix ⟨hex v.1, []⟩).isLT = true) ↔ edge.Counted v := by
  rw [h.comparePrefix_left hv, h.comparePrefix_right hv, isLT_iff, isLT_iff, cmpStart_eq_lt_iff,
    cmpStart_eq_lt_iff, Edge.Counted]

theorem WalksOver.onEdge_iff :
    ((range.leftBound.comparePrefix ⟨hex v.1, []⟩).isEq = true ∨
      (range.rightBound.comparePrefix ⟨hex v.1, []⟩).isEq = true) ↔ edge.OnEdge v.1 := by
  have hlen := h.length_le hv
  rw [h.comparePrefix_left hv, h.comparePrefix_right hv, isEq_iff, isEq_iff,
    cmpStart_eq_eq_iff (by rw [h.left_length]; exact hlen),
    cmpStart_eq_eq_iff (by rw [h.right_length]; exact hlen), Edge.OnEdge]

theorem WalksOver.visit_of_clear (walk : ProofWalk) (hclear : Clear keccak256 edge v) :
    range.visit walk ⟨hex v.1, []⟩ (.hash (hashOf keccak256 v.2)) =
      .ok (visited keccak256 edge walk v) := by
  rw [visit, visitChildNode]
  by_cases hin : edge.Inside v.1
  · have hnc : ¬edge.Counted v := fun hc => hc.not_inside hin
    rw [if_pos ((h.inside_iff hv).2 hin)]
    simp [visited, Edge.Descends, reference, hin, hnc]
  rw [if_neg fun hi => hin ((h.inside_iff hv).1 hi)]
  have hcount : (if (range.leftBound.comparePrefix ⟨hex v.1, []⟩).isLT = true ∧
      (range.rightBound.comparePrefix ⟨hex v.1, []⟩).isLT = true then 1 else 0) =
      (visited keccak256 edge ⟨[], [], [], 0⟩ v).numRightReferences := by
    by_cases hc : edge.Counted v
    · rw [if_pos ((h.counted_iff hv).2 hc)]
      simp [visited, hc]
    · rw [if_neg fun hi => hc ((h.counted_iff hv).1 hi)]
      simp [visited, hc]
  rcases hclear with hin' | ⟨hgiven, hfit⟩ | ⟨hgiven, hedge⟩
  · exact absurd hin' hin
  · rw [h.given _ _ hv hgiven, decode_encodeOf (hv.proper h.proper) hfit]
    simp only [hcount, Functor.map, Except.map, Result.ok_bind, h.visitFound hv walk hin hgiven]
    simp [visited]
  · rw [h.missing _ _ hv hgiven]
    simp only [hcount, Result.ok_bind, if_neg fun hi => hedge ((h.onEdge_iff hv).1 hi)]
    simp [visited, Edge.Descends, reference, hin, hgiven, ProofWalk.addReference]

variable {walk' : ProofWalk} {cs : Fin 16 → MTree}

theorem WalksOver.clear_of_visit {walk : ProofWalk}
    (hok : range.visit walk ⟨hex v.1, []⟩ (.hash (hashOf keccak256 v.2)) = .ok walk') :
    Clear keccak256 edge v := by
  by_contra hclear
  simp only [Clear, not_or, not_and, not_not] at hclear
  obtain ⟨hin, hfit, hedge⟩ := hclear
  rw [visit, visitChildNode,
    if_neg fun hi => hin ((h.inside_iff hv).1 hi)] at hok
  by_cases hgiven : edge.Given v.2
  · obtain ⟨f, hf⟩ := h.decode _ _ hv (hfit hgiven)
    rw [h.given _ _ hv hgiven, hf] at hok
    cases hok
  · rw [h.missing _ _ hv hgiven] at hok
    simp only [Result.ok_bind, if_pos ((h.onEdge_iff hv).2 (hedge hgiven))] at hok
    cases hok

omit h hv

/-! ### The children of a node -/

theorem mem_choicesOf {is : List (Fin 16)} :
    v ∈ choicesOf q cs is ↔ ∃ i ∈ is, cs i ≠ .nil ∧ v = (q ++ [i], cs i) := by
  rw [choicesOf, mem_map]
  constructor
  · rintro ⟨i, hi, rfl⟩
    obtain ⟨hmem, hne⟩ := mem_filter.1 hi
    exact ⟨i, hmem, by simpa using hne, rfl⟩
  · rintro ⟨i, hmem, hne, rfl⟩
    exact ⟨i, mem_filter.2 ⟨hmem, by simpa using hne⟩, rfl⟩

theorem Subtree.child {c : MTree} (h : Subtree t q c) (hc : c.Proper) (hv : v ∈ childrenOf q c) :
    Subtree t v.1 v.2 := by
  cases c with
  | nil => simp [childrenOf] at hv
  | leaf w x => simp [childrenOf] at hv
  | ext w d =>
    obtain rfl : v = (q ++ w, d) := by simpa [childrenOf] using hv
    have := h.trans (.ext (.self hc.2.2.ne_nil) : Subtree (.ext w d) (w ++ []) d)
    simpa using this
  | branch cs x =>
    obtain ⟨i, -, hi, rfl⟩ := mem_choicesOf.1 hv
    exact h.trans (.branch (.self hi))

variable (h : WalksOver keccak256 edge t range) (is : List (Fin 16))
  (hsub : ∀ v ∈ choicesOf q cs is, Subtree t v.1 v.2)

include h is hsub

theorem visitChoices_of_clear (hclear : ∀ v ∈ choicesOf q cs is, Clear keccak256 edge v)
    (walk : ProofWalk) :
    range.visitChoices ⟨hex q, []⟩ (fun i => .hash (hashOf keccak256 (cs i))) is walk =
      .ok ((choicesOf q cs is).foldl (visited keccak256 edge) walk) := by
  induction is generalizing walk with
  | nil => rfl
  | cons i is ih =>
    have hmono : ∀ v ∈ choicesOf q cs is, v ∈ choicesOf q cs (i :: is) := fun v hv => by
      obtain ⟨j, hj, hrest⟩ := mem_choicesOf.1 hv
      exact mem_choicesOf.2 ⟨j, by simp [hj], hrest⟩
    have hrest := ih (fun v hv => hsub v (hmono v hv)) (fun v hv => hclear v (hmono v hv))
    have hvalid := isValid_hashOf keccak256 (cs i)
    by_cases hi : cs i = .nil
    · have hskip : choicesOf q cs (i :: is) = choicesOf q cs is := by simp [choicesOf, hi]
      rw [hskip, visitChoices, if_pos (by simpa [NodeRef.isValid, hi] using hvalid)]
      exact hrest walk
    have hcons : choicesOf q cs (i :: is) = (q ++ [i], cs i) :: choicesOf q cs is := by
      simp [choicesOf, hi]
    have hmem : (q ++ [i], cs i) ∈ choicesOf q cs (i :: is) := by simp [hcons]
    have hvisit := h.visit_of_clear (hsub _ hmem) walk (hclear _ hmem)
    rw [hcons, visitChoices,
      if_neg (by simp [NodeRef.isValid, hvalid.2 hi]), foldl_cons]
    have hpath : (⟨hex q, []⟩ : Nibbles).appendNew (nibble i) = ⟨hex (q ++ [i]), []⟩ := by
      simp [Nibbles.appendNew]
    rw [hpath, hvisit, Result.ok_bind]
    exact hrest _

theorem clear_of_visitChoices {walk : ProofWalk}
    (hok : range.visitChoices ⟨hex q, []⟩ (fun i => .hash (hashOf keccak256 (cs i))) is walk =
      .ok walk') :
    ∀ v ∈ choicesOf q cs is, Clear keccak256 edge v := by
  induction is generalizing walk with
  | nil => simp [choicesOf]
  | cons i is ih =>
    have hvalid := isValid_hashOf keccak256 (cs i)
    by_cases hi : cs i = .nil
    · have hskip : choicesOf q cs (i :: is) = choicesOf q cs is := by simp [choicesOf, hi]
      rw [visitChoices, if_pos (by simpa [NodeRef.isValid, hi] using hvalid)] at hok
      rw [hskip] at hsub ⊢
      exact ih hsub hok
    · have hcons : choicesOf q cs (i :: is) = (q ++ [i], cs i) :: choicesOf q cs is := by
        simp [choicesOf, hi]
      rw [hcons] at hsub ⊢
      have hpath : (⟨hex q, []⟩ : Nibbles).appendNew (nibble i) = ⟨hex (q ++ [i]), []⟩ := by
        simp [Nibbles.appendNew]
      rw [visitChoices, if_neg (by simp [NodeRef.isValid, hvalid.2 hi]), hpath,
        bind_eq_ok] at hok
      obtain ⟨walk₁, hvisit, hrest⟩ := hok
      intro v hv
      rcases mem_cons.1 hv with rfl | hv
      · exact h.clear_of_visit (hsub _ (by simp)) hvisit
      · exact ih (fun u hu => hsub u (by simp [hu])) hrest v hv

omit h is hsub

def AtLeft (edge : Edge) (v : Word × MTree) (x : Value) : Prop :=
  ∃ w, v.2 = .leaf w x ∧ v.1 ++ w = edge.left

open Classical in
noncomputable def valued (edge : Edge) (walk : ProofWalk) (v : Word × MTree) : ProofWalk :=
  if h : ∃ x, AtLeft edge v x then { walk with leftValue := h.choose.val } else walk

theorem valued_of_atLeft (hx : AtLeft edge v x) (walk : ProofWalk) :
    valued edge walk v = { walk with leftValue := x.val } := by
  have hex : ∃ x, AtLeft edge v x := ⟨x, hx⟩
  have hsame : hex.choose = x := by
    obtain ⟨w, hw, -⟩ := hex.choose_spec
    obtain ⟨w', hw', -⟩ := hx
    rw [hw'] at hw
    injection hw with _ hv
    exact hv.symm
  rw [valued, dif_pos hex, hsame]

theorem valued_of_not {walk : ProofWalk} (h : ∀ x, ¬AtLeft edge v x) :
    valued edge walk v = walk := by
  rw [valued, dif_neg fun ⟨x, hx⟩ => h x hx]

theorem WalksOver.visitNode_of_clear (h : WalksOver keccak256 edge t range)
    (hv : Subtree t v.1 v.2) (hclear : ∀ u ∈ childrenOf v.1 v.2, Clear keccak256 edge u)
    (walk : ProofWalk) :
    range.visitNode walk (visitPath v) (shallowNode keccak256 v.2) =
      .ok (valued edge ((childrenOf v.1 v.2).foldl (visited keccak256 edge) walk) v) := by
  have hsub := fun u hu => Subtree.child (v := u) hv (hv.proper h.proper) hu
  obtain ⟨q, c⟩ := v
  cases c with
  | nil => exact absurd rfl hv.ne_nil
  | leaf w x =>
    simp only [visitNode, shallowNode, Result.pure_eq_ok, Result.ok_bind, visitPath,
      h.left, childrenOf, foldl_nil]
    by_cases hleft : q ++ w = edge.left
    · rw [if_pos ⟨by simp [x.property], by rw [hleft]⟩, valued_of_atLeft ⟨w, rfl, hleft⟩]
    rw [if_neg fun hcond => hleft (terminated_inj.1 hcond.2), valued_of_not]
    rintro y ⟨w', hw', hl⟩
    injection hw' with hww _
    exact hleft (by rw [hww]; exact hl)
  | ext w d =>
    have hmem : (q ++ w, d) ∈ childrenOf q (.ext w d) := by simp [childrenOf]
    have hvisit := h.visit_of_clear (hsub _ hmem) walk (hclear _ hmem)
    have hpath : (⟨hex q, []⟩ : Nibbles).extend (Nibbles.fromHex (hex w)) = ⟨hex (q ++ w), []⟩ := by
      simp [Nibbles.extend, Nibbles.fromHex]
    rw [valued_of_not (by rintro y ⟨w', hw', -⟩; cases hw')]
    simp only [visitNode, shallowNode, visitPath, hpath, hvisit, Result.ok_bind,
      Result.pure_eq_ok, childrenOf, foldl_cons, foldl_nil]
    simp
  | branch cs x =>
    obtain rfl := h.uniform.branch_value h.proper hv
    have hchoices := visitChoices_of_clear h (List.finRange 16) hsub hclear walk
    rw [valued_of_not (by rintro y ⟨w', hw', -⟩; cases hw')]
    simp only [visitNode, shallowNode, visitPath, hchoices, Result.ok_bind,
      Result.pure_eq_ok, childrenOf, valueBytes]
    simp

theorem WalksOver.clear_of_visitNode (h : WalksOver keccak256 edge t range) (hv : Subtree t v.1 v.2)
    {walk : ProofWalk}
    (hok : range.visitNode walk (visitPath v) (shallowNode keccak256 v.2) = .ok walk') :
    ∀ u ∈ childrenOf v.1 v.2, Clear keccak256 edge u := by
  have hsub := fun u hu => Subtree.child (v := u) hv (hv.proper h.proper) hu
  obtain ⟨q, c⟩ := v
  cases c with
  | nil => simp [childrenOf]
  | leaf w x => simp [childrenOf]
  | ext w d =>
    have hpath : (⟨hex q, []⟩ : Nibbles).extend (Nibbles.fromHex (hex w)) = ⟨hex (q ++ w), []⟩ := by
      simp [Nibbles.extend, Nibbles.fromHex]
    simp only [visitNode, shallowNode, visitPath, hpath, bind_eq_ok] at hok
    obtain ⟨walk₁, hvisit, -⟩ := hok
    intro u hu
    obtain rfl : u = (q ++ w, d) := by simpa [childrenOf] using hu
    exact h.clear_of_visit (hsub _ hu) hvisit
  | branch cs x =>
    simp only [visitNode, shallowNode, visitPath, bind_eq_ok] at hok
    obtain ⟨walk₁, hvisit, -⟩ := hok
    exact clear_of_visitChoices h (List.finRange 16) hsub hvisit

theorem processStack_nil {walk : ProofWalk} (h : walk.stack = []) (fuel : Nat) :
    range.processStack fuel walk =
      .ok ⟨walk.externalReferences, walk.leftValue, walk.numRightReferences⟩ := by
  obtain ⟨stack, refs, left, n⟩ := walk
  cases h
  cases fuel <;> rfl

variable {e : Nibbles × Node} {stack : List (Nibbles × Node)} {queue : List (Word × MTree)}
  {result : ProofProcessingResult}

theorem processStack_zero {walk : ProofWalk} (h : walk.stack = e :: stack) :
    range.processStack 0 walk = .error .outOfFuel := by
  obtain ⟨stack, refs, left, n⟩ := walk
  cases h
  rfl

theorem processStack_cons {walk : ProofWalk} (h : walk.stack = e :: stack) (fuel : Nat) :
    range.processStack (fuel + 1) walk =
      range.visitNode { walk with stack } e.1 e.2 >>= range.processStack fuel := by
  obtain ⟨stack, refs, left, n⟩ := walk
  cases h
  rfl

open Classical in
theorem foldl_visited (vs : List (Word × MTree)) (walk : ProofWalk) :
    vs.foldl (visited keccak256 edge) walk =
      ⟨walk.stack ++ (vs.filter edge.Descends).map (queued keccak256),
        walk.externalReferences ++ vs.filterMap (reference keccak256 edge), walk.leftValue,
        walk.numRightReferences + vs.countP edge.Counted⟩ := by
  induction vs generalizing walk with
  | nil => simp
  | cons v vs ih =>
    rw [foldl_cons, ih]
    by_cases hd : edge.Descends v
    · by_cases hc : edge.Counted v <;> cases hr : reference keccak256 edge v <;>
        simp [visited, hd, hc, hr, Nat.add_assoc, Nat.add_comm]
    · by_cases hc : edge.Counted v <;> cases hr : reference keccak256 edge v <;>
        simp [visited, hd, hc, hr, Nat.add_assoc, Nat.add_comm]

open Classical in
/-- What the loop adds to the walk when it makes the visits `order`, starting with `queue`. -/
structure Outcome (keccak256 : Bytes → H256) (edge : Edge) (queue order : List (Word × MTree))
    (walk : ProofWalk) (result : ProofProcessingResult) : Prop where
  clear : ∀ v ∈ order, Clear keccak256 edge v
  references : result.externalReferences =
    walk.externalReferences ++ order.filterMap (reference keccak256 edge)
  count : result.numRightReferences = walk.numRightReferences + order.countP edge.Counted
  leftValue : (result.leftValue = walk.leftValue ∧
      ∀ v ∈ queue ++ order.filter edge.Descends, ∀ x, ¬AtLeft edge v x) ∨
    ∃ v ∈ queue ++ order.filter edge.Descends, ∃ x, AtLeft edge v x ∧ result.leftValue = x.val

open Classical in
theorem Outcome.cons {order : List (Word × MTree)} {walk : ProofWalk}
    (hclear : ∀ u ∈ childrenOf v.1 v.2, Clear keccak256 edge u)
    (h : Outcome keccak256 edge (queue ++ (childrenOf v.1 v.2).filter edge.Descends) order
      (valued edge ((childrenOf v.1 v.2).foldl (visited keccak256 edge) walk) v) result) :
    Outcome keccak256 edge (v :: queue) (childrenOf v.1 v.2 ++ order) walk result := by
  have hfields : (valued edge ((childrenOf v.1 v.2).foldl (visited keccak256 edge) walk) v)
      = { (childrenOf v.1 v.2).foldl (visited keccak256 edge) walk with
          leftValue := (valued edge
            ((childrenOf v.1 v.2).foldl (visited keccak256 edge) walk) v).leftValue } := by
    rw [valued]
    split <;> rfl
  obtain ⟨hc, hr, hn, hl⟩ := h
  rw [hfields, foldl_visited] at hr hn
  refine ⟨fun u hu => ?_, ?_, ?_, ?_⟩
  · rcases mem_append.1 hu with hu | hu
    · exact hclear u hu
    · exact hc u hu
  · rw [hr, filterMap_append, append_assoc]
  · rw [hn, countP_append]
    exact Nat.add_assoc _ _ _
  have hlist : v :: queue ++ (childrenOf v.1 v.2 ++ order).filter edge.Descends =
      v :: (queue ++ (childrenOf v.1 v.2).filter edge.Descends ++ order.filter edge.Descends) := by
    simp
  rw [hlist]
  rcases hl with ⟨hkeep, hnone⟩ | ⟨u, hu, x, hx, hval⟩
  · by_cases hv : ∃ x, AtLeft edge v x
    · obtain ⟨x, hx⟩ := hv
      refine .inr ⟨v, by simp, x, hx, ?_⟩
      rw [hkeep, valued_of_atLeft hx]
    have hv' : ∀ x, ¬AtLeft edge v x := fun x hx => hv ⟨x, hx⟩
    refine .inl ⟨?_, fun u hu => ?_⟩
    · rw [hkeep, valued_of_not hv', foldl_visited]
    · rcases mem_cons.1 hu with rfl | hu
      · exact hv'
      · exact hnone u hu
  · exact .inr ⟨u, mem_cons_of_mem v hu, x, hx, hval⟩

open Classical in
theorem stack_valued (queue : List (Word × MTree)) {walk : ProofWalk}
    (hstack : walk.stack = queue.map (queued keccak256)) :
    (valued edge ((childrenOf v.1 v.2).foldl (visited keccak256 edge) walk) v).stack =
      (queue ++ (childrenOf v.1 v.2).filter edge.Descends).map (queued keccak256) := by
  have hsame : (valued edge ((childrenOf v.1 v.2).foldl (visited keccak256 edge) walk) v).stack =
      ((childrenOf v.1 v.2).foldl (visited keccak256 edge) walk).stack := by
    rw [valued]
    split <;> rfl
  rw [hsame, foldl_visited, map_append, hstack]

open Classical in
theorem WalksOver.processStack_ok (h : WalksOver keccak256 edge t range) {fuel : Nat}
    (hqueue : ∀ v ∈ queue, Subtree t v.1 v.2) {walk : ProofWalk}
    (hstack : walk.stack = queue.map (queued keccak256))
    (hok : range.processStack fuel walk = .ok result) :
    ∃ order, order.Perm (queue.flatMap fun v => edge.visits v.1 v.2) ∧
      Outcome keccak256 edge queue order walk result := by
  induction fuel generalizing queue walk with
  | zero =>
    cases queue with
    | nil =>
      rw [processStack_nil hstack] at hok
      cases hok
      exact ⟨[], .refl _, by simp, by simp, by simp, by simp⟩
    | cons v queue =>
      rw [processStack_zero hstack] at hok
      cases hok
  | succ fuel ih =>
    cases queue with
    | nil =>
      rw [processStack_nil hstack] at hok
      cases hok
      exact ⟨[], .refl _, by simp, by simp, by simp, by simp⟩
    | cons v queue =>
      have hv := hqueue v (by simp)
      rw [processStack_cons hstack, bind_eq_ok] at hok
      obtain ⟨walk', hvisit, hrest⟩ := hok
      have hclear := h.clear_of_visitNode hv hvisit
      rw [queued, h.visitNode_of_clear hv hclear] at hvisit
      cases hvisit
      have hsub : ∀ u ∈ queue ++ (childrenOf v.1 v.2).filter edge.Descends,
          Subtree t u.1 u.2 := fun u hu => by
        rcases mem_append.1 hu with hu | hu
        · exact hqueue u (by simp [hu])
        · exact Subtree.child hv (hv.proper h.proper) (mem_filter.1 hu).1
      obtain ⟨order, hperm, hout⟩ := ih hsub (stack_valued queue rfl) hrest
      have hall := hout.cons hclear
      refine ⟨childrenOf v.1 v.2 ++ order, ?_, hall.clear, hall.references, hall.count,
        hall.leftValue⟩
      rw [flatMap_cons]
      refine .trans (.append_left _ hperm) (.trans ?_ (.append_right _ (edge.visits_perm _ _).symm))
      rw [flatMap_append, append_assoc]
      exact .append_left _ perm_append_comm

end

end Ethrex.Mpt
