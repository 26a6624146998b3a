import Ethrex.Mpt.EdgeWalk
import Ethrex.Mpt.SortedRefine

/-!
# The walk from a proof

The walk over any list of proof strings. Without collisions the strings it finds are encodings of
nodes of the tree, so it is the walk with exactly those given.
-/

namespace Ethrex.Mpt

open Patricia Rlp List
open RangeProof (getNode ofNodes)

/-! ### The strings that are hashed -/

section

variable (keccak256 : Bytes → H256)

mutual

def NodeRef.encodings : NodeRef → List Bytes
  | .node n _ => n.encodings
  | .hash _ => []

/-- The encodings of a node and of the nodes that it holds in memory. -/
def Node.encodings : Node → List Bytes
  | .branch choices value =>
    (Node.branch choices value).encode keccak256 ::
      (List.finRange 16).flatMap fun i => (choices i).encodings
  | .extension prefixPath child =>
    (Node.extension prefixPath child).encode keccak256 :: child.encodings
  | .leaf partialPath value => [(Node.leaf partialPath value).encode keccak256]

end

end

section

variable {keccak256 : Bytes → H256} {Memo Stored : List UInt8 → MTree → Prop} {p : List UInt8}
  {t c : MTree} {q : Word}

theorem encode_mem_encodings (n : Node) : n.encode keccak256 ∈ n.encodings keccak256 := by
  cases n <;> simp [Node.encodings]

theorem NodeDenotes.encodeOf_mem {n : Node} (h : NodeDenotes keccak256 Memo Stored p n t)
    (hc : Subtree t q c) : encodeOf keccak256 c ∈ n.encodings keccak256 ∨
      ∃ p' u q', Stored p' u ∧ Subtree u q' c := by
  induction t generalizing p n q with
  | nil => cases h
  | leaf w v =>
    cases hc with
    | self _ => exact .inl (h.encode_eq ▸ encode_mem_encodings n)
  | ext w d ih =>
    cases hc with
    | self _ => exact .inl (h.encode_eq ▸ encode_mem_encodings n)
    | ext hc =>
      cases h with
      | extension _ hr =>
        rw [Node.encodings, mem_cons, or_assoc]
        refine .inr ?_
        cases hr with
        | nil => exact absurd hc Subtree.not_nil
        | fresh hn => exact ih hn hc
        | memo hn _ _ => exact ih hn hc
        | stored _ _ hs => exact .inr ⟨_, _, _, hs, hc⟩
  | branch cs v ih =>
    cases hc with
    | self _ => exact .inl (h.encode_eq ▸ encode_mem_encodings n)
    | @branch _ _ i q _ hc =>
      cases h with
      | @branch _ rs _ _ hrs =>
        have hmem : ∀ x ∈ (rs i).encodings keccak256,
            x ∈ (Node.branch rs (valueBytes v)).encodings keccak256 := fun x hx => by
          rw [Node.encodings]
          exact mem_cons_of_mem _ (mem_flatMap.2 ⟨i, mem_finRange i, hx⟩)
        have hr := hrs i
        have ihi := @ih i
        generalize cs i = d at hr hc ihi
        generalize rs i = r at hr hmem
        cases hr with
        | nil => exact absurd hc Subtree.not_nil
        | fresh hn => exact (ihi hn hc).imp_left (hmem _)
        | memo hn _ _ => exact (ihi hn hc).imp_left (hmem _)
        | stored _ _ hs => exact .inr ⟨_, _, _, hs, hc⟩

theorem RootDenotes.encodeOf_mem {ref : NodeRef} (h : RootDenotes keccak256 Memo Stored ref t)
    (hc : Subtree t q c) : encodeOf keccak256 c ∈ ref.encodings keccak256 ∨
      ∃ p' u q', Stored p' u ∧ Subtree u q' c := by
  cases h with
  | nil => exact absurd hc Subtree.not_nil
  | fresh hn => exact hn.encodeOf_mem hc
  | memo hn _ _ => exact hn.encodeOf_mem hc
  | stored _ hs => exact .inr ⟨_, _, _, hs, hc⟩

end

section

variable {keccak256 : Bytes → H256} {t : MTree} {proof : List Bytes}

/-! ### Looking up proof nodes -/

variable {x : Bytes} {S : Set Bytes} {q : Word} {c : MTree}

theorem nodeRefs_eq_some {hash : H256}
    (h : (ofNodes keccak256 proof).nodeRefs hash = some x) :
    x ∈ proof ∧ keccak256 x = hash := by
  suffices hgen : ∀ refs : H256 → Option Bytes,
      proof.foldl (fun refs node => Function.update refs (keccak256 node) (some node)) refs hash =
        some x → refs hash = some x ∨ x ∈ proof ∧ keccak256 x = hash by
    rcases hgen _ h with h | h
    · cases h
    · exact h
  clear h
  induction proof with
  | nil => exact fun refs h => .inl h
  | cons node proof ih =>
    intro refs h
    rcases ih _ h with h | ⟨hmem, hx⟩
    · by_cases hk : hash = keccak256 node
      · subst hk
        obtain rfl : node = x := by simpa using h
        exact .inr ⟨by simp, rfl⟩
      · exact .inl (by simpa [hk] using h)
    · exact .inr ⟨by simp [hmem], hx⟩

theorem nodeRefs_ne_none (h : x ∈ proof) :
    (ofNodes keccak256 proof).nodeRefs (keccak256 x) ≠ none := by
  suffices hgen : ∀ refs : H256 → Option Bytes, refs (keccak256 x) ≠ none ∨ x ∈ proof →
      proof.foldl (fun refs node => Function.update refs (keccak256 node) (some node)) refs
        (keccak256 x) ≠ none from hgen _ (.inr h)
  clear h
  induction proof with
  | nil => simp
  | cons node proof ih =>
    intro refs h
    refine ih _ ?_
    by_cases hk : keccak256 x = keccak256 node
    · exact .inl (by simp [hk])
    rcases h with h | h
    · exact .inl (by simpa [hk] using h)
    · rcases mem_cons.1 h with rfl | h
      · exact absurd rfl hk
      · exact .inr h

theorem nodeRefs_keccak256 (hinj : Set.InjOn keccak256 S) (hproof : ∀ x ∈ proof, x ∈ S) (hx : x ∈ S)
    [Decidable (x ∈ proof)] :
    (ofNodes keccak256 proof).nodeRefs (keccak256 x) =
      if x ∈ proof then some x else none := by
  cases hrefs : (ofNodes keccak256 proof).nodeRefs (keccak256 x) with
  | none =>
    rw [if_neg fun hmem => nodeRefs_ne_none hmem hrefs]
  | some y =>
    obtain ⟨hmem, hy⟩ := nodeRefs_eq_some hrefs
    obtain rfl := hinj (hproof y hmem) hx hy
    rw [if_pos hmem]

/-! ### The walk over a tree -/

/-- The tree and the strings that the verifier of a range hashes. -/
structure CollisionFree (keccak256 : Bytes → H256) (t : MTree) (proof : List Bytes)
    (S : Set Bytes) : Prop where
  injOn : Set.InjOn keccak256 S
  proof : ∀ x ∈ proof, x ∈ S
  nodes : ∀ q c, Subtree t q c → encodeOf keccak256 c ∈ S

/-- A canonical tree over 32-byte keys and values that fit into memory. -/
structure KeyTree (t : MTree) : Prop where
  proper : t.Proper
  uniform : t.Uniform 64
  addressable : ∀ w v, t.lookup w = some v → Addressable v

theorem KeyTree.short (h : KeyTree t) : Short t := fun w hw =>
  (h.uniform w hw).le.trans (by decide)

theorem KeyTree.length_items (h : KeyTree t) (hc : Subtree t q c) :
    (itemsOf keccak256 c).flatten.length < 256 ^ 8 :=
  length_items_lt (hc.proper h.proper) (h.short.subtree hc) fun w v hv =>
    h.addressable (q ++ w) v (by rwa [hc.lookup_append])

def edgeOf (keccak256 : Bytes → H256) (proof : List Bytes) (left : H256)
    (right first : Option H256) : Edge where
  left := word left.bytes
  right := word (right.getD left).bytes
  first := first.map fun key => word key.bytes
  Given c := (encodeOf keccak256 c).length < 32 ∨ encodeOf keccak256 c ∈ proof

theorem getNode_given (hcf : CollisionFree keccak256 t proof S) (hc : Subtree t q c)
    (hgiven : (encodeOf keccak256 c).length < 32 ∨ encodeOf keccak256 c ∈ proof) :
    (ofNodes keccak256 proof).getNode (hashOf keccak256 c) =
      some <$> Node.decode (encodeOf keccak256 c) := by
  classical
  rw [hashOf_eq keccak256 hc.ne_nil, NodeHash.fromEncoded]
  split
  · rfl
  · rename_i hlen
    simp only [getNode, nodeRefs_keccak256 hcf.injOn hcf.proof (hcf.nodes q c hc),
      if_pos (hgiven.resolve_left hlen)]

theorem getNode_missing (hcf : CollisionFree keccak256 t proof S) (hc : Subtree t q c)
    (hgiven : ¬((encodeOf keccak256 c).length < 32 ∨ encodeOf keccak256 c ∈ proof)) :
    (ofNodes keccak256 proof).getNode (hashOf keccak256 c) = .ok none := by
  classical
  rw [not_or] at hgiven
  rw [hashOf_eq keccak256 hc.ne_nil, NodeHash.fromEncoded, dif_neg hgiven.1]
  simp only [getNode, nodeRefs_keccak256 hcf.injOn hcf.proof (hcf.nodes q c hc), if_neg hgiven.2]

theorem walksOver (ht : KeyTree t) (hcf : CollisionFree keccak256 t proof S) (left : H256)
    (right first : Option H256) :
    WalksOver keccak256 (edgeOf keccak256 proof left right first) t
      (rangeWalk keccak256 proof left right first) where
  left := fromBytes_data left.bytes
  right := fromBytes_data _
  first := by
    cases first <;> simp [rangeWalk, edgeOf]
  left_length := by simp [edgeOf, H256.size]
  right_length := by simp [edgeOf, H256.size]
  first_length k hk := by
    obtain ⟨key, -, rfl⟩ := Option.map_eq_some_iff.1 hk
    simp [H256.size]
  proper := ht.proper
  uniform := ht.uniform
  given _ _ hc hgiven := getNode_given hcf hc hgiven
  missing _ _ hc hgiven := getNode_missing hcf hc hgiven
  decode q c hc hfit := ⟨_, decode_encodeOf_of_gt hc.ne_nil (not_le.1 hfit) (ht.length_items hc)⟩

open Classical in
structure RootOutcome (keccak256 : Bytes → H256) (edge : Edge) (t : MTree)
    (order : List (Word × MTree)) (result : ProofProcessingResult) : Prop where
  perm : order.Perm (edge.visits [] t)
  clear : ∀ v ∈ order, Clear keccak256 edge v
  references : result.externalReferences = order.filterMap (reference keccak256 edge)
  count : result.numRightReferences = order.countP edge.Counted
  leftValue : (result.leftValue = [] ∧
      ∀ v ∈ order, edge.Descends v → ∀ x, ¬AtLeft edge v x) ∨
    ∃ v ∈ order, edge.Descends v ∧ ∃ x, AtLeft edge v x ∧ result.leftValue = x.val

theorem getNode_root (hcf : CollisionFree keccak256 t proof S) (ht : t ≠ .nil)
    [Decidable (encodeOf keccak256 t ∈ proof)] :
    (ofNodes keccak256 proof).getNode (.hashed (rootHashOf keccak256 t)) =
      if encodeOf keccak256 t ∈ proof then some <$> Node.decode (encodeOf keccak256 t)
      else .ok none := by
  have hS := hcf.nodes [] t (.self ht)
  simp only [getNode, rootHashOf, nodeRefs_keccak256 hcf.injOn hcf.proof hS]
  by_cases hmem : encodeOf keccak256 t ∈ proof
  · simp only [if_pos hmem]
  · simp only [if_neg hmem]

variable {edge : Edge} {v : Word × MTree} {r : Word} {s : MTree}

theorem processStack_leaf {range : RangeWalk} {w : Word} {x : Value}
    (h : WalksOver keccak256 edge (.leaf w x) range) (fuel : Nat) :
    range.processStack (fuel + 1)
      { stack := [(Nibbles.empty, shallowNode keccak256 (.leaf w x))] } = .ok ⟨[], [], 0⟩ := by
  have hne : Nibbles.empty.data ≠ range.leftBound.data := by
    rw [h.left]
    simp [Nibbles.empty, terminated]
  rw [processStack_cons rfl]
  simp only [shallowNode, RangeWalk.visitNode, Result.pure_eq_ok, Result.ok_bind, hne, and_false,
    if_false]
  exact processStack_nil rfl fuel

theorem processProofNodes_ok (ht : KeyTree t) (hcf : CollisionFree keccak256 t proof S)
    {left : H256} {right first : Option H256} {fuel : Nat} {result : ProofProcessingResult}
    (hok : processProofNodes keccak256 fuel proof (.hashed (rootHashOf keccak256 t)) left right
      first = .ok result) :
    encodeOf keccak256 t ∈ proof ∧ Fits keccak256 t ∧
      ∃ order, RootOutcome keccak256 (edgeOf keccak256 proof left right first) t order result := by
  classical
  have hwalk := walksOver ht hcf left right first
  have hself : Subtree t [] t := .self ht.proper.ne_nil
  rw [processProofNodes] at hok
  simp only [rangeWalk, getNode_root hcf ht.proper.ne_nil] at hok
  split at hok
  · rename_i hmem
    by_cases hfit : Fits keccak256 t
    · rw [decode_encodeOf ht.proper hfit] at hok
      simp only [Functor.map, Except.map, Result.ok_bind] at hok
      refine ⟨hmem, hfit, ?_⟩
      by_cases hleaf : ∃ w x, t = .leaf w x
      · obtain ⟨w, x, rfl⟩ := hleaf
        cases fuel with
        | zero =>
          rw [processStack_zero rfl] at hok
          cases hok
        | succ fuel =>
          have hrun := processStack_leaf hwalk fuel
          rw [rangeWalk] at hrun
          rw [hrun] at hok
          cases hok
          exact ⟨[], .refl _, by simp, by simp, by simp, by simp⟩
      · have hpath : visitPath ([], t) = Nibbles.empty := by
          cases t with
          | leaf w x => exact absurd ⟨w, x, rfl⟩ hleaf
          | _ => rfl
        have hqueue : ∀ v ∈ [(([] : Word), t)], Subtree t v.1 v.2 := by simpa using hself
        obtain ⟨order, hperm, hout⟩ :=
          hwalk.processStack_ok hqueue (by simp [queued, hpath]) hok
        refine ⟨order, by simpa using hperm, hout.clear, by simpa using hout.references,
          by simpa using hout.count, ?_⟩
        have hnone : ∀ x, ¬AtLeft (edgeOf keccak256 proof left right first) ([], t) x := by
          rintro x ⟨w, hw, -⟩
          exact hleaf ⟨w, x, hw⟩
        rcases hout.leftValue with ⟨hl, hall⟩ | ⟨v, hv, x, hx, hl⟩
        · refine .inl ⟨hl, fun v hv hd => hall v ?_⟩
          exact mem_append_right _ (mem_filter.2 ⟨hv, by simpa using hd⟩)
        rcases mem_append.1 hv with hv | hv
        · obtain rfl : v = ([], t) := by simpa using hv
          exact absurd hx (hnone x)
        · obtain ⟨hv, hd⟩ := mem_filter.1 hv
          exact .inr ⟨v, hv, by simpa using hd, x, hx, hl⟩
    · obtain ⟨f, hf⟩ := hwalk.decode [] t hself hfit
      rw [hf] at hok
      cases hok
  · cases hok

/-! ### Which places are visited -/

theorem Edge.subtree_of_mem_visits (ht : t.Proper) (hv : v ∈ edge.visits q t) :
    ∃ r, r ≠ [] ∧ v.1 = q ++ r ∧ Subtree t r v.2 := by
  induction t generalizing q with
  | nil => exact absurd ht id
  | leaf w x => simp [Edge.visits] at hv
  | ext w c ih =>
    rw [Edge.visits, mem_cons] at hv
    have hself : Subtree (.ext w c) (w ++ []) c := .ext (.self ht.2.2.ne_nil)
    rcases hv with rfl | hv
    · exact ⟨w, ht.1, rfl, by simpa using hself⟩
    split at hv
    · obtain ⟨r, -, hr, hsub⟩ := ih ht.2.2 hv
      exact ⟨w ++ r, by simp [ht.1], by simp [hr], .ext hsub⟩
    · simp at hv
  | branch cs x ih =>
    rw [Edge.visits, mem_flatMap] at hv
    obtain ⟨i, -, hv⟩ := hv
    split at hv
    · rename_i hi
      rcases mem_cons.1 hv with rfl | hv
      · exact ⟨[i], by simp, rfl, .branch (.self hi)⟩
      split at hv
      · obtain ⟨r, -, hr, hsub⟩ := ih i (ht.1 i hi) hv
        exact ⟨i :: r, by simp, by simp [hr], .branch hsub⟩
      · simp at hv
    · simp at hv

theorem Edge.mem_visits (hs : Subtree t r s) (hr : r ≠ []) (ht : t.Proper)
    (hdesc : ∀ r' u, Subtree t r' u → r' <+: r → r' ≠ [] → r' ≠ r → edge.Descends (q ++ r', u)) :
    (q ++ r, s) ∈ edge.visits q t := by
  induction hs generalizing q with
  | self _ => exact absurd rfl hr
  | @ext w r c s h ih =>
    rw [Edge.visits]
    by_cases hnil : r = []
    · subst hnil
      rw [h.unique (.self ht.2.2.ne_nil) ht.2.2, append_nil]
      exact mem_cons_self
    have hself : Subtree (.ext w c) (w ++ []) c := .ext (.self ht.2.2.ne_nil)
    have hd := hdesc (w ++ []) c hself (by simp) (by simp [ht.1]) (by simpa using Ne.symm hnil)
    rw [append_nil] at hd
    rw [if_pos hd, ← append_assoc]
    refine mem_cons_of_mem _ (ih hnil ht.2.2 fun r' u hu hpre hne hne' => ?_)
    rw [append_assoc]
    exact hdesc (w ++ r') u (.ext hu) ((prefix_append_right_inj w).2 hpre) (by simp [hne])
      (by simpa using hne')
  | @branch cs x i r s h ih =>
    have hi : cs i ≠ .nil := fun hnil => Subtree.not_nil (hnil ▸ h)
    rw [Edge.visits, mem_flatMap]
    refine ⟨i, mem_finRange i, ?_⟩
    rw [if_pos hi]
    by_cases hnil : r = []
    · subst hnil
      rw [h.unique (.self hi) (ht.1 i hi)]
      exact mem_cons_self
    have hd := hdesc [i] (cs i) (.branch (.self hi)) (by simp) (by simp) (by simpa using Ne.symm hnil)
    rw [if_pos hd]
    refine mem_cons_of_mem _ ?_
    have hcons : q ++ i :: r = (q ++ [i]) ++ r := append_cons q i r
    rw [hcons]
    refine ih hnil (ht.1 i hi) fun r' u hu hpre hne hne' => ?_
    rw [append_assoc]
    exact hdesc (i :: r') u (.branch hu) (by simpa using hpre) (by simp) (by simpa using hne')

theorem Edge.OnEdge.not_inside (h : edge.OnEdge q) : ¬edge.Inside q := by
  rintro ⟨hl, hr⟩
  rcases h with h | h
  · exact hl.not_isPrefix' h
  · exact hr.not_isPrefix h

theorem descends_of_onEdge (hclear : Clear keccak256 edge v) (hon : edge.OnEdge v.1)
    (hfirst : ¬edge.BeforeFirst v.1) : edge.Descends v := by
  refine ⟨hon.not_inside, ?_, hfirst⟩
  rcases hclear with hin | ⟨hgiven, -⟩ | ⟨-, hoff⟩
  · exact absurd hin hon.not_inside
  · exact hgiven
  · exact absurd hon hoff

theorem mem_visits_of_onEdge (ht : t.Proper)
    (hclear : ∀ v ∈ edge.visits [] t, Clear keccak256 edge v) (hs : Subtree t r s) (hr : r ≠ [])
    (hon : ∀ r' u, Subtree t r' u → r' <+: r → r' ≠ [] → r' ≠ r →
      edge.OnEdge r' ∧ ¬edge.BeforeFirst r') : (r, s) ∈ edge.visits [] t := by
  induction hlen : r.length using Nat.strong_induction_on generalizing r s with
  | _ n ih =>
    subst hlen
    refine Edge.mem_visits (q := []) hs hr ht fun r' u hu hpre hne hne' => ?_
    have hlt : r'.length < r.length := lt_of_le_of_ne hpre.length_le fun heq =>
      hne' (hpre.eq_of_length heq)
    have hmem := ih _ hlt hu hne (fun p u hu hp hpne _ => hon p u hu (hp.trans hpre) hpne fun heq => by
      subst heq
      exact absurd hp.length_le (by omega)) rfl
    obtain ⟨hedge, hfirst⟩ := hon r' u hu hpre hne hne'
    exact descends_of_onEdge (hclear _ hmem) hedge hfirst

theorem exists_counted (ht : t.Proper) (hclear : ∀ v ∈ edge.visits [] t, Clear keccak256 edge v)
    (hbounds : edge.left = edge.right ∨ Before edge.left edge.right)
    (hfirst : ∀ q, q <+: edge.right → ¬edge.BeforeFirst q) {k : Word} (hk : Before edge.right k)
    (hs : Subtree t r s) (hrk : r <+: k) (hr : ¬r <+: edge.right) :
    ∃ v ∈ edge.visits [] t, edge.Counted v := by
  induction hlen : r.length using Nat.strong_induction_on generalizing r s with
  | _ n ih =>
    subst hlen
    by_cases habove : ∃ r' u, Subtree t r' u ∧ r' <+: r ∧ r' ≠ r ∧ ¬r' <+: edge.right
    · obtain ⟨r', u, hu, hpre, hne, hout⟩ := habove
      exact ih _ (lt_of_le_of_ne hpre.length_le fun heq => hne (hpre.eq_of_length heq)) hu
        (hpre.trans hrk) hout rfl
    have hnil : r ≠ [] := by
      rintro rfl
      exact hr nil_prefix
    refine ⟨(r, s), mem_visits_of_onEdge ht hclear hs hnil fun r' u hu hpre _ hne => ?_, ?_⟩
    · have hon : r' <+: edge.right := by
        by_contra hout
        exact habove ⟨r', u, hu, hpre, hne, hout⟩
      exact ⟨.inr hon, hfirst r' hon⟩
    · have hright : Before edge.right r := (hk.of_isPrefix hrk).resolve_left hr
      rcases hbounds with heq | hlt
      · exact ⟨heq ▸ hright, hright⟩
      · exact ⟨hlt.trans hright, hright⟩

theorem Edge.Counted.exists_lookup (ht : t.Proper) (hv : v ∈ edge.visits [] t)
    (h : edge.Counted v) : ∃ k, Before edge.right k ∧ t.lookup k ≠ none := by
  obtain ⟨r, -, hr, hs⟩ := Edge.subtree_of_mem_visits ht hv
  obtain ⟨k, hk⟩ := (hs.proper ht).exists_lookup
  rw [nil_append] at hr
  refine ⟨r ++ k, h.2.mono prefix_rfl (hr ▸ prefix_append _ _), ?_⟩
  rwa [hs.lookup_append]

end

/-! ### When a range is accepted -/

section

variable (keccak256 : Bytes → H256) (fuel : Nat) (root left : H256)

/-- The ways in which `verify_range` accepts, with the flag it returns. -/
inductive Accepts : List H256 → List Bytes → List Bytes → Bool → Prop where
  | whole {keys : List H256} {values : List Bytes} {trie trie' : Trie NullTrieDB}
      (hinsert : insertRange keccak256 fuel Trie.stateless (keys.zip values) = .ok trie)
      (hhash : trie.hash keccak256 = .ok (root, trie')) : Accepts keys values [] false
  | noKeys {values proof : List Bytes} {result : ProofProcessingResult}
      (hwalk : processProofNodes keccak256 fuel proof (.hashed root) left none none = .ok result)
      (hcount : result.numRightReferences = 0) (hvalue : result.leftValue = []) :
      Accepts [] values proof false
  | oneKey {value : Bytes} {proof : List Bytes} {result : ProofProcessingResult}
      (hwalk : processProofNodes keccak256 fuel proof (.hashed root) left (some left)
        (some left) = .ok result)
      (hvalue : result.leftValue = value) :
      Accepts [left] [value] proof (decide (result.numRightReferences > 0))
  | regular {key : H256} {keys : List H256} {values proof : List Bytes}
      {result : ProofProcessingResult} {trie : Trie NullTrieDB}
      (hlast : left < (key :: keys).getLast (by simp))
      (hrebuild : rebuild keccak256 fuel root left ((key :: keys).getLast (by simp)) key
        ((key :: keys).zip values) proof = .ok (result, trie))
      (hhash : ProofTrie.hash keccak256 trie = root) :
      Accepts (key :: keys) values proof (decide (result.numRightReferences > 0))

end

theorem accepts_of_verifyRange {keccak256 : Bytes → H256} {fuel : Nat} {root left : H256}
    {keys : List H256} {values proof : List Bytes} {more : Bool}
    (hok : verifyRange keccak256 fuel root left keys values proof = .ok more) :
    keys.length = values.length ∧ (∀ w ∈ keys.zip keys.tail, w.1 < w.2) ∧
      [] ∉ values ∧ Accepts keccak256 fuel root left keys values proof more := by
  rw [verifyRange.eq_def] at hok
  split at hok
  · cases hok
  rename_i hlen
  split at hok
  · cases hok
  rename_i hmono
  split at hok
  · cases hok
  rename_i hempty
  rw [not_ne_iff] at hlen
  refine ⟨hlen, by simpa using hmono, by simpa using hempty, ?_⟩
  split at hok
  · rename_i hproof
    obtain rfl : proof = [] := by simpa using hproof
    obtain ⟨trie, hinsert, hok⟩ := bind_eq_ok.1 hok
    obtain ⟨⟨hash, trie'⟩, hhash, hok⟩ := bind_eq_ok.1 hok
    simp only at hok
    split at hok
    · cases hok
    rename_i heq
    rw [not_ne_iff] at heq
    cases hok
    exact .whole hinsert (heq ▸ hhash)
  split at hok
  · obtain ⟨result, hwalk, hok⟩ := bind_eq_ok.1 hok
    split at hok
    · cases hok
    rename_i hnone
    cases hok
    simp only [gt_iff_lt, Bool.not_eq_true', not_or, not_lt, Nat.le_zero, Bool.not_eq_false,
      List.isEmpty_iff] at hnone
    exact .noKeys hwalk hnone.1 hnone.2
  · rename_i key rest
    simp only at hok
    split at hok
    · rename_i hone
      split at hok
      · cases hok
      rename_i hkey
      rw [not_ne_iff] at hkey
      obtain ⟨result, hwalk, hok⟩ := bind_eq_ok.1 hok
      split at hok
      · cases hok
      rename_i hvalue
      rw [not_ne_iff] at hvalue
      cases hok
      obtain rfl : rest = [] := by simpa using hone.1
      subst hkey
      obtain ⟨value, rfl⟩ := length_eq_one_iff.1 hlen.symm
      exact .oneKey hwalk (by simpa using hvalue.symm)
    · split at hok
      · cases hok
      rename_i hlast
      obtain ⟨⟨result, trie⟩, hrebuild, hok⟩ := bind_eq_ok.1 hok
      simp only at hok
      split at hok
      · cases hok
      rename_i hhash
      cases hok
      exact .regular (not_le.1 hlast) hrebuild (not_ne_iff.1 hhash)

end Ethrex.Mpt
