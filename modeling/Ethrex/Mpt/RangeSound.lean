import Ethrex.Mpt.RangeProof
import Ethrex.Mpt.HashInsert
import Ethrex.Journal.Timeline

/-!
# What an accepted range says

The trie of the statements is the one that inserting its entries builds, and the root hash is that
trie's.  The proof is any list of strings.
-/

namespace Ethrex.Mpt

open Patricia Rlp List
open Prod (ext fst mk)

/-! ### The tree of the entries -/

def HoldsEntries (t : MTree) (entries : List (H256 × Value)) : Prop :=
  ∀ w v, t.lookup w = some v ↔ ∃ e ∈ entries, word e.1.bytes = w ∧ e.2 = v

theorem wordMap_eq_some_iff {entries : List (H256 × Value)}
    (hnodup : (entries.map fst).Nodup) {m : Word → Option Value} {w : Word} {v : Value}
    (hm : ∀ e ∈ entries, m (word e.1.bytes) = none) :
    wordMap m entries w = some v ↔ m w = some v ∨ ∃ e ∈ entries, word e.1.bytes = w ∧ e.2 = v := by
  induction entries generalizing m with
  | nil => simp [wordMap]
  | cons e entries ih =>
    rw [map_cons, nodup_cons] at hnodup
    have hne : ∀ e' ∈ entries, word e'.1.bytes ≠ word e.1.bytes := fun e' he' heq =>
      hnodup.1 (mem_map.2 ⟨e', he', H256.bytes_injective (word_injective heq)⟩)
    have hstep := ih hnodup.2 (m := Function.update m (word e.1.bytes) (some e.2)) fun e' he' => by
      rw [Function.update_of_ne (hne e' he')]
      exact hm e' (by simp [he'])
    rw [wordMap] at hstep ⊢
    rw [foldl_cons, hstep, Function.update_apply]
    have hfree := hm e (by simp)
    by_cases hw : w = word e.1.bytes
    · subst hw
      simp [hfree]
    · simp [hw, Ne.symm hw]

section

variable {keccak256 : Bytes → H256} {entries : List (H256 × Value)} {t : MTree}

variable (h : HoldsEntries t entries)

include h

theorem HoldsEntries.uniform : t.Uniform 64 := by
  intro w hw
  obtain ⟨v, hv⟩ := Option.ne_none_iff_exists'.1 hw
  obtain ⟨e, -, rfl, -⟩ := (h w v).1 hv
  simp [H256.size]

variable {e : H256 × Value}

theorem HoldsEntries.lookup (he : e ∈ entries) :
    t.lookup (word e.1.bytes) = some e.2 := (h _ _).2 ⟨e, he, rfl, rfl⟩

theorem HoldsEntries.mem_iff :
    e ∈ entries ↔ t.lookup (word e.1.bytes) = some e.2 := by
  refine ⟨h.lookup, fun hv => ?_⟩
  obtain ⟨e', he', hkey, hvalue⟩ := (h _ _).1 hv
  rwa [← ext (H256.bytes_injective (word_injective hkey)) hvalue]

theorem HoldsEntries.proper (hc : t.Canonical) (hne : entries ≠ []) :
    t.Proper := by
  obtain ⟨e, rest, rfl⟩ := exists_cons_of_ne_nil hne
  refine hc fun hnil => ?_
  have hlookup := h.lookup (e := e) (by simp)
  simp [hnil] at hlookup

theorem HoldsEntries.keyTree (hc : t.Canonical) (hne : entries ≠ [])
    (hvalues : ∀ e ∈ entries, Addressable e.2) : KeyTree t where
  proper := h.proper hc hne
  uniform := h.uniform
  addressable w v hv := by
    obtain ⟨e, he, -, rfl⟩ := (h w v).1 hv
    exact hvalues e he

omit h

theorem exists_holdsEntries {D : Type} [TrieDB D] (db : D)
    (hsorted : (entries.map fst).Pairwise (· < ·)) {fuel : Nat} (hf : 67 ≤ fuel) :
    ∃ trie t outs, run keccak256 fuel (Trie.new db)
        (insertions (entries.map fun e => (e.1.bytes, e.2))) = .ok (trie, outs) ∧
      Unhashed keccak256 trie t ∧ HoldsEntries t entries := by
  have hnew : Unhashed keccak256 (Trie.new db) .nil := trieDenotes_new db
  have hfuel : ∀ e ∈ entries.map fun e => (e.1.bytes, e.2), 2 * e.1.length + 3 ≤ fuel := by
    rintro e he
    obtain ⟨e, -, rfl⟩ := mem_map.1 he
    rw [e.1.size]
    omega
  obtain ⟨trie, t, outs, hrun, hd, -, hlookup⟩ := run_insertions_unhashed hnew rfl _ hfuel
  refine ⟨trie, t, outs, hrun, hd, fun w v => ?_⟩
  have hnodup : (entries.map fst).Nodup := hsorted.imp fun hlt => ne_of_lt hlt
  have hnil : (.nil : MTree).lookup = fun _ => none := funext Tree.lookup_nil
  have hmap := wordMap_eq_some_iff hnodup (m := fun _ => none) (w := w) (v := v) (by simp)
  rw [hlookup, foldl_map, hnil]
  simpa [wordMap] using hmap

theorem tree_of_run (hsorted : (entries.map fst).Pairwise (· < ·))
    {trie : Trie InMemoryTrieDB} {outs : List (Option Bytes)}
    (hrun : run keccak256 67 (Trie.new InMemoryTrieDB.newEmpty)
      (insertions (entries.map fun e => (e.1.bytes, e.2))) = .ok (trie, outs)) :
    ∃ t, HoldsEntries t entries ∧ t.Canonical ∧
      (trie.hashNoCommit keccak256).1 = trieHashOf keccak256 t ∧
      ∀ q c, Subtree t q c → encodeOf keccak256 c ∈ trie.root.encodings keccak256 := by
  obtain ⟨trie', t, outs', hrun', hd, hholds⟩ :=
    @exists_holdsEntries keccak256 _ _ _ InMemoryTrieDB.newEmpty hsorted _ le_rfl
  rw [hrun] at hrun'
  cases hrun'
  refine ⟨t, hholds, hd.canonical, hd.hashNoCommit, fun q c hc => ?_⟩
  rcases hd.root.encodeOf_mem hc with hmem | ⟨_, _, _, hs, _⟩
  · exact hmem
  · exact hs.elim

theorem before_or_eq {k l : H256} (h : k ≤ l) :
    word k.bytes = word l.bytes ∨ Before (word k.bytes) (word l.bytes) := by
  rcases h.eq_or_lt with rfl | hlt
  · exact .inl rfl
  · exact .inr (before_key hlt)

theorem HoldsEntries.exists_subtree (h : HoldsEntries t entries) {e' : H256 × Value}
    (he : e ∈ entries) (he' : e' ∈ entries) (hne : e'.1 ≠ e.1) :
    ∃ q s, Subtree t q s ∧ q <+: word e.1.bytes ∧
      q.length = lcp (word e.1.bytes) (word e'.1.bytes) + 1 := by
  have hk := h.lookup he
  have hl := h.lookup he'
  have hwords : word e.1.bytes ≠ word e'.1.bytes := fun heq =>
    hne (H256.bytes_injective (word_injective heq)).symm
  have hlen : (word e.1.bytes).length = (word e'.1.bytes).length := by simp [H256.size]
  obtain ⟨c, k, l, hk', hl', hlcp, hhead⟩ := lcp_spec (word e.1.bytes) (word e'.1.bytes)
  rw [hk'] at hk hlen hwords
  rw [hl'] at hl hlen hwords
  cases k with
  | nil =>
    have hnil : l = [] := eq_nil_of_length_eq_zero (by simpa using hlen)
    exact absurd (by rw [hnil]) hwords
  | cons a k =>
    obtain ⟨s, hs⟩ := Tree.exists_subtree_of_diverges (by rw [hk]; simp) (m := l)
      (by rw [hl]; simp) (fun heq => hhead a rfl heq)
    exact ⟨c ++ [a], s, hs, by rw [hk']; simp, by simp [hlcp]⟩

end

section

variable {keccak256 : Bytes → H256} {entries : List (H256 × Value)} {t : MTree}
  {proof : List Bytes}
variable {S : Set Bytes} {left : H256} {fuel : Nat} {result : ProofProcessingResult}

variable (ht : KeyTree t) (hcf : CollisionFree keccak256 t proof S)
  (hok : processProofNodes keccak256 fuel proof (.hashed (rootHashOf keccak256 t)) left none none = .ok result)

include ht hcf hok

theorem leftValue_ne_nil {x : Value} (hx : t.lookup (word left.bytes) = some x) {l : Word}
    (hl : t.lookup l ≠ none) (hne : l ≠ word left.bytes) : result.leftValue ≠ [] := by
  obtain ⟨-, -, order, hout⟩ := processProofNodes_ok ht hcf hok
  have hclear : ∀ v ∈ (edgeOf keccak256 proof left none none).visits [] t,
      Clear keccak256 (edgeOf keccak256 proof left none none) v := fun v hv =>
    hout.clear v (hout.perm.mem_iff.2 hv)
  have hfirst : ∀ q, ¬(edgeOf keccak256 proof left none none).BeforeFirst q := by
    rintro q ⟨k, hk, -⟩
    cases hk
  obtain ⟨q, w, hleaf, hleft⟩ := ht.uniform.exists_leaf ht.proper hx
  have hq : q ≠ [] := by
    rintro rfl
    have hroot := hleaf.unique (.self ht.proper.ne_nil) ht.proper
    rw [← hroot, Tree.lookup_leaf] at hl
    exact hl (if_neg fun heq => hne (by rw [heq, hleft, nil_append]))
  have hon : ∀ p, p <+: q → (edgeOf keccak256 proof left none none).OnEdge p := fun p hp =>
    .inl (hp.trans (by rw [edgeOf, hleft]; exact prefix_append _ _))
  have hmem := mem_visits_of_onEdge ht.proper hclear hleaf hq fun p u _ hp _ _ =>
    ⟨hon p hp, hfirst p⟩
  have hdesc := descends_of_onEdge (hclear _ hmem) (hon q prefix_rfl) (hfirst q)
  rcases hout.leftValue with ⟨-, hnone⟩ | ⟨_, _, _, y, _, hy⟩
  · exact absurd ⟨w, rfl, hleft.symm⟩ (hnone _ (hout.perm.mem_iff.2 hmem) hdesc x)
  · rw [hy]
    exact y.property

theorem numRightReferences_pos {k q : Word} {s : MTree} (hk : Before (word left.bytes) k)
    (hs : Subtree t q s) (hq : q <+: k) (hout : ¬q <+: word left.bytes) :
    0 < result.numRightReferences := by
  obtain ⟨-, -, order, h⟩ := processProofNodes_ok ht hcf hok
  obtain ⟨v, hv, hcounted⟩ := @exists_counted _ _
    (edgeOf keccak256 proof left none none) _ _ ht.proper
    (fun v hv => h.clear v (h.perm.mem_iff.2 hv)) (.inl rfl)
    (by rintro p - ⟨k, hk, -⟩; cases hk) _ hk hs hq hout
  rw [h.count, countP_pos_iff]
  exact ⟨v, h.perm.mem_iff.2 hv, by simpa using hcounted⟩

omit ht hcf hok

/-- An entry at or right of the left bound is noticed if it parts from another entry no earlier
than from the bound. -/
theorem key_lt_of_noKeys (ht : KeyTree t) (hholds : HoldsEntries t entries)
    (hcf : CollisionFree keccak256 t proof S)
    (hok : processProofNodes keccak256 fuel proof (.hashed (rootHashOf keccak256 t)) left none
      none = .ok result) (hcount : result.numRightReferences = 0) (hvalue : result.leftValue = [])
    {e e' : H256 × Value} (he : e ∈ entries) (he' : e' ∈ entries) (hne : e'.1 ≠ e.1)
    (hlcp : lcp (word e.1.bytes) (word left.bytes) ≤ lcp (word e.1.bytes) (word e'.1.bytes)) :
    e.1 < left := by
  by_contra hge
  rcases (not_lt.1 hge).eq_or_lt with heq | hlt
  · refine leftValue_ne_nil ht hcf hok (x := e.2) (by rw [heq]; exact hholds.lookup he)
      (l := word e'.1.bytes) (by rw [hholds.lookup he']; simp) ?_ hvalue
    rw [heq]
    exact fun h => hne (H256.bytes_injective (word_injective h))
  · obtain ⟨q, s, hs, hq, hlen⟩ := hholds.exists_subtree he he' hne
    have hpos := numRightReferences_pos ht hcf hok (before_key hlt) hs hq fun hleft => by
      have := length_le_lcp hq hleft
      omega
    omega

/-- `verify_range` without keys returns `false`, and then no entry is at or right of the left bound
unless it stands alone on the way there: the walk compares such a leaf by the path above it only. -/
theorem verifyRange_noKeys (keccak256 : Bytes → H256) (hnull : keccak256 [rlpNull] = emptyTrieHash)
    (entries : List (H256 × Value)) (hsorted : (entries.map Prod.fst).Pairwise (· < ·))
    (hvalues : ∀ e ∈ entries, Addressable e.2) (trie : Trie InMemoryTrieDB)
    (outs : List (Option Bytes))
    (hrun : run keccak256 67 (Trie.new InMemoryTrieDB.newEmpty)
      (insertions (entries.map fun e => (e.1.bytes, e.2))) = .ok (trie, outs))
    (left : H256) (proof : List Bytes) (fuel : Nat)
    (hinj : Set.InjOn keccak256
      {x | x ∈ [rlpNull] :: proof ++ trie.root.encodings keccak256})
    (more : Bool)
    (hok : verifyRange keccak256 fuel (trie.hashNoCommit keccak256).1 left [] [] proof =
      .ok more) :
    more = false ∧ ((∀ e ∈ entries, e.1 < left) ↔ ∀ e ∈ entries, left ≤ e.1 →
      ∃ e' ∈ entries, e'.1 ≠ e.1 ∧
        lcp (word e.1.bytes) (word left.bytes) ≤ lcp (word e.1.bytes) (word e'.1.bytes)) := by
  obtain ⟨t, hholds, hcan, hroot, henc⟩ := tree_of_run hsorted hrun
  rw [hroot] at hok
  obtain ⟨-, -, -, haccepts⟩ := accepts_of_verifyRange hok
  refine ⟨by cases haccepts <;> rfl, fun hall e he hle => absurd (hall e he) (not_lt.2 hle),
    fun hcond e he => ?_⟩
  have ht : KeyTree t := hholds.keyTree hcan (ne_nil_of_mem he) hvalues
  have hcf : CollisionFree keccak256 t proof
      {x | x ∈ [rlpNull] :: proof ++ trie.root.encodings keccak256} :=
    ⟨hinj, fun x hx => by simp [hx], fun q c hc => by simp [henc q c hc]⟩
  rw [trieHashOf_of_ne_nil ht.proper.ne_nil] at haccepts
  cases haccepts with
  | whole hinsert hhash =>
    cases hinsert
    have hempty : rootHashOf keccak256 t = emptyTrieHash := (congrArg Prod.fst (Except.ok.inj hhash)).symm
    rw [rootHashOf, ← hnull] at hempty
    exact absurd (hinj (hcf.nodes [] t (.self ht.proper.ne_nil)) (by simp) hempty)
      (encodeOf_ne_rlpNull ht.proper.ne_nil)
  | noKeys hwalk hcount hvalue =>
    by_contra hge
    obtain ⟨e', he', hne, hlcp⟩ := hcond e he (not_lt.1 hge)
    exact hge (key_lt_of_noKeys ht hholds hcf hwalk hcount hvalue he he' hne hlcp)

end

def rangeDigests : List (Bytes × H256) := ([rlpNull], emptyTrieHash) :: twoKeyDigests

def rangeKeccak : Bytes → H256 := keccakTable rangeDigests

theorem rangeKeccak_injOn {xs : List Bytes} (h : ∀ x ∈ xs, x ∈ rangeDigests.map fst) :
    Set.InjOn rangeKeccak {x | x ∈ xs} :=
  (keccakTable_injOn (by decide +kernel)).mono h

def oneEntry : List (H256 × Value) := [(.repeatByte 0x11, ⟨[1], by decide⟩)]

def oneEntryProof : List Bytes := [[0xe3, 0xa1, 0x20] ++ List.replicate 32 0x11 ++ [0x01]]

/-- The leaf is right of the bound, but it is the root and no child, so that it is not counted. -/
theorem verifyRange_noKeys_hides_root :
    ∃ trie outs, run rangeKeccak 67 (Trie.new InMemoryTrieDB.newEmpty)
        (insertions (oneEntry.map fun e => (e.1.bytes, e.2))) = .ok (trie, outs) ∧
      Set.InjOn rangeKeccak {x | x ∈ [rlpNull] :: oneEntryProof ++ trie.root.encodings rangeKeccak} ∧
      verifyRange rangeKeccak 67 (trie.hashNoCommit rangeKeccak).1 (.repeatByte 0x10) [] []
        oneEntryProof = .ok false ∧
      ¬∀ e ∈ oneEntry, e.1 < .repeatByte 0x10 :=
  ⟨_, _, rfl, rangeKeccak_injOn (by decide +kernel), by decide +kernel, by decide +kernel⟩

def twoEntries : List (H256 × Value) :=
  [(.repeatByte 0x11, ⟨[1], by decide⟩), (.repeatByte 0x22, ⟨[2], by decide⟩)]

def twoEntriesProof : List Bytes := (rangeDigests.map fst).drop 2

/-- The second entry is a child on the way to the bound and left of it. -/
theorem verifyRange_noKeys_right_of_entries :
    ∃ trie outs, run rangeKeccak 67 (Trie.new InMemoryTrieDB.newEmpty)
        (insertions (twoEntries.map fun e => (e.1.bytes, e.2))) = .ok (trie, outs) ∧
      verifyRange rangeKeccak 67 (trie.hashNoCommit rangeKeccak).1 (.repeatByte 0x23) [] []
        twoEntriesProof = .ok false ∧
      ∀ e ∈ twoEntries, e.1 < .repeatByte 0x23 := by
  refine ⟨_, _, rfl, by decide +kernel, ?_⟩
  refine (verifyRange_noKeys rangeKeccak (by decide +kernel) twoEntries (by decide +kernel)
    (by simp [twoEntries, Addressable]) _ _ rfl (.repeatByte 0x23) twoEntriesProof 67
    (rangeKeccak_injOn (by decide +kernel)) false (by decide +kernel)).2.2 ?_
  decide +kernel

def RefersTo (keccak256 : Bytes → H256) (ref : Nibbles × NodeHash) (r : Word × MTree) : Prop :=
  ∃ e, IsEnd e ∧ ref.1.data = hex r.1 ++ e ∧ ref.2 = hashOf keccak256 r.2

open Classical in
noncomputable def graftOf (edge : Edge) (v : Word × MTree) : Option (Word × MTree) :=
  if edge.Inside v.1 then none
  else if edge.Given v.2 ∧ ¬edge.BeforeFirst v.1 then
    if Before edge.right (visitWord v) then some (visitWord v, v.2) else none
  else some v

section

variable {keccak256 : Bytes → H256} {edge : Edge}

theorem visitPath_refersTo (v : Word × MTree) :
    RefersTo keccak256 (visitPath v, hashOf keccak256 v.2) (visitWord v, v.2) := by
  obtain ⟨q, c⟩ := v
  cases c with
  | leaf w x => exact ⟨[16], .inr rfl, rfl, rfl⟩
  | _ => exact ⟨[], .inl rfl, by simp [visitPath, visitWord], rfl⟩

theorem reference_refersTo (vs : List (Word × MTree)) :
    List.Forall₂ (RefersTo keccak256) (vs.filterMap (reference keccak256 edge))
      (vs.filterMap (graftOf edge)) := by
  induction vs with
  | nil => exact .nil
  | cons v vs ih =>
    simp only [filterMap_cons, reference, graftOf]
    by_cases hin : edge.Inside v.1
    · simpa only [if_pos hin] using ih
    simp only [if_neg hin]
    by_cases hgiven : edge.Given v.2 ∧ ¬edge.BeforeFirst v.1
    · simp only [if_pos hgiven]
      by_cases hright : Before edge.right (visitWord v)
      · simp only [if_pos hright]
        exact .cons (visitPath_refersTo v) ih
      · simpa only [if_neg hright] using ih
    · simp only [if_neg hgiven]
      exact .cons ⟨[], .inl rfl, by simp, rfl⟩ ih

variable {t : MTree} {fuel : Nat} {trie' : Trie NullTrieDB} {given : List (H256 × Value)}
  {r : Word × MTree}

theorem insertReferences_ok {g : MTree} (ht : t.Proper) (hg : g.Proper)
    {refs : List (Nibbles × NodeHash)} {rs : List (Word × MTree)}
    (hrefs : List.Forall₂ (RefersTo keccak256) refs rs) (hrs : ∀ r ∈ rs, ∃ q, Subtree t q r.2)
    {Memo : List UInt8 → MTree → Prop} {trie : Trie NullTrieDB} {n : Node}
    (hroot : trie.root = .node n none)
    (hn : NodeDenotes keccak256 Memo (fun _ u => ∃ q, Subtree t q u) [] n g)
    (hok : insertReferences keccak256 fuel trie refs = .ok trie') :
    ∃ g' n', g.graftAll rs = some g' ∧ trie'.root = .node n' none ∧
      NodeDenotes keccak256 Memo (fun _ u => ∃ q, Subtree t q u) [] n' g' := by
  induction hrefs generalizing trie n g with
  | nil =>
    cases hok
    exact ⟨g, n, rfl, hroot, hn⟩
  | @cons ref r refs rs href _ ih =>
    obtain ⟨k, c⟩ := r
    obtain ⟨path, hash⟩ := ref
    obtain ⟨e, he, hpath, rfl⟩ := href
    obtain ⟨q, hc⟩ := hrs (k, c) (by simp)
    obtain ⟨trie₁, hinsert, hrest⟩ := bind_eq_ok.1 hok
    simp only [ProofTrie.insert, hroot, NodeRef.isValid, if_true, NodeRef.getNodeMut,
      Result.ok_bind] at hinsert
    obtain ⟨m, hm, htrie⟩ := bind_eq_ok.1 hinsert
    cases htrie
    have hopens : Opens fun _ u => ∃ q, Subtree t q u := by
      rintro p u ⟨q, hu⟩
      exact ⟨hu.proper ht, fun r s hs _ => ⟨q ++ r, hu.trans hs⟩⟩
    obtain ⟨g₁, hgraft, hden⟩ := hn.insert_hash hg he hpath hopens hc.ne_nil (fun _ => ⟨q, hc⟩) hm
    obtain ⟨g', n', hall, hroot', hden'⟩ :=
      ih (hg.canonical.graft (hc.proper ht) hgraft) (fun r hr => hrs r (by simp [hr])) rfl hden hrest
    exact ⟨g', n', by simp [Tree.graftAll, hgraft, hall], hroot', hden'⟩

theorem insertRange_eq_run (fuel : Nat) (trie : Trie NullTrieDB) (given : List (H256 × Value)) :
    insertRange keccak256 fuel trie (accounts given) =
      fst <$> run keccak256 fuel trie (insertions (given.map fun e => (e.1.bytes, e.2))) := by
  induction given generalizing trie with
  | nil => rfl
  | cons e given ih =>
    have ih' := fun trie => ih trie
    simp only [accounts, insertions] at ih'
    simp only [accounts, insertions, map_cons, insertRange, run, Step.run]
    cases trie.insert keccak256 fuel e.1.bytes e.2.val with
    | error f => rfl
    | ok trie₁ =>
      simp only [Result.ok_bind, ih']
      cases run keccak256 fuel trie₁ _ <;> rfl

theorem insertRange_accounts (hsorted : (given.map fst).Pairwise (· < ·)) (hf : 67 ≤ fuel) :
    ∃ trie g, insertRange keccak256 fuel Trie.stateless (accounts given) = .ok trie ∧
      Unhashed keccak256 trie g ∧ HoldsEntries g given := by
  obtain ⟨trie, g, outs, hrun, hd, hholds⟩ :=
    @exists_holdsEntries keccak256 _ _ _ ({} : NullTrieDB) hsorted _ hf
  refine ⟨trie, g, ?_, hd, hholds⟩
  rw [insertRange_eq_run, Trie.stateless, hrun]
  rfl

theorem graftOf_eq_some {v : Word × MTree} (h : graftOf edge v = some r) :
    r.2 = v.2 ∧ (r.1 = v.1 ∨ r.1 = visitWord v) := by
  rw [graftOf] at h
  split at h
  · cases h
  split at h
  · split at h
    · cases h
      exact ⟨rfl, .inr rfl⟩
    · cases h
  · cases h
    exact ⟨rfl, .inl rfl⟩

theorem isPrefix_visitWord (v : Word × MTree) : v.1 <+: visitWord v := by
  obtain ⟨q, c⟩ := v
  cases c with
  | leaf w x => exact prefix_append q w
  | _ => exact prefix_rfl

theorem KeyTree.length_visitWord (ht : KeyTree t) {v : Word × MTree} (hv : Subtree t v.1 v.2) :
    (visitWord v).length ≤ 64 := by
  obtain ⟨q, c⟩ := v
  obtain ⟨k, hk⟩ := (hv.proper ht.proper).exists_lookup
  have hlen := ht.uniform.subtree hv hk
  cases c with
  | leaf w x =>
    obtain rfl : k = w := by
      by_contra hne
      exact hk (by simp [hne])
    simpa [visitWord] using hlen.le
  | _ => exact (Nat.le_add_right _ _).trans hlen.le

theorem KeyTree.graftOf_length (ht : KeyTree t) {v : Word × MTree} (hv : Subtree t v.1 v.2)
    (h : graftOf edge v = some r) : v.1 <+: r.1 ∧ r.1.length ≤ 64 := by
  have hlen := ht.length_visitWord hv
  have hpre := isPrefix_visitWord v
  obtain ⟨-, hr | hr⟩ := graftOf_eq_some h
  · rw [hr]
    exact ⟨prefix_rfl, hpre.length_le.trans hlen⟩
  · rw [hr]
    exact ⟨hpre, hlen⟩

/-- In the regular case with the right root hash, the trie consists of the given entries and of the
references, each where it was found. -/
theorem rebuild_ok (ht : KeyTree t) {proof : List Bytes} {S : Set Bytes}
    (hcf : CollisionFree keccak256 t proof S) (hne : given ≠ [])
    (hsorted : (given.map fst).Pairwise (· < ·)) (hf : 67 ≤ fuel) {left last first : H256}
    {result : ProofProcessingResult}
    (hrebuild : rebuild keccak256 fuel (rootHashOf keccak256 t) left last first (accounts given)
      proof = .ok (result, trie')) (hhash : ProofTrie.hash keccak256 trie' = rootHashOf keccak256 t)
    (hS : ∀ x ∈ trie'.root.encodings keccak256, x ∈ S) :
    ∃ order g, RootOutcome keccak256 (edgeOf keccak256 proof left (some last) (some first)) t order
        result ∧ HoldsEntries g given ∧ (∀ w, g.lookup w ≠ none → t.lookup w = g.lookup w) ∧
      ∀ w, t.lookup w ≠ none → g.lookup w ≠ none ∨ ∃ v ∈ order,
        graftOf (edgeOf keccak256 proof left (some last) (some first)) v ≠ none ∧
          ∃ w', w = v.1 ++ w' ∧ v.2.lookup w' ≠ none := by
  rw [rebuild] at hrebuild
  obtain ⟨result₁, hwalk, hrebuild⟩ := bind_eq_ok.1 hrebuild
  obtain ⟨trie₀, hrange, hrebuild⟩ := bind_eq_ok.1 hrebuild
  obtain ⟨trie₁, hrefs, hrebuild⟩ := bind_eq_ok.1 hrebuild
  cases hrebuild
  obtain ⟨-, -, order, hout⟩ := processProofNodes_ok ht hcf hwalk
  obtain ⟨trie₂, g, hrange', hd, hholds⟩ := @insertRange_accounts keccak256 _ _ hsorted hf
  rw [hrange] at hrange'
  cases hrange'
  have hg := hholds.proper hd.canonical hne
  have hsub : ∀ v ∈ order, Subtree t v.1 v.2 := fun v hv => by
    obtain ⟨r, -, hr, hs⟩ := Edge.subtree_of_mem_visits ht.proper (hout.perm.mem_iff.1 hv)
    rw [hr]
    exact hs
  -- the references are grafted onto the tree of the given entries
  obtain ⟨n, hroot, hn⟩ : ∃ n, trie₀.root = .node n none ∧
      NodeDenotes keccak256 (fun _ _ => False) (fun _ u => ∃ q, Subtree t q u) [] n g := by
    have hr := hd.root
    generalize trie₀.root = r at hr
    cases hr with
    | nil => exact absurd hg id
    | fresh hn => exact ⟨_, rfl, hn.mono (fun _ _ _ h => h) fun _ _ _ h => h.elim⟩
    | memo _ _ hm => exact hm.elim
    | stored _ hs => exact hs.elim
  have hrs : ∀ r ∈ order.filterMap (graftOf (edgeOf keccak256 proof left (some last) (some first))),
      ∃ q, Subtree t q r.2 := by
    intro r hr
    obtain ⟨v, hv, hvr⟩ := mem_filterMap.1 hr
    rw [(graftOf_eq_some hvr).1]
    exact ⟨_, hsub v hv⟩
  rw [hout.references] at hrefs
  obtain ⟨g', n', hall, hroot', hn'⟩ :=
    insertReferences_ok ht.proper hg (reference_refersTo order) hrs hroot hn hrefs
  have hgrafted := hg.graftAll (fun r hr => by
    obtain ⟨q, hq⟩ := hrs r hr
    exact hq.proper ht.proper) hall
  -- without collisions the rebuilt tree is the tree of the root
  have hshort : Short g' := by
    intro w hw
    rcases hgrafted.origin w hw with hw | ⟨r, hr, q, w', hq, rfl, hw'⟩
    · exact (hholds.uniform w hw).le.trans (by decide)
    obtain ⟨v, hv, hvr⟩ := mem_filterMap.1 hr
    rw [(graftOf_eq_some hvr).1] at hw'
    have hlen := ht.uniform.subtree (hsub v hv) hw'
    have hqlen := hq.length_le.trans (ht.graftOf_length (hsub v hv) hvr).2
    rw [length_append]
    omega
  have hd' : TrieDenotes keccak256 (fun _ _ => False) (fun _ u => ∃ q, Subtree t q u) trie' g' :=
    ⟨by rw [hroot']; exact .fresh hn', hgrafted.proper.canonical⟩
  have hS' : ∀ q u, Subtree g' q u → encodeOf keccak256 u ∈ S := by
    intro q u hu
    rcases hd'.root.encodeOf_mem hu with hmem | ⟨_, u', q', ⟨p, hu'⟩, hsub'⟩
    · exact hS _ hmem
    · exact hcf.nodes _ u (hu'.trans hsub')
  obtain rfl : t = g' := by
    rw [ProofTrie.hash, hd'.hashNoCommit, trieHashOf_of_ne_nil hgrafted.proper.ne_nil, rootHashOf,
      rootHashOf] at hhash
    exact encodeOf_inj ht.proper hgrafted.proper ht.short hshort ht.addressable hcf.injOn hcf.nodes
      hS' (hcf.injOn (hS' [] g' (.self hgrafted.proper.ne_nil))
        (hcf.nodes [] t (.self ht.proper.ne_nil)) hhash).symm
  refine ⟨order, g, hout, hholds, hgrafted.kept, fun w hw => ?_⟩
  rcases hgrafted.origin w hw with hw' | ⟨r, hr, q, w', hq, rfl, hw'⟩
  · exact .inl hw'
  obtain ⟨v, hv, hvr⟩ := mem_filterMap.1 hr
  rw [(graftOf_eq_some hvr).1] at hw'
  obtain ⟨hpre, -⟩ := ht.graftOf_length (hsub v hv) hvr
  have hlen := ht.uniform.subtree (hsub v hv) hw'
  have hlen' := ht.uniform _ hw
  rw [length_append] at hlen'
  obtain rfl : q = v.1 := (prefix_of_prefix_length_le hq hpre (by omega)).eq_of_length
    (by omega)
  exact .inr ⟨v, hv, by simp [hvr], w', rfl, hw'⟩

end

section

variable {keccak256 : Bytes → H256} {edge : Edge} {v : Word × MTree} {k : Word}

theorem beforeFirst_of_graftOf (hclear : Clear keccak256 edge v) (hgraft : graftOf edge v ≠ none)
    {w : Word} (hk : k = v.1 ++ w) (hw : v.2.lookup w ≠ none)
    (hleft : edge.left = k ∨ Before edge.left k) (hright : k = edge.right ∨ Before k edge.right) :
    ¬edge.Inside v.1 ∧ edge.BeforeFirst v.1 := by
  have hpre : v.1 <+: k := hk ▸ prefix_append _ _
  have hin : ¬edge.Inside v.1 := by
    intro hin
    exact hgraft (by rw [graftOf, if_pos hin])
  refine ⟨hin, ?_⟩
  by_contra hfirst
  by_cases hgiven : edge.Given v.2
  · -- a node right of the range
    have hafter : Before edge.right (visitWord v) := by
      by_contra hno
      exact hgraft (by rw [graftOf, if_neg hin, if_pos ⟨hgiven, hfirst⟩, if_neg hno])
    have hword : visitWord v <+: k := by
      obtain ⟨q, c⟩ := v
      cases c with
      | leaf w' x =>
        obtain rfl : w = w' := by
          by_contra hne
          exact hw (by simp [hne])
        exact hk ▸ prefix_rfl
      | _ => exact hpre
    have hbefore : Before edge.right k := hafter.mono prefix_rfl hword
    rcases hright with rfl | hright
    · exact hbefore.ne rfl
    · exact hbefore.asymm hright
  · -- a hash that is on the way to neither bound
    have hoff : ¬edge.OnEdge v.1 := by
      rcases hclear with h | h | h
      · exact absurd h hin
      · exact absurd h.1 hgiven
      · exact h.2
    rw [Edge.OnEdge, not_or] at hoff
    have hl : Before edge.left v.1 := by
      rcases hleft with heq | hlt
      · exact absurd (heq ▸ hpre) hoff.1
      · exact (hlt.of_isPrefix hpre).resolve_left hoff.1
    have hr : Before v.1 edge.right := by
      rcases hright with heq | hlt
      · exact absurd (heq ▸ hpre) hoff.2
      · exact (hlt.of_isPrefix' hpre).resolve_left hoff.2
    exact hin ⟨hl, hr⟩

theorem inside_of_lcp {first : Word} (hfirst : Before v.1 first) (hpre : v.1 <+: k)
    (hleft : edge.left = k ∨ Before edge.left k)
    (hlast : first = edge.right ∨ Before first edge.right)
    (hlcp : lcp k edge.left ≤ lcp first edge.left) : edge.Inside v.1 := by
  have hoff : ¬v.1 <+: edge.left := by
    intro hon
    have hlen := (length_le_lcp hpre hon).trans hlcp
    rw [lcp_comm] at hlen
    exact hfirst.not_isPrefix (isPrefix_of_le_lcp hon hlen)
  constructor
  · rcases hleft with heq | hlt
    · exact absurd (heq ▸ hpre) hoff
    · exact (hlt.of_isPrefix hpre).resolve_left hoff
  · rcases hlast with rfl | hlt
    · exact hfirst
    · exact hfirst.trans hlt

end

/-- The strings of the trie that `verify_range` rebuilds. -/
def rebuiltEncodings (keccak256 : Bytes → H256) (fuel : Nat) (root left : H256) :
    List H256 → List Bytes → List Bytes → List Bytes
  | [], _, _ => []
  | keys, values, [] =>
    match insertRange keccak256 fuel Trie.stateless (keys.zip values) with
    | .ok trie => trie.root.encodings keccak256
    | .error _ => []
  | key :: keys, values, proof =>
    match rebuild keccak256 fuel root left ((key :: keys).getLast (cons_ne_nil key keys)) key
        ((key :: keys).zip values) proof with
    | .ok (_, trie) => trie.root.encodings keccak256
    | .error _ => []

section

variable {keccak256 : Bytes → H256} {entries given : List (H256 × Value)} {t : MTree}

theorem accounts_injective : Function.Injective accounts := by
  refine map_injective_iff.2 fun e e' h => ?_
  simp only [mk.injEq] at h
  exact ext h.1 (Subtype.ext h.2)

variable {keys : List H256} {first last left : H256} {proof : List Bytes}
  {order : List (Word × MTree)} {result : ProofProcessingResult} {g : MTree}

theorem exists_accounts {values : List Bytes} (hlen : keys.length = values.length)
    (hne : [] ∉ values) :
    ∃ given, keys = given.map fst ∧ keys.zip values = accounts given := by
  induction keys generalizing values with
  | nil => exact ⟨[], rfl, rfl⟩
  | cons key keys ih =>
    cases values with
    | nil => simp at hlen
    | cons value values =>
      rw [mem_cons, not_or] at hne
      obtain ⟨given, hkeys, hzip⟩ := ih (by simpa using hlen) hne.2
      exact ⟨(key, ⟨value, Ne.symm hne.1⟩) :: given, by simp [← hkeys], by simp [accounts, hzip]⟩

theorem pairwise_of_zip_tail (h : ∀ w ∈ keys.zip keys.tail, w.1 < w.2) : keys.Pairwise (· < ·) := by
  rw [← isChain_iff_pairwise]
  induction keys with
  | nil => exact .nil
  | cons key keys ih =>
    cases keys with
    | nil => exact .singleton key
    | cons key' keys =>
      simp only [tail_cons, zip_cons_cons, mem_cons, forall_eq_or_imp] at h
      exact .cons_cons h.1 (ih h.2)

/-- The first and the last key of the given entries. -/
structure Spans (given : List (H256 × Value)) (first last : H256) : Prop where
  first_mem : ∃ e ∈ given, e.1 = first
  last_mem : ∃ e ∈ given, e.1 = last
  first_le : ∀ e ∈ given, first ≤ e.1
  le_last : ∀ e ∈ given, e.1 ≤ last

theorem Spans.first_le_last (h : Spans given first last) : first ≤ last := by
  obtain ⟨e, he, rfl⟩ := h.first_mem
  exact h.le_last e he

theorem spans_of_pairwise {key : H256} (hkeys : key :: keys = given.map fst)
    (hsorted : (key :: keys).Pairwise (· < ·)) :
    Spans given key ((key :: keys).getLast (cons_ne_nil key keys)) := by
  have hmem : ∀ k, k ∈ key :: keys ↔ ∃ e ∈ given, e.1 = k := fun k => by
    rw [hkeys, mem_map]
  refine ⟨(hmem _).1 (by simp), (hmem _).1 (getLast_mem _), fun e he => ?_, fun e he => ?_⟩
  · rcases mem_cons.1 ((hmem e.1).2 ⟨e, he, rfl⟩) with heq | hin
    · exact heq.ge
    · exact (rel_of_pairwise_cons hsorted hin).le
  · exact List.Pairwise.rel_getLast (hsorted.imp le_of_lt) ((hmem e.1).2 ⟨e, he, rfl⟩)

theorem numRightReferences_pos_iff (ht : KeyTree t) (hholds : HoldsEntries t entries)
    (hout : RootOutcome keccak256 (edgeOf keccak256 proof left (some last) (some first)) t order
      result) (hleft : left ≤ last) (hfirst : first ≤ last) (hlast : ∃ e ∈ entries, e.1 = last) :
    0 < result.numRightReferences ↔ ∃ e ∈ entries, last < e.1 := by
  rw [hout.count, countP_pos_iff]
  constructor
  · rintro ⟨v, hv, hcounted⟩
    obtain ⟨k, hk, hlookup⟩ := Edge.Counted.exists_lookup ht.proper (hout.perm.mem_iff.1 hv)
      (by simpa using hcounted)
    obtain ⟨x, hx⟩ := Option.ne_none_iff_exists'.1 hlookup
    obtain ⟨e, he, rfl, -⟩ := (hholds k x).1 hx
    exact ⟨e, he, before_key_iff.1 hk⟩
  · rintro ⟨e, he, hlt⟩
    obtain ⟨e', he', rfl⟩ := hlast
    obtain ⟨q, s, hs, hq, hlen⟩ := hholds.exists_subtree he he' hlt.ne
    have hright : ∀ p, p <+: word e'.1.bytes →
        ¬(edgeOf keccak256 proof left (some e'.1) (some first)).BeforeFirst p := by
      rintro p hp ⟨_, ⟨⟩, hbefore⟩
      have hlt' : Before (word e'.1.bytes) (word first.bytes) := hbefore.mono hp prefix_rfl
      exact absurd (before_key_iff.1 hlt') (not_lt.2 hfirst)
    have hoff : ¬q <+: word e'.1.bytes := fun hon => by
      have := length_le_lcp hq hon
      omega
    obtain ⟨v, hv, hcounted⟩ := @exists_counted _ _
      (edgeOf keccak256 proof left (some e'.1) (some first)) _ _ ht.proper
      (fun v hv => hout.clear v (hout.perm.mem_iff.2 hv)) (before_or_eq hleft) hright
      _ (before_key hlt) hs hq hoff
    exact ⟨v, hout.perm.mem_iff.2 hv, by simpa using hcounted⟩

/-- No entry of the range is missing, except those left of the first key that stay with the left
bound longer than it does. -/
theorem mem_given_of_regular (hholds : HoldsEntries t entries) (hspans : Spans given first last)
    (hout : RootOutcome keccak256 (edgeOf keccak256 proof left (some last) (some first)) t order
      result) (hg : HoldsEntries g given) (hkept : ∀ w, g.lookup w ≠ none → t.lookup w = g.lookup w)
    (horigin : ∀ w, t.lookup w ≠ none → g.lookup w ≠ none ∨ ∃ v ∈ order,
        graftOf (edgeOf keccak256 proof left (some last) (some first)) v ≠ none ∧
          ∃ w', w = v.1 ++ w' ∧ v.2.lookup w' ≠ none) {e : H256 × Value} (he : e ∈ entries)
    (hleft : left ≤ e.1) (hlast : e.1 ≤ last)
    (hlcp : e.1 < first → lcp (word e.1.bytes) (word left.bytes) ≤
      lcp (word first.bytes) (word left.bytes)) : e ∈ given := by
  have hlookup := hholds.lookup he
  rcases horigin (word e.1.bytes) (by rw [hlookup]; simp) with hgiven | ⟨v, hv, hgraft, w, hw, hvw⟩
  · exact hg.mem_iff.2 ((hkept _ hgiven).symm.trans hlookup)
  obtain ⟨hin, _, ⟨⟩, hfirst⟩ := beforeFirst_of_graftOf (hout.clear v hv) hgraft hw hvw
    (before_or_eq hleft) (before_or_eq hlast)
  have hpre : v.1 <+: word e.1.bytes := hw ▸ prefix_append _ _
  have hbefore : Before (word e.1.bytes) (word first.bytes) := hfirst.mono hpre prefix_rfl
  exact absurd (inside_of_lcp hfirst hpre (before_or_eq hleft)
    (before_or_eq hspans.first_le_last) (hlcp (before_key_iff.1 hbefore))) hin

/-- The given entries are those of the range exactly if the first key is in it and no entry left of
it stays with the left bound longer. -/
theorem given_eq_filter_iff (hspans : Spans given first last)
    (hgiven : (given.map fst).Pairwise (· < ·))
    (hentries : (entries.map fst).Pairwise (· < ·)) (hsub : ∀ e ∈ given, e ∈ entries)
    {Kept : H256 × Value → Prop}
    (hcover : ∀ e ∈ entries, left ≤ e.1 → e.1 ≤ last → (e.1 < first → Kept e) → e ∈ given) :
    given = entries.filter (fun e => left ≤ e.1 ∧ e.1 ≤ last) ↔
      left ≤ first ∧ ∀ e ∈ entries, left ≤ e.1 → e.1 < first → Kept e := by
  constructor
  · intro heq
    have hrange : ∀ e, e ∈ given ↔ e ∈ entries ∧ left ≤ e.1 ∧ e.1 ≤ last := fun e => by
      conv_lhs => rw [heq]
      simp
    obtain ⟨e₀, he₀, rfl⟩ := hspans.first_mem
    refine ⟨((hrange e₀).1 he₀).2.1, fun e he hle hlt => absurd hlt (not_lt.2 ?_)⟩
    exact hspans.first_le e ((hrange e).2 ⟨he, hle, hlt.le.trans hspans.first_le_last⟩)
  · rintro ⟨hfirst, hkept⟩
    refine Journal.eq_of_pairwise (pairwise_map.1 hgiven) (pairwise_map.1 ?_) fun e => ?_
    · exact hentries.sublist (filter_sublist.map fst)
    simp only [mem_filter, decide_eq_true_eq]
    refine ⟨fun he => ⟨hsub e he, hfirst.trans (hspans.first_le e he), hspans.le_last e he⟩, ?_⟩
    rintro ⟨he, hle, hle'⟩
    exact hcover e he hle hle' (hkept e he hle)

variable {S : Set Bytes} {fuel : Nat} {right : Option H256}

theorem processProofNodes_empty (hinj : Set.InjOn keccak256 S) (hproof : ∀ x ∈ proof, x ∈ S)
    (hnull : keccak256 [rlpNull] = emptyTrieHash) (hmem : [rlpNull] ∈ S) {first : Option H256} :
    processProofNodes keccak256 fuel proof (.hashed emptyTrieHash) left right first ≠ .ok result := by
  classical
  rw [← hnull, processProofNodes]
  simp only [rangeWalk, RangeProof.getNode, nodeRefs_keccak256 hinj hproof hmem]
  split
  · rename_i y hy
    obtain rfl : [rlpNull] = y := by
      split at hy
      · exact Option.some.inj hy
      · cases hy
    intro h
    cases h
  · intro h
    cases h

theorem Unhashed.hash {trie : Trie NullTrieDB} (h : Unhashed keccak256 trie t) {root : H256}
    {trie' : Trie NullTrieDB} (hhash : trie.hash keccak256 = .ok (root, trie')) :
    trieHashOf keccak256 t = root := by
  have hmem : TrieDenotes keccak256 (fun _ _ => True) (fun _ u => ∃ q, Subtree t q u) trie t :=
    ⟨h.root.mono (fun _ _ _ => trivial) fun q _ hs => ⟨q, hs⟩, h.canonical⟩
  have hcommit := hmem.commitWithoutStoring fun _ _ _ => trivial
  rw [Trie.hash, Trie.commit] at hhash
  generalize trie.commitWithoutStoring keccak256 = committed at hhash hcommit
  obtain ⟨acc, trie₁⟩ := committed
  obtain ⟨trie₂, htrie, hhash⟩ := bind_eq_ok.1 hhash
  obtain ⟨db, -, hdb⟩ := bind_eq_ok.1 htrie
  cases hdb
  have hd : TrieDenotes keccak256 (fun _ _ => True) (fun _ u => ∃ q, Subtree t q u)
      { trie₁ with db } t := ⟨hcommit.root, hcommit.canonical⟩
  rw [← hd.hashNoCommit]
  exact congrArg fst (Except.ok.inj hhash)

/-- Without collisions, tries over 32-byte keys with the same root hash have the same entries. -/
theorem entries_eq_of_trieHashOf (hinj : Set.InjOn keccak256 S)
    (hnull : keccak256 [rlpNull] = emptyTrieHash) (hmem : [rlpNull] ∈ S) (hg : HoldsEntries g given)
    (hgc : g.Canonical) (hne : given ≠ []) (hgS : ∀ q c, Subtree g q c → encodeOf keccak256 c ∈ S)
    (ht : HoldsEntries t entries) (htc : t.Canonical) (hvalues : ∀ e ∈ entries, Addressable e.2)
    (htS : ∀ q c, Subtree t q c → encodeOf keccak256 c ∈ S)
    (hhash : trieHashOf keccak256 g = trieHashOf keccak256 t) : g = t := by
  have hgp := hg.proper hgc hne
  have hgroot := hgS [] g (.self hgp.ne_nil)
  rw [trieHashOf_of_ne_nil hgp.ne_nil, rootHashOf] at hhash
  by_cases hnil : t = .nil
  · rw [hnil, trieHashOf, ← hnull] at hhash
    exact absurd (hinj hgroot hmem hhash) (encodeOf_ne_rlpNull hgp.ne_nil)
  rw [trieHashOf_of_ne_nil hnil, rootHashOf] at hhash
  have hshort : ∀ {s : MTree} {es : List (H256 × Value)}, HoldsEntries s es → Short s :=
    fun hs w hw => (hs.uniform w hw).le.trans (by decide)
  have hadd : ∀ w v, t.lookup w = some v → Addressable v := fun w v hv => by
    obtain ⟨e, he, -, rfl⟩ := (ht w v).1 hv
    exact hvalues e he
  exact (encodeOf_inj (htc hnil) hgp (hshort ht) (hshort hg) hadd hinj htS hgS
    (hinj hgroot (htS [] t (.self hnil)) hhash).symm).symm

/-- A walk that ends starts at the root of a trie with entries, whose encoding is in the proof. -/
theorem keyTree_of_walk (hinj : Set.InjOn keccak256 S) (hproof : ∀ x ∈ proof, x ∈ S)
    (hnull : keccak256 [rlpNull] = emptyTrieHash) (hmem : [rlpNull] ∈ S)
    (ht : HoldsEntries t entries) (htc : t.Canonical) (hvalues : ∀ e ∈ entries, Addressable e.2)
    (htS : ∀ q c, Subtree t q c → encodeOf keccak256 c ∈ S) {first : Option H256}
    (hok : processProofNodes keccak256 fuel proof (.hashed (trieHashOf keccak256 t)) left right
      first = .ok result) :
    KeyTree t ∧ CollisionFree keccak256 t proof S ∧ proof ≠ [] ∧
      trieHashOf keccak256 t = rootHashOf keccak256 t := by
  by_cases hnil : t = .nil
  · rw [hnil, trieHashOf] at hok
    exact absurd hok (processProofNodes_empty hinj hproof hnull hmem)
  have hne : entries ≠ [] := by
    rintro rfl
    refine hnil (htc.eq_nil fun w => ?_)
    by_contra hw
    obtain ⟨v, hv⟩ := Option.ne_none_iff_exists'.1 hw
    simpa using (ht w v).1 hv
  have hkey := ht.keyTree htc hne hvalues
  have hcf : CollisionFree keccak256 t proof S := ⟨hinj, hproof, htS⟩
  have hhash := @trieHashOf_of_ne_nil keccak256 _ hnil
  rw [hhash] at hok
  exact ⟨hkey, hcf, ne_nil_of_mem (processProofNodes_ok hkey hcf hok).1, hhash⟩

/-- What `verify_range` says about a range with keys. They are the entries from the left bound to
the last key exactly if there is no proof, or if the first key is not left of the bound, which is
not checked, and no entry between them shares a longer start with the bound than the first key:
its subtree is taken over by hash. The flag always tells whether there are keys right of the last
one. -/
theorem verifyRange_keys (keccak256 : Bytes → H256) (hnull : keccak256 [rlpNull] = emptyTrieHash)
    (entries : List (H256 × Value)) (hsorted : (entries.map Prod.fst).Pairwise (· < ·))
    (hvalues : ∀ e ∈ entries, Addressable e.2) (trie : Trie InMemoryTrieDB)
    (outs : List (Option Bytes))
    (hrun : run keccak256 67 (Trie.new InMemoryTrieDB.newEmpty)
      (insertions (entries.map fun e => (e.1.bytes, e.2))) = .ok (trie, outs))
    (left : H256) (keys : List H256) (hkeys : keys ≠ []) (values proof : List Bytes) (fuel : Nat)
    (hf : 67 ≤ fuel)
    (hinj : Set.InjOn keccak256 {x | x ∈ [rlpNull] :: proof ++ trie.root.encodings keccak256 ++
      rebuiltEncodings keccak256 fuel (trie.hashNoCommit keccak256).1 left keys values proof})
    (more : Bool)
    (hok : verifyRange keccak256 fuel (trie.hashNoCommit keccak256).1 left keys values proof =
      .ok more) :
    (keys.zip values = accounts (entries.filter fun e =>
        proof = [] ∨ left ≤ e.1 ∧ e.1 ≤ keys.getLast hkeys) ↔
      proof = [] ∨ left ≤ keys.head hkeys ∧ ∀ e ∈ entries, left ≤ e.1 → e.1 < keys.head hkeys →
        lcp (word e.1.bytes) (word left.bytes) ≤
          lcp (word (keys.head hkeys).bytes) (word left.bytes)) ∧
    (more = true ↔ ∃ e ∈ entries, keys.getLast hkeys < e.1) := by
  obtain ⟨t, hholds, hcan, hroot, henc⟩ := tree_of_run hsorted hrun
  rw [hroot] at hok hinj
  obtain ⟨hlen, hmono, hempty, haccepts⟩ := accepts_of_verifyRange hok
  obtain ⟨given, hkeys', hzip⟩ := exists_accounts hlen hempty
  have hpair := pairwise_of_zip_tail hmono
  have hgiven : (given.map Prod.fst).Pairwise (· < ·) := hkeys' ▸ hpair
  have hne : given ≠ [] := by
    rintro rfl
    exact hkeys hkeys'
  rw [hzip, accounts_injective.eq_iff]
  have hmem : ∀ x ∈ proof, x ∈ [rlpNull] :: proof ++ trie.root.encodings keccak256 ++
      rebuiltEncodings keccak256 fuel (trieHashOf keccak256 t) left keys values proof :=
    fun x hx => by simp [hx]
  have hnodes : ∀ q c, Subtree t q c → encodeOf keccak256 c ∈
      [rlpNull] :: proof ++ trie.root.encodings keccak256 ++
        rebuiltEncodings keccak256 fuel (trieHashOf keccak256 t) left keys values proof :=
    fun q c hc => by simp [henc q c hc]
  cases haccepts with
  | whole hinsert hhash =>
    rename_i trie₀ trie₀'
    obtain ⟨trie₁, g, hinsert', hd, hg⟩ := @insertRange_accounts keccak256 _ _ hgiven hf
    rw [← hzip, hinsert] at hinsert'
    cases hinsert'
    have hgS : ∀ q c, Subtree g q c → encodeOf keccak256 c ∈
        [rlpNull] :: [] ++ trie.root.encodings keccak256 ++
          rebuiltEncodings keccak256 fuel (trieHashOf keccak256 t) left keys values [] := by
      intro q c hc
      obtain ⟨key, rest, rfl⟩ := exists_cons_of_ne_nil hkeys
      rcases hd.root.encodeOf_mem hc with hx | ⟨_, _, _, hs, -⟩
      · simp [rebuiltEncodings, hinsert, hx]
      · exact hs.elim
    obtain rfl := entries_eq_of_trieHashOf hinj hnull (by simp) hg hd.canonical hne hgS hholds hcan
      hvalues hnodes (hd.hash hhash)
    obtain rfl := Journal.eq_of_pairwise (pairwise_map.1 hgiven) (pairwise_map.1 hsorted) fun e =>
      hg.mem_iff.trans hholds.mem_iff.symm
    refine ⟨by simp, by simp, ?_⟩
    rintro ⟨e, he, hlt⟩
    obtain ⟨key, rest, rfl⟩ := exists_cons_of_ne_nil hkeys
    exact absurd hlt (not_lt.2 ((spans_of_pairwise hkeys' hpair).le_last e he))
  | noKeys => exact absurd rfl hkeys
  | oneKey hwalk hvalue =>
    rename_i value result
    obtain ⟨ht, hcf, hproof, hhash⟩ := keyTree_of_walk hinj hmem hnull (by simp) hholds hcan hvalues
      hnodes hwalk
    rw [hhash] at hwalk
    obtain ⟨-, -, order, hout⟩ := processProofNodes_ok ht hcf hwalk
    -- the value at the bound is the one that the walk has found
    have hleft : ∀ e ∈ given, e.1 = left ∧ e ∈ entries := by
      intro e he
      have hpair : (e.1, e.2.val) ∈ [left].zip [value] := hzip ▸ mem_map.2 ⟨e, he, rfl⟩
      simp only [zip_cons_cons, zip_nil_right, mem_singleton, Prod.mk.injEq] at hpair
      refine ⟨hpair.1, hholds.mem_iff.2 ?_⟩
      rcases hout.leftValue with ⟨hnone, -⟩ | ⟨v, hv, -, x, ⟨w, hleaf, hword⟩, hx⟩
      · rw [hvalue, ← hpair.2] at hnone
        exact absurd hnone e.2.property
      obtain ⟨r, -, hr, hs⟩ := Edge.subtree_of_mem_visits ht.proper (hout.perm.mem_iff.1 hv)
      rw [nil_append] at hr
      have hlookup := hs.lookup_append w
      rw [← hr, hword, hleaf, Tree.lookup_leaf, if_pos rfl] at hlookup
      rw [hpair.1, show e.2 = x from Subtype.ext (by rw [hpair.2, ← hx, hvalue])]
      exact hlookup
    have hspans : Spans given left left := spans_of_pairwise hkeys' hpair
    refine ⟨?_, ?_⟩
    · simp only [hproof, false_or]
      refine given_eq_filter_iff hspans hgiven hsorted (fun e he => (hleft e he).2) ?_
      intro e he hle hle' _
      obtain ⟨e', he', heq⟩ := hspans.first_mem
      have hsame := hholds.lookup he
      rw [hle'.antisymm hle, ← heq, hholds.lookup (hleft e' he').2] at hsame
      rwa [show e = e' from Prod.ext ((hle'.antisymm hle).trans heq.symm)
        (Option.some.inj hsame).symm]
    · obtain ⟨e, he, heq⟩ := hspans.last_mem
      simpa using numRightReferences_pos_iff ht hholds hout le_rfl le_rfl ⟨e, (hleft e he).2, heq⟩
  | regular hlast hrebuild hhash =>
    rename_i key rest result trie'
    obtain ⟨result', hwalk, -⟩ := bind_eq_ok.1 hrebuild
    obtain ⟨ht, hcf, hproof, hroot'⟩ := keyTree_of_walk hinj hmem hnull (by simp) hholds hcan
      hvalues hnodes hwalk
    have hS : ∀ x ∈ trie'.root.encodings keccak256, x ∈ [rlpNull] :: proof ++
        trie.root.encodings keccak256 ++
          rebuiltEncodings keccak256 fuel (trieHashOf keccak256 t) left (key :: rest) values proof := by
      intro x hx
      obtain ⟨y, ys, rfl⟩ := exists_cons_of_ne_nil hproof
      simp [rebuiltEncodings, hrebuild, hx]
    rw [hroot', hzip] at hrebuild
    rw [hroot'] at hhash
    obtain ⟨order, g, hout, hg, hkept, horigin⟩ := rebuild_ok ht hcf hne hgiven hf hrebuild hhash hS
    have hspans := spans_of_pairwise hkeys' hpair
    have hsub : ∀ e ∈ given, e ∈ entries := fun e he => by
      have hlookup := hg.lookup he
      exact hholds.mem_iff.2 ((hkept _ (by rw [hlookup]; simp)).trans hlookup)
    refine ⟨?_, ?_⟩
    · simp only [hproof, false_or, head_cons]
      exact given_eq_filter_iff hspans hgiven hsorted hsub fun e he hle hle' hlcp =>
        mem_given_of_regular hholds hspans hout hg hkept horigin he hle hle' hlcp
    · obtain ⟨e, he, heq⟩ := hspans.last_mem
      simpa using numRightReferences_pos_iff ht hholds hout hlast.le hspans.first_le_last
        ⟨e, hsub e he, heq⟩

end

/-- The entry at `0x11…` is in the range but not among the keys: the hash of its leaf, left of the
first key, takes its place. -/
theorem verifyRange_keys_hides_entry :
    ∃ trie outs, run rangeKeccak 67 (Trie.new InMemoryTrieDB.newEmpty)
        (insertions (twoEntries.map fun e => (e.1.bytes, e.2))) = .ok (trie, outs) ∧
      Set.InjOn rangeKeccak {x | x ∈ [rlpNull] :: twoEntriesProof ++
        trie.root.encodings rangeKeccak ++ rebuiltEncodings rangeKeccak 67
          (trie.hashNoCommit rangeKeccak).1 (.repeatByte 0x10) [.repeatByte 0x22] [[2]]
          twoEntriesProof} ∧
      verifyRange rangeKeccak 67 (trie.hashNoCommit rangeKeccak).1 (.repeatByte 0x10)
        [.repeatByte 0x22] [[2]] twoEntriesProof = .ok false ∧
      [H256.repeatByte 0x22].zip [[2]] ≠ accounts (twoEntries.filter fun e =>
        H256.repeatByte 0x10 ≤ e.1 ∧ e.1 ≤ H256.repeatByte 0x22) :=
  ⟨_, _, rfl, rangeKeccak_injOn (by decide +kernel), by decide +kernel, by decide +kernel⟩

theorem verifyRange_keys_twoEntries :
    ∃ trie outs, run rangeKeccak 67 (Trie.new InMemoryTrieDB.newEmpty)
        (insertions (twoEntries.map fun e => (e.1.bytes, e.2))) = .ok (trie, outs) ∧
      verifyRange rangeKeccak 67 (trie.hashNoCommit rangeKeccak).1 (.repeatByte 0x11)
        [.repeatByte 0x11, .repeatByte 0x22] [[1], [2]] twoEntriesProof = .ok false ∧
      [H256.repeatByte 0x11, .repeatByte 0x22].zip [[1], [2]] =
        accounts (twoEntries.filter fun e => twoEntriesProof = [] ∨
          H256.repeatByte 0x11 ≤ e.1 ∧ e.1 ≤ H256.repeatByte 0x22) := by
  refine ⟨_, _, rfl, by decide +kernel, ?_⟩
  refine (verifyRange_keys rangeKeccak (by decide +kernel) twoEntries (by decide +kernel)
    (by simp [twoEntries, Addressable]) _ _ rfl (.repeatByte 0x11)
    [.repeatByte 0x11, .repeatByte 0x22] (by simp) [[1], [2]] twoEntriesProof 67 le_rfl
    (rangeKeccak_injOn (by decide +kernel)) false (by decide +kernel)).1.2 ?_
  decide +kernel

/-- A downloaded state is the one its root was announced for: sorted accounts with the root hash of
a trie are the entries of that trie, unless the hash collides on their nodes. -/
theorem entries_eq_of_trieFromSortedAccounts (keccak256 : Bytes → H256)
    (hnull : keccak256 [rlpNull] = emptyTrieHash)
    (flush : List (H256 × Bytes) → List (Nibbles × Node) → Bool)
    (given entries : List (H256 × Value)) (hgiven : (given.map fst).Pairwise (· < ·))
    (hsorted : (entries.map fst).Pairwise (· < ·)) (hvalues : ∀ e ∈ entries, Addressable e.2)
    (trie : Trie InMemoryTrieDB) (outs : List (Option Bytes))
    (hrun : run keccak256 67 (Trie.new InMemoryTrieDB.newEmpty)
      (insertions (entries.map fun e => (e.1.bytes, e.2))) = .ok (trie, outs))
    (batches : List (List (Nibbles × Node)))
    (hbuild : trieFromSortedAccounts keccak256 flush (accounts given) =
      .ok ((trie.hashNoCommit keccak256).1, batches))
    (hinj : Set.InjOn keccak256 {x | x ∈ [rlpNull] :: trie.root.encodings keccak256 ++
      batches.flatten.map (·.2.encode keccak256)}) : given = entries := by
  obtain ⟨t, hholds, hcan, hhash, hnodes⟩ := tree_of_run hsorted hrun
  rw [hhash] at hbuild
  refine Journal.eq_of_pairwise (pairwise_map.1 hgiven) (pairwise_map.1 hsorted) fun x => ?_
  cases given with
  | nil =>
    have hnil : t = .nil := by
      by_contra hne
      rw [trieHashOf_of_ne_nil hne, rootHashOf] at hbuild
      obtain ⟨hroot, -⟩ := Prod.mk.inj (Except.ok.inj hbuild)
      refine encodeOf_ne_rlpNull hne (hinj ?_ (by simp) (hroot.symm.trans hnull.symm))
      simp [hnodes [] t (.self hne)]
    rw [hholds.mem_iff, hnil]
    simp
  | cons e rest =>
    obtain ⟨g, batches', out, hg, hproper, hmap, hout, hmem⟩ :=
      trieFromSortedAccounts_refines keccak256 flush e rest hgiven
    rw [hbuild] at hg
    obtain ⟨hroot, rfl⟩ := Prod.mk.inj (Except.ok.inj hg)
    have hgholds : HoldsEntries g (e :: rest) := fun w v => by
      rw [hmap, wordMap_eq_some_iff (hgiven.imp fun h => ne_of_lt h) (by simp)]
      simp
    have heq : g = t := by
      refine entries_eq_of_trieHashOf hinj hnull (by simp) hgholds hproper.canonical (by simp)
        (fun q c hc => ?_) hholds hcan hvalues (fun q c hc => ?_) ?_
      · obtain ⟨n, hn, -, hdata⟩ := (mem_entries_iff hout _ _).2 ⟨q, c, (hmem q c).2 hc, rfl, rfl⟩
        exact mem_append_right _ (mem_map.2 ⟨n, hn, hdata⟩)
      · simp [hnodes q c hc]
      · rw [trieHashOf_of_ne_nil hproper.ne_nil, hroot]
    rw [hgholds.mem_iff, hholds.mem_iff, heq]

theorem entries_eq_of_trieFromSortedAccounts_two :
    [(H256.repeatByte 0x11, ⟨[1], by decide⟩), (.repeatByte 0x22, ⟨[2], by decide⟩)] =
      twoEntries :=
  entries_eq_of_trieFromSortedAccounts rangeKeccak (by decide +kernel) (fun _ _ => true) _ _
    (by decide +kernel) (by decide +kernel) (by simp [twoEntries, Addressable]) _ _ rfl _ rfl
    (rangeKeccak_injOn (by decide +kernel))

end Ethrex.Mpt
