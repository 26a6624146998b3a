import Ethrex.Chain.SyncedIndex

/-!
# What a header walk finds

The walk collects a chain of headers downwards; the batches that are read back are consecutive
pieces of it, from the bottom up.
-/

namespace Ethrex.Chain

open List

def Ascending (blocks : List Header) : Prop :=
  blocks.IsChain fun p b => b.parentHash = p.hash ∧ b.number = p.number + 1

variable {blocks : List Header} {x y : Header}

theorem Ascending.number {a b : Header} {i : Nat} (ascending : Ascending blocks)
    (first : blocks.head? = some a) (found : blocks[i]? = some b) : b.number = a.number + i := by
  cases blocks with
  | nil => cases first
  | cons a' rest =>
    obtain rfl : a' = a := by simpa using first
    cases i with
    | zero =>
      obtain rfl : a' = b := by simpa using found
      rfl
    | succ i =>
      have stacked : Stacked a' rest := ascending
      have := stacked.number (i := i) (by simpa using found)
      omega

theorem Ascending.eq_of_number (ascending : Ascending blocks) (hx : x ∈ blocks) (hy : y ∈ blocks)
    (same : x.number = y.number) : x = y := by
  obtain ⟨i, hi⟩ := mem_iff_getElem?.1 hx
  obtain ⟨j, hj⟩ := mem_iff_getElem?.1 hy
  obtain ⟨a, first⟩ : ∃ a, blocks.head? = some a := by
    cases blocks with
    | nil => cases hx
    | cons a _ => exact ⟨a, rfl⟩
  have atI := ascending.number first hi
  have atJ := ascending.number first hj
  obtain rfl : i = j := by omega
  exact Option.some.inj (hi.symm.trans hj)

theorem Ascending.notMem_right {left right : List Header} (ascending : Ascending (left ++ right))
    (hx : x ∈ left) : x ∉ right := by
  intro hx'
  obtain ⟨i, hi⟩ := mem_iff_getElem?.1 hx
  obtain ⟨j, hj⟩ := mem_iff_getElem?.1 hx'
  have bound := (List.getElem?_eq_some_iff.1 hi).1
  obtain ⟨a, first⟩ : ∃ a, (left ++ right).head? = some a :=
    Option.isSome_iff_exists.1 (by cases left <;> simp at hx ⊢)
  have atI := ascending.number first (i := i) (by rw [getElem?_append_left bound, hi])
  have atJ := ascending.number first (i := left.length + j)
    (by rw [getElem?_append_right (by omega), Nat.add_sub_cancel_left, hj])
  omega

/-- What is assumed of the peers: an answer starts at the hash asked for, is linked, and numbers
blocks one above their parents. -/
structure SyncEnv.Honest (preimage : H256 → Header) (env : SyncEnv) : Prop where
  newest : ∀ {round hash headers x}, env.requestBlockHeaders round hash = .headers headers →
    headers.head? = some x → x.hash = hash
  linked : ∀ {round hash headers}, env.requestBlockHeaders round hash = .headers headers →
    Ascending headers.reverse
  named : ∀ {round hash headers x}, env.requestBlockHeaders round hash = .headers headers →
    x ∈ headers → preimage x.hash = x
  numbered : ∀ {round hash headers x}, env.requestBlockHeaders round hash = .headers headers →
    x ∈ headers → x.parentHash ≠ zeroHash → x.number = (preimage x.parentHash).number + 1

def SyncEnv.Served (env : SyncEnv) (x : Header) : Prop :=
  ∃ round hash headers, env.requestBlockHeaders round hash = .headers headers ∧ x ∈ headers

/-- The only served header without a parent is the block zero of the store, which has its state. -/
def SyncEnv.Rooted (env : SyncEnv) (s : Store) : Prop :=
  ∀ {x}, env.Served x → x.parentHash = zeroHash → x.number = 0 ∧ s.isResumePoint x = true

section Table

variable {table : Nat → Option Header} {headers : List Header}

theorem addFullsyncBatch_of_notMem {n : Nat} (absent : ∀ h ∈ headers, h.number ≠ n) :
    addFullsyncBatch table headers n = table n := by
  induction headers generalizing table with
  | nil => rfl
  | cons header rest ih =>
    rw [addFullsyncBatch, foldl_cons, ← addFullsyncBatch,
      ih fun h mem => absent h (mem_cons_of_mem _ mem)]
    exact Function.update_of_ne (absent header (mem_cons_self ..)).symm _ _

theorem addFullsyncBatch_of_mem {x : Header} (mem : x ∈ headers)
    (unique : ∀ h ∈ headers, h.number = x.number → h = x) :
    addFullsyncBatch table headers x.number = some x := by
  induction headers generalizing table with
  | nil => cases mem
  | cons header rest ih =>
    rw [addFullsyncBatch, foldl_cons, ← addFullsyncBatch]
    by_cases later : x ∈ rest
    · exact ih later fun h mem => unique h (mem_cons_of_mem _ mem)
    obtain rfl : x = header := (mem_cons.1 mem).resolve_right later
    rw [addFullsyncBatch_of_notMem, Function.update_self]
    intro h mem same
    exact later (unique h (mem_cons_of_mem _ mem) same ▸ mem)

variable {blocks : List Header} {start : Nat}

theorem readFullsyncBatch_eq (covered : ∀ {i : Nat} {b}, blocks[i]? = some b → table (start + i) = some b)
    {limit : Nat} (le : limit ≤ blocks.length) :
    readFullsyncBatch table start limit = .ok (blocks.take limit) := by
  have read : (List.range limit).mapM (fun i => table (start + i)) = some (blocks.take limit) := by
    induction limit with
    | zero => simp
    | succ k ih =>
      have here := getElem?_eq_getElem (l := blocks) (i := k) (by omega)
      rw [range_succ, mapM_append, ih (by omega), take_add_one, here]
      simp [covered here]
  rw [readFullsyncBatch, read]

theorem fullsyncBatches_eq {size stop fuel : Nat} (pos : 0 < size)
    (covered : ∀ {i : Nat} {b}, blocks[i]? = some b → table (start + i) = some b)
    (length : blocks.length = stop - start) (enough : blocks.length ≤ fuel) :
    ∃ batches : List (List Header), fullsyncBatches table size fuel start stop =
      batches.map .ok ∧ batches.flatten = blocks ∧ (∀ batch ∈ batches, batch ≠ []) ∧
      (blocks.length ≤ size → batches.length ≤ 1) := by
  induction fuel generalizing start blocks with
  | zero =>
    have empty := eq_nil_of_length_eq_zero (l := blocks) (by omega)
    exact ⟨[], rfl, by rw [empty]; rfl, by simp, by simp⟩
  | succ fuel ih =>
    rw [fullsyncBatches]
    split
    · next more =>
      obtain ⟨batches, read, flat, nonempty, -⟩ := @ih (blocks.drop size) (start + size)
        (fun {i b} found => by
          rw [getElem?_drop] at found
          rw [Nat.add_assoc]
          exact covered found)
        (by rw [length_drop]; omega) (by rw [length_drop]; omega)
      refine ⟨blocks.take (min size (stop - start)) :: batches, ?_, ?_, ?_, fun fits => ?_⟩
      · rw [readFullsyncBatch_eq covered (by omega), read, map_cons]
      · rw [flatten_cons, flat, ← length, take_eq_take_min.symm]
        simp
      · intro batch mem
        rcases mem_cons.1 mem with rfl | mem
        · intro empty
          have := congrArg List.length empty
          rw [length_take, length_nil] at this
          omega
        · exact nonempty batch mem
      -- Nothing is left for a second batch.
      rw [drop_eq_nil_of_le fits, flatten_eq_nil_iff] at flat
      rw [eq_nil_iff_forall_not_mem.2 fun batch mem => nonempty batch mem (flat batch mem)]
      rfl
    · next ended =>
      have empty := eq_nil_of_length_eq_zero (l := blocks) (by omega)
      exact ⟨[], rfl, by rw [empty]; rfl, by simp, by simp⟩

end Table

/-- The headers that a walk has collected, newest first. -/
structure Covers (preimage : H256 → Header) (env : SyncEnv) (start : H256) (w : HeaderWalk)
    (down : List Header) : Prop where
  linked : Ascending down.reverse
  named : ∀ x ∈ down, preimage x.hash = x
  served : ∀ x ∈ down, env.Served x
  newest : ∀ x ∈ down.head?, x.hash = start ∧ w.endBlockNumber = x.number
  empty : down = [] → w.syncHead = start ∧ w.endBlockNumber = 0
  oldest : ∀ x ∈ down.getLast?, x.parentHash = w.syncHead ∧ w.syncHead ≠ zeroHash ∧
    x.number = (preimage w.syncHead).number + 1
  table : ∀ x ∈ down, w.fullsyncHeaders x.number = some x
  single : w.singleBatch = true ↔ down = []

section Walk

variable {preimage : H256 → Header} {start : H256} {w : HeaderWalk} {down headers kept : List Header}
  {env : SyncEnv} {round : Nat} {newest : Header}

theorem Covers.nothing (preimage : H256 → Header) (env : SyncEnv) (syncHead : H256)
    (fullsyncHeaders : Nat → Option Header) : Covers preimage env syncHead
      { syncHead, endBlockNumber := 0, singleBatch := true, attempts := 0, fullsyncHeaders } [] :=
  ⟨.nil, by simp, by simp, by simp, fun _ => ⟨rfl, rfl⟩, by simp, by simp, by simp⟩

/-- The collected headers with the upper part of the next answer. -/
structure Collected (preimage : H256 → Header) (env : SyncEnv) (start : H256) (w : HeaderWalk)
    (newest : Header) (all : List Header) : Prop where
  linked : Ascending all.reverse
  named : ∀ x ∈ all, preimage x.hash = x
  served : ∀ x ∈ all, env.Served x
  first : ∀ x ∈ all.head?, x.hash = start ∧ max w.endBlockNumber newest.number = x.number

theorem Covers.collect (covers : Covers preimage env start w down) (honest : env.Honest preimage)
    (answer : env.requestBlockHeaders round w.syncHead = .headers headers)
    (isNewest : headers.head? = some newest) (upper : kept <+: headers) :
    Collected preimage env start w newest (down ++ kept) := by
  have hash := honest.newest answer isNewest
  have named := honest.named answer (mem_of_mem_head? isNewest)
  have below : ∀ x ∈ down.getLast?, x.parentHash = newest.hash ∧ x.number = newest.number + 1 := by
    intro x isLast
    obtain ⟨parent, -, number⟩ := covers.oldest x isLast
    rw [← hash, named] at number
    exact ⟨parent.trans hash.symm, number⟩
  have piece : Ascending kept.reverse :=
    (honest.linked answer).suffix (reverse_suffix.2 upper)
  have top : ∀ y ∈ kept.head?, y = newest := by
    intro y isHead
    obtain ⟨rest, rfl⟩ := upper
    rw [head?_append, isHead] at isNewest
    exact Option.some.inj isNewest
  refine ⟨?_, fun x mem => ?_, fun x mem => ?_, fun x isHead => ?_⟩
  · rw [reverse_append, Ascending, isChain_append]
    refine ⟨piece, covers.linked, fun x isLast y isHead => ?_⟩
    rw [getLast?_reverse] at isLast
    rw [head?_reverse] at isHead
    obtain rfl := top x isLast
    exact below y isHead
  · rcases mem_append.1 mem with mem | mem
    · exact covers.named x mem
    · exact honest.named answer (upper.subset mem)
  · rcases mem_append.1 mem with mem | mem
    · exact covers.served x mem
    · exact ⟨round, _, headers, answer, upper.subset mem⟩
  cases down with
  | nil =>
    obtain ⟨atStart, zero⟩ := covers.empty rfl
    obtain rfl := top x isHead
    exact ⟨hash.trans atStart, by rw [zero, Nat.zero_max]⟩
  | cons first rest =>
    obtain rfl : first = x := by simpa using isHead
    obtain ⟨atStart, number⟩ := covers.newest first rfl
    refine ⟨atStart, ?_⟩
    obtain ⟨last, isLast⟩ : ∃ last, (first :: rest).getLast? = some last :=
      Option.isSome_iff_exists.1 (by simp)
    have lower := (below last isLast).2
    have between := covers.linked.number (a := last) (b := first) (i := rest.length)
      (by rw [head?_reverse]; exact isLast) (by simp)
    omega

theorem addFullsyncBatch_append {table : Nat → Option Header}
    (before : ∀ x ∈ down, table x.number = some x) (linked : Ascending (down ++ kept).reverse) :
    ∀ x ∈ down ++ kept, addFullsyncBatch table kept x.number = some x := by
  have distinct : ∀ {x y}, x ∈ down ++ kept → y ∈ down ++ kept → x.number = y.number → x = y :=
    fun hx hy => linked.eq_of_number (mem_reverse.2 hx) (mem_reverse.2 hy)
  intro x mem
  by_cases here : x ∈ kept
  · exact addFullsyncBatch_of_mem here fun h mem' same =>
      distinct (mem_append_right _ mem') mem same
  · refine (addFullsyncBatch_of_notMem fun h mem' same => here ?_).trans
      (before x ((mem_append.1 mem).resolve_right here))
    exact distinct (mem_append_right _ mem') mem same ▸ mem'

theorem Covers.next (covers : Covers preimage env start w down) (honest : env.Honest preimage)
    {oldest : Header} (answer : env.requestBlockHeaders round w.syncHead = .headers headers)
    (isNewest : headers.head? = some newest) (isOldest : headers.getLast? = some oldest)
    (goesOn : oldest.parentHash ≠ zeroHash) :
    Covers preimage env start {
      syncHead := oldest.parentHash
      endBlockNumber := max w.endBlockNumber newest.number
      singleBatch := false
      attempts := 0
      fullsyncHeaders := addFullsyncBatch w.fullsyncHeaders headers } (down ++ headers) := by
  have all := covers.collect honest answer isNewest prefix_rfl
  have nonempty : headers ≠ [] := fun empty => by simp [empty] at isNewest
  refine ⟨all.linked, all.named, all.served, all.first, fun empty => ?_, fun x isLast => ?_,
    addFullsyncBatch_append covers.table all.linked, by simp [nonempty]⟩
  · exact absurd (append_eq_nil_iff.1 empty).2 nonempty
  · rw [getLast?_append_of_ne_nil _ nonempty, isOldest] at isLast
    obtain rfl := Option.some.inj isLast
    exact ⟨rfl, goesOn, honest.numbered answer (mem_of_getLast? isOldest) goesOn⟩

structure Plan (preimage : H256 → Header) (batches : List (List Header)) : Prop where
  nonempty : ∀ batch ∈ batches, batch ≠ []
  ascending : Ascending batches.flatten
  named : ∀ x ∈ batches.flatten, preimage x.hash = x

/-- The batches of a walk: consecutive pieces of a chain of served headers that ends in the sync
head. There are none only if the sync head can be resumed from, and one if the served numbers are
close to one another. -/
structure Planned (preimage : H256 → Header) (env : SyncEnv) (s : Store) (start : H256)
    (batches : List (List Header)) : Prop extends Plan preimage batches where
  served : ∀ x ∈ batches.flatten, env.Served x
  newest : ∀ x ∈ batches.flatten.getLast?, x.hash = start
  empty : batches = [] → s.isCanonicalSync start = true ∧ s.hasBlockAndState start = true
  anchors : env.Rooted s → s.Anchors batches.flatten
  short : (∀ {x y}, env.Served x → env.Served y → x.number < y.number + env.executeBatchSize) →
    batches.length ≤ 1

variable {s : Store} {d : Download} {localHead : Nat}

theorem planned_of_table {all : List Header} {a last : Header}
    (linked : Ascending all.reverse) (named : ∀ x ∈ all, preimage x.hash = x)
    (served : ∀ x ∈ all, env.Served x)
    (isOldest : all.getLast? = some a) (isNewest : all.head? = some last) (hash : last.hash = start)
    (anchors : env.Rooted s → 0 < a.number ∧ s.Anchors [a])
    (single : d.singleBatch = false) (lower : d.startBlockNumber = a.number)
    (upper : d.endBlockNumber = last.number) (above : 0 < last.number)
    (table : ∀ x ∈ all, d.fullsyncHeaders x.number = some x) :
    ∃ batches, d.batches env.executeBatchSize = batches.map .ok ∧
      Planned preimage env s start batches := by
  have length : 0 < all.length := length_pos_of_mem (mem_of_getLast? isOldest)
  have isFirst : all.reverse.head? = some a := by rw [head?_reverse, isOldest]
  have isLast : all.reverse.getLast? = some last := by rw [getLast?_reverse, isNewest]
  have span : last.number = a.number + (all.length - 1) := by
    refine linked.number isFirst ?_
    rw [← isLast, getLast?_eq_getElem?, length_reverse]
  -- A block zero at the bottom is left out.
  set plan := all.reverse.drop (max a.number 1 - a.number) with planIs
  have planLength : plan.length = last.number + 1 - max a.number 1 := by
    rw [planIs, length_drop, length_reverse]
    omega
  have covered : ∀ {i : Nat} {b}, plan[i]? = some b →
      d.fullsyncHeaders (max a.number 1 + i) = some b := by
    intro i b found
    rw [planIs, getElem?_drop] at found
    have number := linked.number isFirst found
    rw [show max a.number 1 + i = b.number by omega]
    exact table b (mem_reverse.1 (mem_of_getElem? found))
  have fromAll : ∀ x ∈ plan, x ∈ all := fun x mem => mem_reverse.1 (mem_of_mem_drop mem)
  obtain ⟨batches, read, flat, nonempty, single'⟩ :=
    fullsyncBatches_eq env.executeBatchSize_pos covered planLength planLength.le
  refine ⟨batches, ?_, ⟨nonempty, ?_, ?_⟩, ?_, ?_, ?_, fun rooted => ?_, fun close => single' ?_⟩
  · simp only [Download.batches, single, Bool.false_eq_true, if_false, lower, upper, read]
  · rw [flat]
    exact linked.suffix (drop_suffix ..)
  · rw [flat]
    exact fun x mem => named x (fromAll x mem)
  · rw [flat]
    exact fun x mem => served x (fromAll x mem)
  · rw [flat]
    intro x isLast'
    rw [planIs, getLast?_drop, if_neg (by rw [length_reverse]; omega), isLast] at isLast'
    rw [← Option.some.inj isLast', hash]
  · rintro rfl
    have := congrArg List.length flat
    rw [planLength] at this
    simp only [flatten_nil, length_nil] at this
    omega
  · obtain ⟨positive, anchors⟩ := anchors rooted
    rw [flat, planIs, max_eq_left positive, Nat.sub_self, drop_zero]
    rw [Store.Anchors, isFirst]
    exact anchors
  · have := close (served last (mem_of_mem_head? isNewest)) (served a (mem_of_getLast? isOldest))
    omega

theorem isResumePoint_of_firstResumePointInBatch {i : Nat}
    (found : s.firstResumePointInBatch headers localHead = some i) :
    (∃ x, headers[i]? = some x ∧ s.isResumePoint x = true) ∧
      ∀ {j x}, j < i → headers[j]? = some x → s.isResumePoint x = false := by
  unfold Store.firstResumePointInBatch at found
  split at found
  · cases found
  split at found
  · cases found
  · obtain ⟨bound, resume, before⟩ := findIdx?_eq_some_iff_getElem.1 found
    refine ⟨⟨headers[i], getElem?_eq_getElem bound, resume⟩, fun {j x} lt isJ => ?_⟩
    obtain ⟨_, rfl⟩ := List.getElem?_eq_some_iff.1 isJ
    simpa using before j lt

/-- A header that is a resume point is the stored one, and its state is there. -/
structure Store.Resumes (preimage : H256 → Header) (s : Store) : Prop where
  genuine : ∀ {h x}, s.getBlockHeaderByHash h = some x → x.hash = h ∧ preimage h = x
  resume : ∀ x : Header, preimage x.hash = x → s.isResumePoint x = true →
    s.isCanonicalSync x.hash = true ∧ s.hasBlockAndState x.hash = true

theorem Store.resumes_of_genuine
    (genuine : ∀ {h x}, s.headers h = some x → x.hash = h ∧ preimage h = x)
    (same : ∀ hash, s.getBlockHeaderByHash hash = s.headers hash) : s.Resumes preimage := by
  refine ⟨fun found => genuine (same _ ▸ found), fun x named resume => ?_⟩
  obtain ⟨canonical, state⟩ := Bool.and_eq_true_iff.1 resume
  have stored : s.headers x.hash = some x := by
    rw [Store.isCanonicalSync] at canonical
    split at canonical
    · next header found => rw [found, ← (genuine found).2, named]
    · cases canonical
  refine ⟨canonical, ?_⟩
  rw [Store.hasBlockAndState, same, stored]
  exact state

theorem Store.Sound.resumes (sound : s.Sound preimage) : s.Resumes preimage :=
  Store.resumes_of_genuine sound.genuine sound.canonical.getBlockHeaderByHash

variable (resumes : s.Resumes preimage) (covers : Covers preimage env start w down)
  (honest : env.Honest preimage)

include resumes covers honest

/-- Where the walk stops, the oldest header that is kept stands on a resume point. -/
theorem anchors_of_stop {oldest a : Header} (rooted : env.Rooted s)
    (answer : env.requestBlockHeaders round w.syncHead = .headers headers)
    (isNewest : headers.head? = some newest) (isOldest : headers.getLast? = some oldest)
    (stops : (s.getBlockHeaderByHash oldest.parentHash).any s.isResumePoint = true ∨
      (s.firstResumePointInBatch headers localHead).isSome = true ∨ oldest.parentHash = zeroHash)
    (isBottom : (down ++ headers.take
      ((s.firstResumePointInBatch headers localHead).getD headers.length)).getLast? = some a) :
    a.parentHash ≠ zeroHash ∧ s.Anchors [a] := by
  simp only [Store.Anchors, head?_cons, Option.mem_def, Option.some.injEq, forall_eq']
  have nonempty : headers ≠ [] := fun empty => by simp [empty] at isNewest
  cases index : s.firstResumePointInBatch headers localHead with
  | some i =>
    obtain ⟨⟨r, isR, resume⟩, before⟩ := isResumePoint_of_firstResumePointInBatch index
    have resumed := resumes.resume r (honest.named answer (mem_of_getElem? isR)) resume
    rw [index, Option.getD_some] at isBottom
    cases i with
    | zero =>
      -- The whole answer was executed before; the collected headers stand on its newest block.
      rw [take_zero, append_nil] at isBottom
      obtain ⟨parent, nonzero, -⟩ := covers.oldest a isBottom
      rw [← head?_eq_getElem?] at isR
      rw [parent]
      refine ⟨nonzero, ?_⟩
      rw [← honest.newest answer isR]
      exact resumed
    | succ i =>
      have bound := (List.getElem?_eq_some_iff.1 isR).1
      have isA : headers[i]? = some a := by
        rw [getLast?_append_of_ne_nil _ (by simp [nonempty]), getLast?_take,
          if_neg (by omega)] at isBottom
        simpa [getElem?_eq_getElem (show i < headers.length by omega)] using isBottom
      have follows : a.parentHash = r.hash := by
        have chain := isChain_reverse.1 (honest.linked answer)
        have := chain.getElem i bound
        rw [getElem?_eq_getElem (by omega), Option.some.injEq] at isA isR
        rw [isA, isR] at this
        exact this.1
      refine ⟨fun zero => ?_, follows ▸ resumed⟩
      have := (rooted ⟨round, _, headers, answer, mem_of_getElem? isA⟩ zero).2
      rw [before (Nat.lt_succ_self i) isA] at this
      cases this
  | none =>
    rw [index, Option.getD_none, take_length, getLast?_append_of_ne_nil _ nonempty, isOldest,
      Option.some.injEq] at isBottom
    subst isBottom
    have nonzero : oldest.parentHash ≠ zeroHash := by
      intro zero
      obtain ⟨number, resume⟩ :=
        rooted ⟨round, _, headers, answer, mem_of_getLast? isOldest⟩ zero
      simp only [Store.firstResumePointInBatch, isOldest, number, Nat.not_lt_zero, if_false] at index
      have := findIdx?_eq_none_iff.1 index oldest (mem_of_getLast? isOldest)
      rw [resume] at this
      cases this
    refine ⟨nonzero, ?_⟩
    obtain ⟨p, found, resume⟩ := (Option.any_eq_true _ _).1
      (stops.resolve_right fun other => other.elim (by simp [index]) nonzero)
    obtain ⟨hash, own⟩ := resumes.genuine found
    rw [← hash]
    exact resumes.resume p (by rw [hash, own]) resume

theorem finishWalk_found {oldest : Header} (answer : env.requestBlockHeaders round w.syncHead = .headers headers)
    (isNewest : headers.head? = some newest) (isOldest : headers.getLast? = some oldest)
    (stops : (s.getBlockHeaderByHash oldest.parentHash).any s.isResumePoint = true ∨
      (s.firstResumePointInBatch headers localHead).isSome = true ∨ oldest.parentHash = zeroHash)
    (found : finishWalk s w headers newest (s.firstResumePointInBatch headers localHead) =
      .found d) :
    ∃ batches, d.batches env.executeBatchSize = batches.map .ok ∧
      Planned preimage env s start batches := by
  set kept := headers.take ((s.firstResumePointInBatch headers localHead).getD headers.length)
    with keptIs
  have all := covers.collect honest answer isNewest ( take_prefix _ _ : kept <+: headers)
  have hash := honest.newest answer isNewest
  have named := honest.named answer (mem_of_mem_head? isNewest)
  have bottom : ∀ a, (down ++ kept).getLast? = some a → env.Rooted s →
      0 < a.number ∧ s.Anchors [a] := by
    intro a isBottom rooted
    obtain ⟨nonzero, anchors⟩ :=
      anchors_of_stop resumes covers honest rooted answer isNewest isOldest stops isBottom
    obtain ⟨_, _, _, answer', mem⟩ := all.served a (mem_of_getLast? isBottom)
    rw [honest.numbered answer' mem nonzero]
    exact ⟨Nat.succ_pos _, anchors⟩
  simp only [finishWalk, ← keptIs] at found
  split at found
  · injection found with isDownload
    subst isDownload
    by_cases single : w.singleBatch = true
    · obtain rfl := covers.single.1 single
      obtain ⟨atStart, -⟩ := covers.empty rfl
      by_cases nothing : kept = []
      · -- The newest header is a resume point itself.
        refine ⟨[], by simp [Download.batches, single, nothing], ⟨by simp, .nil, by simp⟩,
          by simp, by simp, fun _ => ?_, by simp [Store.Anchors], by simp⟩
        have index : s.firstResumePointInBatch headers localHead = some 0 := by
          cases headers with
          | nil => cases isNewest
          | cons first rest =>
            cases idx : s.firstResumePointInBatch (first :: rest) localHead with
            | none => simp [keptIs, idx] at nothing
            | some i => simpa [keptIs, idx] using nothing
        obtain ⟨⟨x, first, resume⟩, -⟩ := isResumePoint_of_firstResumePointInBatch index
        rw [← head?_eq_getElem?, isNewest] at first
        obtain rfl := Option.some.inj first
        rw [← atStart, ← hash]
        exact resumes.resume _ named resume
      · have flat : [kept.reverse].flatten = kept.reverse := flatten_singleton
        refine ⟨[kept.reverse], by simp [Download.batches, single, nothing],
          ⟨by simpa using nothing, ?_, ?_⟩, ?_, ?_, by simp, fun rooted a isFirst => ?_, by simp⟩
        · rw [flat]
          exact all.linked
        · rw [flat]
          exact fun x mem => all.named x (mem_reverse.1 mem)
        · rw [flat]
          exact fun x mem => all.served x (mem_reverse.1 mem)
        · rw [flat, getLast?_reverse]
          exact fun x isHead => (all.first x isHead).1
        · rw [flat, head?_reverse] at isFirst
          exact (bottom a isFirst rooted).2 a rfl
    · have several : down ≠ [] := fun empty => single (covers.single.2 empty)
      obtain ⟨last, isLast⟩ : ∃ last, down.head? = some last :=
        Option.isSome_iff_exists.1 (by simpa using several)
      have isHead : (down ++ kept).head? = some last := by rw [head?_append, isLast]; rfl
      obtain ⟨lowest, isBottom⟩ : ∃ lowest, down.getLast? = some lowest :=
        Option.isSome_iff_exists.1 (by simpa using several)
      obtain ⟨-, -, lower⟩ := covers.oldest lowest isBottom
      have between := covers.linked.number (a := lowest) (b := last) (i := down.length - 1)
        (by rw [head?_reverse, isBottom])
        (by rw [← length_reverse, ← getLast?_eq_getElem?, getLast?_reverse, isLast])
      rw [← hash, named] at lower
      simp only [single, Bool.false_eq_true, if_false]
      obtain ⟨atStart, number⟩ := all.first last isHead
      have isLowest : (down ++ kept).getLast? = some (kept.getLast?.getD lowest) := by
        rw [getLast?_append, isBottom]
        cases kept.getLast? <;> rfl
      refine planned_of_table all.linked all.named all.served isLowest isHead atStart
        (bottom _ isLowest) rfl ?_ number (by omega) (addFullsyncBatch_append covers.table all.linked)
      show (kept.getLast?.map Header.number).getD (newest.number + 1) = _
      cases kept.getLast? with
      | none => exact lower.symm
      | some x => rfl
  · cases found

theorem walkHeaders_found {rounds : Nat} {fcuHead : H256}
    (found : walkHeaders env s fcuHead rounds w = .found d) :
    ∃ batches, d.batches env.executeBatchSize = batches.map .ok ∧
      Planned preimage env s start batches := by
  induction rounds generalizing w down with
  | zero => cases found
  | succ rounds ih =>
    rw [walkHeaders] at found
    split at found
    · cases found
    split at found
    · cases found
    · split at found
      · cases found
      · exact ih (w := { w with attempts := w.attempts + 1 }) ⟨covers.linked, covers.named,
          covers.served, covers.newest, covers.empty, covers.oldest, covers.table, covers.single⟩ found
    · next headers answer =>
      split at found
      · next newest oldest isNewest isOldest =>
        simp only at found
        split at found
        · next stops =>
          simp only [Bool.or_eq_true, decide_eq_true_eq, or_assoc] at stops
          exact finishWalk_found resumes covers honest answer isNewest isOldest stops found
        next goesOn =>
        refine ih (covers.next honest answer isNewest isOldest ?_) found
        simp only [Bool.or_eq_true, decide_eq_true_eq, not_or] at goesOn
        exact goesOn.2
      · cases found

end Walk

end Ethrex.Chain
