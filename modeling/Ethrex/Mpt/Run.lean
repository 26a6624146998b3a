import Ethrex.Mpt.Refine

/-!
# Runs of a trie in memory

No reference of a trie that starts empty holds only a hash, so the database is never read.
-/

namespace Ethrex.Mpt

open Patricia Rlp List

inductive Step where
  | insert (key : Bytes) (value : Value)
  | remove (key : Bytes)
  | hashNoCommit
  | commitWithoutStoring

variable (m : Bytes → Option Bytes)

namespace Step

variable {D : Type} [TrieDB D] (keccak256 : Bytes → H256) (fuel : Nat)

/-- The trie after the call, and what `Trie::remove` returns. -/
def run (trie : Trie D) : Step → Result (Trie D × Option Bytes)
  | .insert key value => do
    let trie ← trie.insert keccak256 fuel key value.val
    .ok (trie, none)
  | .remove key => trie.remove keccak256 fuel key
  | .hashNoCommit => .ok ((trie.hashNoCommit keccak256).2, none)
  | .commitWithoutStoring => .ok ((trie.commitWithoutStoring keccak256).2, none)

/-- Fuel for the call: a key of `n` bytes has `2 * n` nibbles. -/
def Fueled : Step → Prop
  | .insert key _ => 2 * key.length + 3 ≤ fuel
  | .remove key => 2 * key.length + 3 ≤ fuel
  | _ => True

def apply : Step → Bytes → Option Bytes
  | .insert key value => Function.update m key (some value.val)
  | .remove key => Function.update m key none
  | _ => m

def output : Step → Option Bytes
  | .remove key => m key
  | _ => none

end Step

open Step (apply output)

section Run

variable {D : Type} [TrieDB D] (keccak256 : Bytes → H256) (fuel : Nat)

def run (trie : Trie D) : List Step → Result (Trie D × List (Option Bytes))
  | [] => .ok (trie, [])
  | step :: steps => do
    let (trie, out) ← step.run keccak256 fuel trie
    let (trie, outs) ← run trie steps
    .ok (trie, out :: outs)

/-- The map after the calls: a key has the value of its last insertion, if no removal follows. -/
def mapAfter (steps : List Step) : Bytes → Option Bytes :=
  steps.foldl apply m

def outputs (m : Bytes → Option Bytes) : List Step → List (Option Bytes)
  | [] => []
  | step :: steps => step.output m :: outputs (step.apply m) steps

end Run

def emptyMap : Bytes → Option Bytes := fun _ => none

/-! ### Runs refine the map -/

/-- The tree has the entries of the map and no others. -/
structure Maps (t : MTree) (m : Bytes → Option Bytes) : Prop where
  lookup : ∀ key, (t.lookup (word key)).map Subtype.val = m key
  words : ∀ w, t.lookup w ≠ none → ∃ key, w = word key

abbrev InMemory {D : Type} (keccak256 : Bytes → H256) (trie : Trie D) (t : MTree) : Prop :=
  TrieDenotes keccak256 (fun _ _ => True) (fun _ _ => False) trie t

section

variable {D : Type} {keccak256 : Bytes → H256} {trie : Trie D} {t : MTree}
  {m : Bytes → Option Bytes}

theorem maps_nil : Maps .nil emptyMap := ⟨fun _ => by simp [emptyMap], by simp⟩

theorem Maps.insert (h : Maps t m) (key : Bytes) (v : Value) :
    Maps (t.insert (word key) v) (Function.update m key (some v.val)) := by
  constructor
  · intro key'
    rw [Tree.lookup_insert]
    by_cases hk : key' = key
    · simp [hk]
    · simp [hk, h.lookup]
  · intro w hw
    rw [Tree.lookup_insert] at hw
    by_cases hk : w = word key
    · exact ⟨key, hk⟩
    · exact h.words w (by simpa [hk] using hw)

theorem Maps.remove (h : Maps t m) (key : Bytes) :
    Maps (t.remove (word key)) (Function.update m key none) := by
  constructor
  · intro key'
    rw [Tree.lookup_remove]
    by_cases hk : key' = key
    · simp [hk]
    · simp [hk, h.lookup]
  · intro w hw
    rw [Tree.lookup_remove] at hw
    by_cases hk : w = word key
    · exact ⟨key, hk⟩
    · exact h.words w (by simpa [hk] using hw)

theorem Maps.unique {s : MTree} (hs : Maps s m) (ht : Maps t m) (hsc : s.Canonical)
    (htc : t.Canonical) : s = t := by
  refine hsc.ext_lookup htc fun w => ?_
  have hkey : ∀ key, s.lookup (word key) = t.lookup (word key) := fun key =>
    Option.map_injective Subtype.val_injective ((hs.lookup key).trans (ht.lookup key).symm)
  by_cases hw : ∃ key, w = word key
  · obtain ⟨key, rfl⟩ := hw
    exact hkey key
  have hnone : ∀ u : MTree, Maps u m → u.lookup w = none := fun u hu => by
    by_contra hne
    exact hw (hu.words w hne)
  rw [hnone s hs, hnone t ht]

theorem Maps.eq_nil_iff (h : Maps t m) (hc : t.Canonical) : t = .nil ↔ ∀ key, m key = none := by
  constructor
  · rintro rfl key
    rw [← h.lookup]
    simp
  intro hm
  refine hc.eq_nil fun w => ?_
  by_contra hne
  obtain ⟨key, rfl⟩ := h.words w hne
  exact hne (by simpa [hm] using h.lookup key)

theorem TrieDenotes.exists_node {Memo : List UInt8 → MTree → Prop}
    (h : TrieDenotes keccak256 Memo (fun _ _ => False) trie t) (ht : t ≠ .nil) :
    ∃ node memo, trie.root = .node node memo ∧
      node.encode keccak256 = encodeOf keccak256 t := by
  have hroot := h.root
  generalize trie.root = r at hroot
  cases hroot with
  | nil => exact absurd rfl ht
  | fresh hn => exact ⟨_, _, rfl, hn.encode_eq⟩
  | memo hn _ _ => exact ⟨_, _, rfl, hn.encode_eq⟩
  | stored _ hs => exact hs.elim

variable [TrieDB D]

theorem readable_inMemory (keccak256 : Bytes → H256) (db : D) :
    Readable keccak256 (fun _ _ => True) (fun _ _ => False) db :=
  ⟨fun _ _ _ h => h.elim, fun _ _ h => h.elim⟩

variable {fuel : Nat}

theorem step_refines (h : InMemory keccak256 trie t) (hm : Maps t m) (step : Step)
    (hf : step.Fueled fuel) :
    ∃ trie' t', step.run keccak256 fuel trie = .ok (trie', step.output m) ∧
      trie'.db = trie.db ∧ InMemory keccak256 trie' t' ∧ Maps t' (step.apply m) := by
  have hdb := readable_inMemory keccak256 trie.db
  cases step with
  | insert key value =>
    obtain ⟨trie', hrun, hdb', hd⟩ := h.insert hdb key value hf
    exact ⟨trie', _, by simp [Step.run, hrun, output], hdb', hd, hm.insert key value⟩
  | remove key =>
    have hf' : 2 * key.length < fuel := by
      have : 2 * key.length + 3 ≤ fuel := hf
      omega
    obtain ⟨trie', hrun, hdb', hd⟩ := h.remove hdb key hf'
    exact ⟨trie', _, by rw [Step.run, hrun, hm.lookup, output], hdb', hd, hm.remove key⟩
  | hashNoCommit =>
    refine ⟨_, t, rfl, ?_, h.hashNoCommit_trie fun _ _ _ => trivial, hm⟩
    rw [Trie.hashNoCommit]
    split <;> rfl
  | commitWithoutStoring =>
    exact ⟨_, t, rfl, rfl, h.commitWithoutStoring fun _ _ _ => trivial, hm⟩

theorem run_refines (h : InMemory keccak256 trie t) (hm : Maps t m) (steps : List Step)
    (hf : ∀ step ∈ steps, step.Fueled fuel) :
    ∃ trie' t', run keccak256 fuel trie steps = .ok (trie', outputs m steps) ∧
      trie'.db = trie.db ∧ InMemory keccak256 trie' t' ∧ Maps t' (mapAfter m steps) := by
  induction steps generalizing trie t m with
  | nil => exact ⟨trie, t, rfl, rfl, h, hm⟩
  | cons step steps ih =>
    obtain ⟨trie₁, t₁, hrun₁, hdb₁, h₁, hm₁⟩ := step_refines h hm step (hf step (by simp))
    obtain ⟨trie₂, t₂, hrun₂, hdb₂, h₂, hm₂⟩ := ih h₁ hm₁ fun s hs => hf s (by simp [hs])
    exact ⟨trie₂, t₂, by simp [run, hrun₁, hrun₂, outputs], hdb₂.trans hdb₁, h₂, hm₂⟩

end

/-! ### Reading after any run -/

/-- From the empty trie no sequence of insertions and removals fails, each removal returns the value
its key had, and every key reads as its last insertion that no removal follows. Hashing in between
changes nothing. -/
theorem run_get (keccak256 : Bytes → H256) (steps : List Step) (fuel : Nat)
    (hf : ∀ step ∈ steps, step.Fueled fuel) :
    ∃ trie, run keccak256 fuel (Trie.new InMemoryTrieDB.newEmpty) steps =
        .ok (trie, outputs emptyMap steps) ∧
      ∀ key fuel', 2 * key.length + 3 ≤ fuel' →
        trie.get keccak256 fuel' key = .ok (mapAfter emptyMap steps key) := by
  have hnew : InMemory keccak256 (Trie.new InMemoryTrieDB.newEmpty) .nil := trieDenotes_new _
  obtain ⟨trie, t, hrun, -, hd, hm⟩ := run_refines hnew maps_nil steps hf
  refine ⟨trie, hrun, fun key fuel' hf' => ?_⟩
  rw [hd.get (readable_inMemory keccak256 trie.db) (fun _ => rfl) key (by omega), hm.lookup]

theorem run_get_of_prefix_keys :
    ∃ trie, run (keccakTable []) 9 (Trie.new InMemoryTrieDB.newEmpty)
        [.insert [0x12] ⟨[1], by decide⟩, .insert [0x12, 0x34] ⟨[2], by decide⟩, .remove [0x12]] =
          .ok (trie, [none, none, some [1]]) ∧
      trie.get (keccakTable []) 9 [0x12] = .ok none ∧
      trie.get (keccakTable []) 9 [0x12, 0x34] = .ok (some [2]) := by
  obtain ⟨trie, hrun, hget⟩ := run_get (keccakTable [])
    [.insert [0x12] ⟨[1], by decide⟩, .insert [0x12, 0x34] ⟨[2], by decide⟩, .remove [0x12]] 9
    (by simp [Step.Fueled])
  exact ⟨trie, hrun, hget [0x12] 9 (by decide), hget [0x12, 0x34] 9 (by decide)⟩

/-! ### The hash after any run -/

/-- The list has exactly the entries of the map, each key once. -/
structure Lists (entries : List (Bytes × Value)) (m : Bytes → Option Bytes) : Prop where
  nodup : (entries.map Prod.fst).Nodup
  mem_iff : ∀ key value, (key, value) ∈ entries ↔ m key = some value.val

def insertions (entries : List (Bytes × Value)) : List Step :=
  entries.map fun e => .insert e.1 e.2

variable {entries : List (Bytes × Value)} {key value : Bytes} {fuel : Nat}

theorem mapAfter_insertions_of_notMem (h : key ∉ entries.map Prod.fst) (m : Bytes → Option Bytes) :
    mapAfter m (insertions entries) key = m key := by
  induction entries generalizing m with
  | nil => rfl
  | cons e entries ih =>
    simp only [map_cons, mem_cons, not_or] at h
    have := ih h.2 (apply m (.insert e.1 e.2))
    simpa [mapAfter, insertions, apply, h.1] using this

theorem mapAfter_insertions_of_mem {value : Value} (hnodup : (entries.map Prod.fst).Nodup)
    (h : (key, value) ∈ entries) (m : Bytes → Option Bytes) :
    mapAfter m (insertions entries) key = some value.val := by
  induction entries generalizing m with
  | nil => simp at h
  | cons e entries ih =>
    simp only [map_cons, nodup_cons] at hnodup
    rcases mem_cons.1 h with rfl | h
    · have := mapAfter_insertions_of_notMem hnodup.1 (apply m (.insert key value))
      simpa [mapAfter, insertions, apply] using this
    · have := ih hnodup.2 h (apply m (.insert e.1 e.2))
      simpa [mapAfter, insertions] using this

theorem Lists.mapAfter_insertions {m : Bytes → Option Bytes} (h : Lists entries m)
    (hm : ∀ key value, m key = some value → value ≠ []) :
    mapAfter emptyMap (insertions entries) = m := by
  funext key
  cases hk : m key with
  | none =>
    rw [mapAfter_insertions_of_notMem]
    · rfl
    intro hmem
    obtain ⟨⟨key', value⟩, he, rfl⟩ := mem_map.1 hmem
    rw [(h.mem_iff _ _).1 he] at hk
    cases hk
  | some value =>
    exact mapAfter_insertions_of_mem h.nodup ((h.mem_iff key ⟨value, hm key value hk⟩).2 hk) _

theorem exists_insert_of_mapAfter {m : Bytes → Option Bytes} {steps : List Step}
    (h : mapAfter m steps key = some value) :
    m key = some value ∨ ∃ v : Value, v.val = value ∧ Step.insert key v ∈ steps := by
  induction steps generalizing m with
  | nil => exact .inl h
  | cons step steps ih =>
    rcases ih (m := step.apply m) h with hm | ⟨v, hv, hmem⟩
    · cases step with
      | insert key' v =>
        by_cases hk : key = key'
        · subst hk
          exact .inr ⟨v, by simpa [apply] using hm, by simp⟩
        · exact .inl (by simpa [apply, hk] using hm)
      | remove key' =>
        by_cases hk : key = key'
        · subst hk
          simp [apply] at hm
        · exact .inl (by simpa [apply, hk] using hm)
      | hashNoCommit => exact .inl hm
      | commitWithoutStoring => exact .inl hm
    · exact .inr ⟨v, hv, by simp [hmem]⟩

theorem mapAfter_ne_nil {steps : List Step} (h : mapAfter emptyMap steps key = some value) :
    value ≠ [] := by
  rcases exists_insert_of_mapAfter h with h | ⟨v, rfl, -⟩
  · cases h
  · exact v.property

theorem exists_lists (steps : List Step) :
    ∃ entries, Lists entries (mapAfter emptyMap steps) := by
  suffices h : ∀ m, (∃ entries, Lists entries m) → ∃ entries, Lists entries (mapAfter m steps) from
    h emptyMap ⟨[], by simp, by simp [emptyMap]⟩
  induction steps with
  | nil => exact fun m hm => hm
  | cons step steps ih =>
    rintro m ⟨entries, hnodup, hmem⟩
    refine ih (step.apply m) ?_
    have hfilter : ∀ key, ((entries.filter (·.1 ≠ key)).map Prod.fst).Nodup := fun key =>
      hnodup.sublist (filter_sublist.map _)
    cases step with
    | insert key v =>
      refine ⟨(key, v) :: entries.filter (·.1 ≠ key), ?_, ?_⟩
      · simp only [map_cons, nodup_cons]
        exact ⟨by simp, hfilter key⟩
      intro key' v'
      by_cases hk : key' = key
      · subst hk
        simp [apply, Subtype.ext_iff, eq_comm]
      · simp [apply, hk, hmem]
    | remove key =>
      refine ⟨entries.filter (·.1 ≠ key), hfilter key, ?_⟩
      intro key' v'
      by_cases hk : key' = key
      · subst hk
        simp [apply]
      · simp [apply, hk, hmem]
    | hashNoCommit => exact ⟨entries, hnodup, hmem⟩
    | commitWithoutStoring => exact ⟨entries, hnodup, hmem⟩

theorem Lists.fueled {steps : List Step} (h : Lists entries (mapAfter emptyMap steps))
    (hf : ∀ step ∈ steps, step.Fueled fuel) : ∀ step ∈ insertions entries, step.Fueled fuel := by
  intro step hstep
  obtain ⟨⟨key, value⟩, he, rfl⟩ := mem_map.1 hstep
  rcases exists_insert_of_mapAfter ((h.mem_iff key value).1 he) with h | ⟨v, -, hmem⟩
  · cases h
  · exact hf (.insert key v) hmem

theorem encodeOf_ne_rlpNull {keccak256 : Bytes → H256} {t : MTree} (ht : t ≠ .nil) :
    encodeOf keccak256 t ≠ [rlpNull] := by
  have hlist : ∀ fields, encodeList fields ≠ [rlpNull] := by
    intro fields h
    rw [encodeList, encodeLength, encodeHeader] at h
    split at h
    · rename_i hlen
      simp only [cons_append, nil_append, List.cons.injEq] at h
      obtain ⟨hb, rfl⟩ := h
      simp [rlpNull] at hb
    · rename_i hlen
      have hnil := congrArg List.length h
      simp only [cons_append, length_cons, length_append, length_nil] at hnil
      omega
  cases t with
  | nil => exact absurd rfl ht
  | leaf w v => exact hlist _
  | ext w c => exact hlist _
  | branch cs v => exact hlist _

/-- A run from the empty trie leaves a canonical trie with right memos: its hash is a function of
the map alone. -/
theorem run_hash {D : Type} [TrieDB D] (keccak256 : Bytes → H256) (db : D) (steps : List Step)
    (hf : ∀ step ∈ steps, step.Fueled fuel) :
    ∃ trie t, run keccak256 fuel (Trie.new db) steps = .ok (trie, outputs emptyMap steps) ∧
      InMemory keccak256 trie t ∧ Maps t (mapAfter emptyMap steps) := by
  have hnew : InMemory keccak256 (Trie.new db) .nil := trieDenotes_new db
  obtain ⟨trie, t, hrun, -, hd, hm⟩ := run_refines hnew maps_nil steps hf
  exact ⟨trie, t, hrun, hd, hm⟩

/-- Runs that leave the same map leave the same hash: that of the trie built from the entries of the
map, and that of the empty trie exactly when the map is empty, unless the root's encoding collides
with the empty string. -/
theorem hashNoCommit_eq_of_mapAfter_eq {D : Type} [TrieDB D] (keccak256 : Bytes → H256) (db : D)
    (steps₁ steps₂ : List Step) (fuel : Nat) (hf₁ : ∀ step ∈ steps₁, step.Fueled fuel)
    (hf₂ : ∀ step ∈ steps₂, step.Fueled fuel)
    (hmap : mapAfter emptyMap steps₁ = mapAfter emptyMap steps₂) :
    ∃ trie₁ trie₂,
      run keccak256 fuel (Trie.new db) steps₁ = .ok (trie₁, outputs emptyMap steps₁) ∧
      run keccak256 fuel (Trie.new db) steps₂ = .ok (trie₂, outputs emptyMap steps₂) ∧
      (trie₁.hashNoCommit keccak256).1 = (trie₂.hashNoCommit keccak256).1 ∧
      (∃ entries, Lists entries (mapAfter emptyMap steps₁)) ∧
      (∀ entries, Lists entries (mapAfter emptyMap steps₁) →
        ∃ trie₀ outs, run keccak256 fuel (Trie.new db) (insertions entries) = .ok (trie₀, outs) ∧
          (trie₁.hashNoCommit keccak256).1 = (trie₀.hashNoCommit keccak256).1) ∧
      (keccak256 [rlpNull] = emptyTrieHash →
        (∀ node memo, trie₁.root = .node node memo →
          Set.InjOn keccak256 {node.encode keccak256, [rlpNull]}) →
        ((trie₁.hashNoCommit keccak256).1 = emptyTrieHash ↔
          ∀ key, mapAfter emptyMap steps₁ key = none)) := by
  obtain ⟨trie₁, t₁, hrun₁, hd₁, hm₁⟩ := run_hash keccak256 db steps₁ hf₁
  obtain ⟨trie₂, t₂, hrun₂, hd₂, hm₂⟩ := run_hash keccak256 db steps₂ hf₂
  refine ⟨trie₁, trie₂, hrun₁, hrun₂, ?_, exists_lists steps₁, ?_, ?_⟩
  · rw [hd₁.hashNoCommit, hd₂.hashNoCommit,
      hm₁.unique (hmap ▸ hm₂) hd₁.canonical hd₂.canonical]
  · intro entries hlists
    obtain ⟨trie₀, t₀, hrun₀, hd₀, hm₀⟩ :=
      run_hash keccak256 db (insertions entries) (hlists.fueled hf₁)
    rw [hlists.mapAfter_insertions fun _ _ => mapAfter_ne_nil] at hm₀
    exact ⟨trie₀, _, hrun₀, by
      rw [hd₁.hashNoCommit, hd₀.hashNoCommit, hm₁.unique hm₀ hd₁.canonical hd₀.canonical]⟩
  · intro hempty hcoll
    rw [hd₁.hashNoCommit, ← hm₁.eq_nil_iff hd₁.canonical]
    refine ⟨fun h => ?_, fun h => by rw [h]; rfl⟩
    by_contra ht
    rw [trieHashOf_of_ne_nil ht, rootHashOf, ← hempty] at h
    obtain ⟨node, memo, hroot, hn⟩ := hd₁.exists_node ht
    have hinj := hcoll node memo hroot
    rw [hn] at hinj
    exact encodeOf_ne_rlpNull ht (hinj (by simp) (by simp) h)

/-- The digests of the trie that maps `0x12` to `0x01` and of the empty string. -/
def oneKeyKeccak : Bytes → H256 :=
  keccakTable [
    ([0xc4, 0x82, 0x20, 0x12, 0x01],
      ⟨[0x2d, 0xe3, 0x32, 0x53, 0x8c, 0x25, 0x59, 0x46, 0xed, 0x20, 0x04, 0xd4, 0xff, 0xd7, 0x07,
        0xd8, 0x95, 0x2b, 0xfe, 0x28, 0xbd, 0x6a, 0x3e, 0x5d, 0xc5, 0x68, 0x0b, 0x63, 0xa4, 0x98,
        0xf6, 0x2c], rfl⟩),
    ([0x80], emptyTrieHash)]

theorem oneKeyKeccak_injOn (data : Bytes) : Set.InjOn oneKeyKeccak {data, [rlpNull]} := by
  have hempty : ∀ b, oneKeyKeccak b = emptyTrieHash → b = [rlpNull] := by
    intro b hb
    rw [oneKeyKeccak, keccakTable_cons, keccakTable_cons, keccakTable_nil] at hb
    split at hb
    · exact absurd hb (by decide)
    split at hb
    · assumption
    · exact absurd hb (by decide)
  rintro x (rfl | rfl) y (rfl | rfl) h
  · rfl
  · exact hempty _ h
  · exact (hempty _ h.symm).symm
  · rfl

/-- A detour over a second key, with both kinds of hashing in between, leaves no trace. -/
theorem hashNoCommit_eq_after_detour :
    ∃ trie₁ trie₂ : Trie InMemoryTrieDB,
      run oneKeyKeccak 5 (Trie.new InMemoryTrieDB.newEmpty)
        [.insert [0x12] ⟨[1], by decide⟩, .hashNoCommit, .insert [0x34] ⟨[2], by decide⟩,
          .commitWithoutStoring, .remove [0x34]] =
        .ok (trie₁, [none, none, none, none, some [2]]) ∧
      run oneKeyKeccak 5 (Trie.new InMemoryTrieDB.newEmpty) [.insert [0x12] ⟨[1], by decide⟩] =
        .ok (trie₂, [none]) ∧
      (trie₁.hashNoCommit oneKeyKeccak).1 = (trie₂.hashNoCommit oneKeyKeccak).1 ∧
      (trie₁.hashNoCommit oneKeyKeccak).1 ≠ emptyTrieHash := by
  obtain ⟨trie₁, trie₂, hrun₁, hrun₂, heq, -, -, hiff⟩ :=
    hashNoCommit_eq_of_mapAfter_eq oneKeyKeccak InMemoryTrieDB.newEmpty
      [.insert [0x12] ⟨[1], by decide⟩, .hashNoCommit, .insert [0x34] ⟨[2], by decide⟩,
        .commitWithoutStoring, .remove [0x34]]
      [.insert [0x12] ⟨[1], by decide⟩] 5 (by simp [Step.Fueled]) (by simp [Step.Fueled])
      (by
        funext key
        by_cases h : key = [0x34]
        · simp [mapAfter, Step.apply, emptyMap, h]
        · simp [mapAfter, Step.apply, h])
  refine ⟨trie₁, trie₂, hrun₁, hrun₂, heq, fun hempty => ?_⟩
  have hnone := (hiff rfl fun node _ _ => oneKeyKeccak_injOn (node.encode oneKeyKeccak)).1 hempty
  exact absurd (hnone [0x12]) (by simp [mapAfter, Step.apply, Function.update])

end Ethrex.Mpt
