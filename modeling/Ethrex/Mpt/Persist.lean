import Ethrex.Mpt.Decode
import Ethrex.Mpt.Run

/-!
# Tries kept in a database

A trie over an `InMemoryTrieDB` that is committed and opened again. `commit` skips memoized
subtrees: a hash is memoized only where the whole subtree is in the database.
-/

namespace Ethrex.Mpt

open Patricia Rlp List
open Nibbles (data empty fromHex)

namespace InMemoryTrieDB

def read (db : InMemoryTrieDB) (p : List UInt8) : Option Bytes :=
  db.inner (db.applyPrefix (fromHex p)).data

variable (db : InMemoryTrieDB) (key : Nibbles)

theorem applyPrefix_data :
    (db.applyPrefix key).data = (db.keyPrefix.map data).getD [] ++ key.data := by
  rw [applyPrefix]
  cases db.keyPrefix <;> rfl

theorem get_eq : TrieDB.get db key = .ok (db.read key.data) := by
  have : (db.applyPrefix key).data = (db.applyPrefix (fromHex key.data)).data := by
    rw [applyPrefix_data, applyPrefix_data, fromHex]
  change Except.ok (db.inner _) = _
  rw [this, read]

theorem read_put (value : Bytes) (p : List UInt8) :
    (db.put key value).read p = if p = key.data then some value else db.read p := by
  have hdata : (((db.put key value).applyPrefix (fromHex p)).data =
      (db.applyPrefix key).data) ↔ p = key.data := by
    rw [applyPrefix_data, applyPrefix_data, fromHex]
    exact append_right_inj _
  by_cases h : p = key.data
  · rw [if_pos h, read, hdata.2 h]
    simp [put]
  · rw [if_neg h, read]
    exact Function.update_of_ne (fun he => h (hdata.1 he)) _ _

theorem read_foldl_put {entries : List (Nibbles × Bytes)} {p : List UInt8} {value : Bytes}
    (hsame : ∀ e ∈ entries, e.1.data = p → e.2 = value) (db : InMemoryTrieDB)
    (h : (∃ e ∈ entries, e.1.data = p) ∨ db.read p = some value) :
    (entries.foldl (fun db e => db.put e.1 e.2) db).read p = some value := by
  induction entries generalizing db with
  | nil =>
    rcases h with ⟨e, he, -⟩ | h
    · cases he
    · exact h
  | cons e entries ih =>
    refine ih (fun e' he' => hsame e' (by simp [he'])) _ ?_
    rw [read_put]
    by_cases hp : p = e.1.data
    · exact .inr (by rw [if_pos hp, hsame e (by simp) hp.symm])
    rw [if_neg hp]
    rcases h with ⟨e', he', hp'⟩ | h
    · rcases mem_cons.1 he' with rfl | he'
      · exact absurd hp'.symm hp
      · exact .inl ⟨e', he', hp'⟩
    · exact .inr h

end InMemoryTrieDB

/-! ### Trees held by a database -/

section

variable (keccak256 : Bytes → H256)

/-- Every node of the tree at path `p` is in the database at its own path and can be read back. -/
def Held (db : InMemoryTrieDB) (p : List UInt8) (t : MTree) : Prop :=
  ∀ q s, Subtree t q s →
    db.read (p ++ hex q) = some (encodeOf keccak256 s) ∧ s.Proper ∧ Fits keccak256 s

/-- The trie denotes the tree, and its memoized and stored hashes name trees that its database
holds. -/
structure Persisted (trie : Trie InMemoryTrieDB) (t : MTree) : Prop where
  denotes : TrieDenotes keccak256 (Held keccak256 trie.db) (Held keccak256 trie.db) trie t
  pending : ∀ path ∈ trie.pendingRemoval, (16 : UInt8) ∈ path

variable {keccak256} {db : InMemoryTrieDB} {trie : Trie InMemoryTrieDB} {p : List UInt8} {t : MTree}
variable {q : Word} {s : MTree} {r : NodeRef} {Memo Stored : List UInt8 → MTree → Prop}

theorem Held.subtree (h : Held keccak256 db p t) (hs : Subtree t q s) :
    Held keccak256 db (p ++ hex q) s := by
  intro r u hu
  simpa using h (q ++ r) u (hs.trans hu)

theorem Held.self (h : Held keccak256 db p t) (ht : t ≠ .nil) :
    db.read p = some (encodeOf keccak256 t) ∧ t.Proper ∧ Fits keccak256 t := by
  simpa using h [] t (.self ht)

theorem Held.shallowNode (h : Held keccak256 db p t) (ht : t ≠ .nil) :
    Node.decode (encodeOf keccak256 t) = .ok (shallowNode keccak256 t) ∧
      NodeDenotes keccak256 (Held keccak256 db) (Held keccak256 db) p
        (shallowNode keccak256 t) t := by
  obtain ⟨-, hproper, hfit⟩ := h.self ht
  exact ⟨decode_encodeOf hproper hfit, shallowNode_denotes hproper fun _ _ hs _ => h.subtree hs⟩

theorem readable_held (keccak256 : Bytes → H256) (db : InMemoryTrieDB) :
    Readable keccak256 (Held keccak256 db) (Held keccak256 db) db := by
  constructor
  · intro p t ht h
    obtain ⟨hdec, hden⟩ := h.shallowNode ht
    refine ⟨h, _, hden, ?_⟩
    rw [hashOf_eq keccak256 ht, NodeHash.fromEncoded]
    split
    · simp [NodeRef.getNode, hdec]
    · have hread : TrieDB.get db ⟨p, []⟩ = .ok (some (encodeOf keccak256 t)) := by
        rw [InMemoryTrieDB.get_eq, (h.self ht).1]
      simp [NodeRef.getNode, getStoredNode, hread, encodeOf_ne_nil, hdec]
  · intro t ht h
    obtain ⟨hdec, hden⟩ := h.shallowNode ht
    refine ⟨_, _, ?_, encodeOf_ne_nil keccak256 t, hdec, hden⟩
    rw [InMemoryTrieDB.get_eq]
    exact congrArg Except.ok (h.self ht).1

theorem RootDenotes.commit_entries
    (h : RootDenotes keccak256 (Held keccak256 db) (Held keccak256 db) r t) :
    (∀ e ∈ (r.commit keccak256 empty).2.2, IsEntry keccak256 [] t e) ∧
      ∀ q s, Subtree t q s → Emitted keccak256
        (fun p s => db.read p = some (encodeOf keccak256 s))
        (r.commit keccak256 empty).2.2 (hex q) s := by
  have hskip : ∀ p t q s, Held keccak256 db p t → Subtree t q s →
      db.read (p ++ hex q) = some (encodeOf keccak256 s) := fun p t q s ht hs => (ht q s hs).1
  cases h with
  | nil => exact ⟨by simp [NodeRef.commit], fun q s hs => absurd hs Subtree.not_nil⟩
  | @fresh n _ hn =>
    have href : RefDenotes keccak256 (Held keccak256 db) (Held keccak256 db) [] (.node n none) t :=
      .fresh hn
    exact ⟨href.isEntry rfl, fun q s hs => by simpa using href.emitted hskip hskip rfl hs⟩
  | memo hn hh hm =>
    exact ⟨by simp [NodeRef.commit], fun q s hs => .inr (by simpa using hskip [] t q s hm hs)⟩
  | stored ht hs =>
    exact ⟨by simp [NodeRef.commit], fun q s hsub => .inr (by simpa using hskip [] t q s hs hsub)⟩

/-- An entry at the path of a subtree is its encoding: flat entries end in the terminator, and a
word leads to one subtree. -/
theorem IsEntry.eq_encodeOf {e : Nibbles × Bytes} (h : IsEntry keccak256 [] t e) (ht : t.Proper)
    (hs : Subtree t q s) (hp : e.1.data = hex q) : e.2 = encodeOf keccak256 s := by
  rcases h with ⟨q', s', hs', hdata, henc⟩ | ⟨q', w, v, -, hdata, -⟩
  · rw [hdata, nil_append, hex_inj] at hp
    subst hp
    rw [henc, hs'.unique hs ht]
  · rw [hdata, nil_append, ← terminated_append] at hp
    exact absurd hp.symm (hex_ne_terminated _ _)

/-- Writing the entries of a committed root puts every node of the tree at its path. -/
theorem read_of_entries {entries : List (Nibbles × Bytes)} {paths : List (List UInt8)}
    (ht : t.Proper) (hentry : ∀ e ∈ entries, IsEntry keccak256 [] t e)
    (hemit : ∀ q s, Subtree t q s → Emitted keccak256
      (fun p s => db.read p = some (encodeOf keccak256 s)) entries (hex q) s)
    (hpaths : ∀ path ∈ paths, (16 : UInt8) ∈ path) (hs : Subtree t q s) :
    ((entries ++ paths.map fun path => (fromHex path, [])).foldl
      (fun (db : InMemoryTrieDB) (e : Nibbles × Bytes) => db.put e.1 e.2) db).read (hex q) =
        some (encodeOf keccak256 s) := by
  refine InMemoryTrieDB.read_foldl_put (fun e he hp => ?_) db ?_
  · rcases mem_append.1 he with he | he
    · exact (hentry e he).eq_encodeOf ht hs hp
    -- a removed key is no path of a node
    obtain ⟨path, hpath, rfl⟩ := mem_map.1 he
    have hterm := hpaths path hpath
    rw [show path = hex q from hp] at hterm
    exact absurd hterm (terminator_notMem_hex q)
  · rcases hemit q s hs with ⟨e, he, hp, -⟩ | hread
    · exact .inl ⟨e, by simp [he], hp⟩
    · exact .inr hread

theorem RootDenotes.mono {Memo' Stored' : List UInt8 → MTree → Prop}
    (h : RootDenotes keccak256 Memo Stored r t) (hM : ∀ q s, Subtree t q s → Memo' (hex q) s)
    (hS : ∀ q s, Subtree t q s → Stored' (hex q) s) : RootDenotes keccak256 Memo' Stored' r t := by
  have hnode : ∀ n, NodeDenotes keccak256 Memo Stored [] n t →
      NodeDenotes keccak256 Memo' Stored' [] n t := fun n hn =>
    hn.mono (fun q s hs _ => hM q s hs) fun q s hs _ => hS q s hs
  cases h with
  | nil => exact .nil
  | fresh hn => exact .fresh (hnode _ hn)
  | memo hn hh _ => exact .memo (hnode _ hn) hh (hM [] t (.self hn.ne_nil))
  | stored ht _ => exact .stored ht (hS [] t (.self ht))

theorem commit_eq (trie : Trie InMemoryTrieDB) (acc : List (Nibbles × Bytes)) (root : NodeRef)
    (h : trie.commitWithoutStoring keccak256 = (acc, { trie with root, pendingRemoval := [] })) :
    trie.commit keccak256 =
      .ok { trie with
            db := acc.foldl (fun db e => db.put e.1 e.2) trie.db
            root, pendingRemoval := [] } := by
  rw [Trie.commit, h]
  rfl

theorem RootDenotes.eq_default (h : RootDenotes keccak256 Memo Stored r .nil) :
    r = NodeRef.default := by
  cases h with
  | nil => rfl
  | fresh hn => exact absurd rfl hn.ne_nil
  | memo hn _ _ => exact absurd rfl hn.ne_nil
  | stored hne _ => exact absurd rfl hne

theorem Persisted.commit_reads (h : Persisted keccak256 trie t)
    (hroot : t ≠ .nil → rootHashOf keccak256 t ≠ emptyTrieHash) :
    ∃ trie', trie.commit keccak256 = .ok trie' ∧ trie'.pendingRemoval = [] ∧
      (∀ q s, Subtree t q s → trie'.db.read (hex q) = some (encodeOf keccak256 s)) ∧
      ∀ Memo : List UInt8 → MTree → Prop, (∀ q s, Subtree t q s → Memo (hex q) s) →
        TrieDenotes keccak256 Memo Memo trie' t := by
  obtain ⟨⟨hr, hcan⟩, hpending⟩ := h
  by_cases ht : t = .nil
  · subst ht
    have hacc : trie.commit keccak256 = _ := commit_eq trie
      (trie.pendingRemoval.map fun nib => (fromHex nib, [])) NodeRef.default
      (by simp [Trie.commitWithoutStoring, hr.eq_default, NodeRef.default, NodeRef.isValid,
        NodeHash.isValid, NodeHash.default, NodeRef.computeHash])
    exact ⟨_, hacc, rfl, fun _ _ hs => absurd hs Subtree.not_nil, fun _ _ => ⟨.nil, hcan⟩⟩
  · obtain ⟨hentry, hemit⟩ := hr.commit_entries
    have hcommit : ∀ Memo : List UInt8 → MTree → Prop, (∀ q s, Subtree t q s → Memo (hex q) s) →
        RootDenotes keccak256 Memo Memo (trie.root.commit keccak256 empty).2.1 t :=
      fun Memo hM => (hr.mono hM hM).commit hM
    -- the root is not taken for the empty trie
    have hne : ((trie.root.commit keccak256 empty).2.1).computeHash keccak256 ≠
        .hashed emptyTrieHash := by
      intro heq
      have hfin := (hcommit (fun _ _ => True) fun _ _ _ => trivial).finalize_computeHash ht
      rw [heq] at hfin
      exact hroot ht hfin.symm
    have hacc : trie.commit keccak256 = _ := commit_eq trie
      ((trie.root.commit keccak256 empty).2.2 ++
        trie.pendingRemoval.map fun nib => (fromHex nib, []))
      (trie.root.commit keccak256 empty).2.1
      (by simp [Trie.commitWithoutStoring, hr.isValid_iff.2 ht, hne])
    exact ⟨_, hacc, rfl, fun _ _ => read_of_entries (hcan ht) hentry hemit hpending,
      fun Memo hM => ⟨hcommit Memo hM, hcan⟩⟩

theorem Persisted.commit (h : Persisted keccak256 trie t)
    (hfit : ∀ q s, Subtree t q s → Fits keccak256 s)
    (hroot : t ≠ .nil → rootHashOf keccak256 t ≠ emptyTrieHash) :
    ∃ trie', trie.commit keccak256 = .ok trie' ∧ Persisted keccak256 trie' t ∧
      (t ≠ .nil → Held keccak256 trie'.db [] t) := by
  have hcan := h.denotes.canonical
  obtain ⟨trie', hrun, hpending, hread, hden⟩ := h.commit_reads hroot
  have hheld : t ≠ .nil → Held keccak256 trie'.db [] t := fun ht q s hs =>
    ⟨hread q s hs, hs.proper (hcan ht), hfit q s hs⟩
  refine ⟨trie', hrun, ⟨hden _ fun q s hs => ?_, by simp [hpending]⟩, hheld⟩
  have ht : t ≠ .nil := by
    rintro rfl
    exact Subtree.not_nil hs
  exact (hheld ht).subtree hs

theorem persisted_open (hcan : t.Canonical) (hheld : t ≠ .nil → Held keccak256 db [] t)
    (hroot : t ≠ .nil → rootHashOf keccak256 t ≠ emptyTrieHash) :
    Persisted keccak256 (Trie.open db (trieHashOf keccak256 t)) t := by
  refine ⟨⟨?_, hcan⟩, by simp [Trie.open]⟩
  by_cases ht : t = .nil
  · subst ht
    simp only [Trie.open, trieHashOf, ne_eq, not_true_eq_false, if_false]
    exact .nil
  · rw [trieHashOf_of_ne_nil ht]
    simp only [Trie.open, ne_eq, hroot ht, not_false_eq_true, if_true]
    exact .stored ht (hheld ht)

variable {fuel : Nat}

theorem Persisted.insert (h : Persisted keccak256 trie t) (key : Bytes) (v : Value)
    (hf : 2 * key.length + 3 ≤ fuel) :
    ∃ trie', trie.insert keccak256 fuel key v.val = .ok trie' ∧
      Persisted keccak256 trie' (t.insert (word key) v) := by
  obtain ⟨trie', hrun, hdb, hd⟩ := h.denotes.insert (readable_held keccak256 trie.db) key v hf
  exact ⟨trie', hrun, hdb.symm ▸ hd, fun path hpath =>
    h.pending path (insert_pendingRemoval hrun hpath)⟩

theorem Persisted.remove (h : Persisted keccak256 trie t) (key : Bytes)
    (hf : 2 * key.length < fuel) :
    ∃ trie', trie.remove keccak256 fuel key =
        .ok (trie', (t.lookup (word key)).map Subtype.val) ∧
      Persisted keccak256 trie' (t.remove (word key)) := by
  obtain ⟨trie', hrun, hdb, hd⟩ := h.denotes.remove (readable_held keccak256 trie.db) key hf
  refine ⟨trie', hrun, hdb.symm ▸ hd, fun path hpath => ?_⟩
  rcases remove_pendingRemoval hrun path hpath with hold | rfl
  · exact h.pending path hold
  · simp [terminated]

end

/-- One step of a caller that keeps its trie in a database. -/
inductive Call where
  | insert (key : H256) (value : Value)
  | remove (key : H256)
  | commit
  | reopen

namespace Call

variable (keccak256 : Bytes → H256) (fuel : Nat)

/-- The trie after the call, and what `Trie::remove` returns.  Reopening commits the trie and
opens its database at the root hash. -/
def run (trie : Trie InMemoryTrieDB) : Call → Result (Trie InMemoryTrieDB × Option Bytes)
  | .insert key value => do
    let trie ← trie.insert keccak256 fuel key.bytes value.val
    .ok (trie, none)
  | .remove key => trie.remove keccak256 fuel key.bytes
  | .commit => do
    let trie ← trie.commit keccak256
    .ok (trie, none)
  | .reopen => do
    let (root, trie) ← trie.hash keccak256
    .ok (Trie.open trie.db root, none)

def update : Call → Option Step
  | .insert key value => some (.insert key.bytes value)
  | .remove key => some (.remove key.bytes)
  | _ => none

end Call

def runCalls (keccak256 : Bytes → H256) (fuel : Nat) (trie : Trie InMemoryTrieDB)
    (calls : List Call) : Result (Trie InMemoryTrieDB) :=
  calls.foldlM (fun trie call => Prod.fst <$> call.run keccak256 fuel trie) trie

def updates (calls : List Call) : List Step := calls.filterMap Call.update

/-- No trie on the way has a root node with the hash of the empty trie. -/
def RootsApart (keccak256 : Bytes → H256) (fuel : Nat) (calls : List Call) : Prop :=
  ∀ before, before <+: calls → ∀ (trie : Trie InMemoryTrieDB) outs node memo,
    run keccak256 fuel (Trie.new InMemoryTrieDB.newEmpty) (updates before) = .ok (trie, outs) →
      trie.root = .node node memo → keccak256 (node.encode keccak256) ≠ emptyTrieHash

section

variable {keccak256 : Bytes → H256} {trie : Trie InMemoryTrieDB} {t : MTree}
  {m : Bytes → Option Bytes} {fuel : Nat}

theorem Persisted.reopen (h : Persisted keccak256 trie t)
    (hfit : ∀ q s, Subtree t q s → Fits keccak256 s)
    (hroot : t ≠ .nil → rootHashOf keccak256 t ≠ emptyTrieHash) :
    ∃ trie', Call.reopen.run keccak256 fuel trie = .ok (trie', none) ∧
      Persisted keccak256 trie' t := by
  obtain ⟨trie₁, hrun, hp, hheld⟩ := h.commit hfit hroot
  have hdb : (trie₁.hashNoCommit keccak256).2.db = trie₁.db := by
    rw [Trie.hashNoCommit]
    split <;> rfl
  refine ⟨_, by simp only [Call.run, Trie.hash, hrun, Result.ok_bind]; rfl, ?_⟩
  rw [hdb, hp.denotes.hashNoCommit]
  exact persisted_open hp.denotes.canonical hheld hroot

theorem call_refines (h : Persisted keccak256 trie t) (hm : Maps t m) (call : Call)
    (hf : 67 ≤ fuel) (hfit : ∀ q s, Subtree t q s → Fits keccak256 s)
    (hroot : t ≠ .nil → rootHashOf keccak256 t ≠ emptyTrieHash) :
    ∃ trie' t' out, call.run keccak256 fuel trie = .ok (trie', out) ∧
      Persisted keccak256 trie' t' ∧ Maps t' (mapAfter m (updates [call])) := by
  cases call with
  | insert key value =>
    have hf' : 2 * key.bytes.length + 3 ≤ fuel := by
      rw [key.size]
      omega
    obtain ⟨trie', hrun, hp⟩ := h.insert key.bytes value hf'
    exact ⟨trie', _, none, by simp [Call.run, hrun], hp, hm.insert key.bytes value⟩
  | remove key =>
    have hf' : 2 * key.bytes.length < fuel := by
      rw [key.size]
      omega
    obtain ⟨trie', hrun, hp⟩ := h.remove key.bytes hf'
    exact ⟨trie', _, _, hrun, hp, hm.remove key.bytes⟩
  | commit =>
    obtain ⟨trie', hrun, hp, -⟩ := h.commit hfit hroot
    exact ⟨trie', t, none, by simp [Call.run, hrun], hp, hm⟩
  | reopen =>
    obtain ⟨trie', hrun, hp⟩ := h.reopen hfit hroot
    exact ⟨trie', t, none, hrun, hp, hm⟩

theorem update_eq_insert {call : Call} {key : Bytes} {v : Value}
    (h : call.update = some (.insert key v)) :
    ∃ k : H256, k.bytes = key ∧ call = .insert k v := by
  cases call with
  | insert k v' =>
    simp only [Call.update, Option.some.injEq, Step.insert.injEq] at h
    exact ⟨k, h.1, by rw [h.2]⟩
  | remove k => simp [Call.update] at h
  | commit => simp [Call.update] at h
  | reopen => simp [Call.update] at h

theorem updates_fueled (calls : List Call) (hf : 67 ≤ fuel) :
    ∀ step ∈ updates calls, step.Fueled fuel := by
  intro step hstep
  obtain ⟨call, -, hcall⟩ := mem_filterMap.1 hstep
  cases call with
  | insert k v =>
    cases hcall
    simp only [Step.Fueled, k.size]
    omega
  | remove k =>
    cases hcall
    simp only [Step.Fueled, k.size]
    omega
  | commit => cases hcall
  | reopen => cases hcall

theorem Maps.fits {calls : List Call} (hm : Maps t (mapAfter emptyMap (updates calls)))
    (hcan : t.Canonical)
    (hsize : ∀ key value, Call.insert key value ∈ calls → value.val.length ≤ maxValueBytes) :
    ∀ q s, Subtree t q s → Fits keccak256 s := by
  have hentry : ∀ w v, t.lookup w = some v → w.length = 64 ∧ v.val.length ≤ maxValueBytes := by
    intro w v hw
    obtain ⟨key, rfl⟩ := hm.words w (by simp [hw])
    have hmap := hm.lookup key
    rw [hw, Option.map_some] at hmap
    rcases exists_insert_of_mapAfter hmap.symm with h | ⟨v', hv', hmem⟩
    · cases h
    · obtain ⟨call, hcall, hup⟩ := mem_filterMap.1 hmem
      obtain ⟨k, rfl, rfl⟩ := update_eq_insert hup
      exact ⟨by rw [length_word, k.size], hv' ▸ hsize k v' hcall⟩
  intro q s hs
  have ht : t ≠ .nil := by
    rintro rfl
    exact Subtree.not_nil hs
  refine fits_of_subtree (hcan ht) (fun w hw => ?_) (fun w v hw => (hentry w v hw).2) hs
  obtain ⟨v, hv⟩ := Option.ne_none_iff_exists'.1 hw
  exact (hentry w v hv).1

theorem RootsApart.rootHashOf_ne {calls before : List Call}
    (h : RootsApart keccak256 fuel calls) (hbefore : before <+: calls) (hf : 67 ≤ fuel)
    (hm : Maps t (mapAfter emptyMap (updates before))) (hcan : t.Canonical) (ht : t ≠ .nil) :
    rootHashOf keccak256 t ≠ emptyTrieHash := by
  obtain ⟨trie, t', hrun, hd, hm'⟩ := run_hash keccak256 InMemoryTrieDB.newEmpty (updates before)
    (updates_fueled before hf)
  obtain rfl := hm.unique hm' hcan hd.canonical
  obtain ⟨node, memo, hnode, henc⟩ := hd.exists_node ht
  rw [rootHashOf, ← henc]
  exact h before hbefore trie _ node memo hrun hnode

theorem runCalls_refines (calls : List Call) (hf : 67 ≤ fuel)
    (hsize : ∀ key value, Call.insert key value ∈ calls → value.val.length ≤ maxValueBytes)
    (hroots : RootsApart keccak256 fuel calls) :
    ∃ trie t, runCalls keccak256 fuel (Trie.new InMemoryTrieDB.newEmpty) calls = .ok trie ∧
      Persisted keccak256 trie t ∧ Maps t (mapAfter emptyMap (updates calls)) := by
  -- from the end: the calls before the last one are a run of their own
  induction calls using List.reverseRecOn with
  | nil => exact ⟨_, .nil, rfl, ⟨trieDenotes_new _, by simp [Trie.new]⟩, maps_nil⟩
  | append_singleton calls call ih =>
    obtain ⟨trie, t, hrun, hp, hm⟩ := ih (fun key value h => hsize key value (by simp [h]))
      fun before hb => hroots before (hb.trans (prefix_append calls [call]))
    have hcan := hp.denotes.canonical
    have hfit : ∀ q s, Subtree t q s → Fits keccak256 s :=
      hm.fits hcan fun key value h => hsize key value (by simp [h])
    obtain ⟨trie', t', out, hcall, hp', hm'⟩ := call_refines hp hm call hf hfit
      (hroots.rootHashOf_ne (prefix_append calls [call]) hf hm hcan)
    refine ⟨trie', t', ?_, hp', ?_⟩
    · rw [runCalls] at hrun
      simp [runCalls, foldlM_append, hrun, hcall]
    · rwa [updates, filterMap_append, mapAfter, foldl_append]

/-- A trie whose root node is over the limit of the decoder cannot be read once it is reopened. -/
theorem Persisted.reopen_of_gt (h : Persisted keccak256 trie t) (fuel : Nat) (ht : t ≠ .nil)
    (hroot : rootHashOf keccak256 t ≠ emptyTrieHash)
    (hgt : maxRlpBytes < (itemsOf keccak256 t).flatten.length)
    (hlt : (itemsOf keccak256 t).flatten.length < 256 ^ 8) :
    ∃ trie', Call.reopen.run keccak256 fuel trie = .ok (trie', none) ∧
      ∀ fuel' key, trie'.get keccak256 fuel' key = .error (.error (.rlpDecode .invalidLength)) := by
  obtain ⟨trie₁, hrun, -, hread, hden⟩ := h.commit_reads fun _ => hroot
  have hdb : (trie₁.hashNoCommit keccak256).2.db = trie₁.db := by
    rw [Trie.hashNoCommit]
    split <;> rfl
  have hhash := (hden (fun _ _ => True) fun _ _ _ => trivial).hashNoCommit
  rw [trieHashOf_of_ne_nil ht] at hhash
  have hget : TrieDB.get trie₁.db empty = .ok (some (encodeOf keccak256 t)) := by
    rw [InMemoryTrieDB.get_eq]
    exact congrArg Except.ok (hread [] t (.self ht))
  refine ⟨Trie.open trie₁.db (rootHashOf keccak256 t), ?_, fun fuel' key => ?_⟩
  · rw [← hhash, ← hdb]
    simp only [Call.run, Trie.hash, hrun, Result.ok_bind]
  · have hflat : TrieDB.flatkeyvalueComputed trie₁.db (Nibbles.fromBytes key) = false := rfl
    simp [Trie.get, Trie.open, hroot, hflat, NodeHash.isValid, hget,
      decode_encodeOf_of_gt ht hgt hlt, bind, Except.bind]

end

/-- However calls on 32-byte keys are cut by commits and reopenings, every key reads as the map says
and the root hash is that of the trie never stored, provided the values leave their nodes within the
decoder's limit. -/
theorem runCalls_get (keccak256 : Bytes → H256) (calls : List Call) (fuel : Nat) (hf : 67 ≤ fuel)
    (hsize : ∀ key value, Call.insert key value ∈ calls → value.val.length ≤ maxValueBytes)
    (hroots : RootsApart keccak256 fuel calls) :
    ∃ trie trie₀, runCalls keccak256 fuel (Trie.new InMemoryTrieDB.newEmpty) calls = .ok trie ∧
      run keccak256 fuel (Trie.new InMemoryTrieDB.newEmpty) (updates calls) =
        .ok (trie₀, outputs emptyMap (updates calls)) ∧
      (∀ key fuel', 2 * key.length + 3 ≤ fuel' →
        trie.get keccak256 fuel' key = .ok (mapAfter emptyMap (updates calls) key)) ∧
      (trie.hashNoCommit keccak256).1 = (trie₀.hashNoCommit keccak256).1 := by
  obtain ⟨trie, t, hrun, hp, hm⟩ := runCalls_refines calls hf hsize hroots
  obtain ⟨trie₀, t₀, hrun₀, hd₀, hm₀⟩ := run_hash keccak256 InMemoryTrieDB.newEmpty
    (updates calls) (updates_fueled calls hf)
  refine ⟨trie, trie₀, hrun, hrun₀, fun key fuel' hf' => ?_, ?_⟩
  · rw [hp.denotes.get (readable_held keccak256 trie.db) (fun _ => rfl) key (by omega), hm.lookup]
  · rw [hp.denotes.hashNoCommit, hd₀.hashNoCommit,
      hm.unique hm₀ hp.denotes.canonical hd₀.canonical]

/-- The digests of the nodes for the keys `0x11…` and `0x22…` with the values 1 and 2. -/
def twoKeyDigests : List (Bytes × H256) := [
  ([0xe3, 0xa1, 0x20] ++ List.replicate 32 0x11 ++ [0x01],
    .ofNat 0xc26426cef4a1a62d93f2530619c1157c3107ca93f14befae0743385fa1f68757),
  ([0xe2, 0xa0] ++ 0x31 :: List.replicate 31 0x11 ++ [0x01],
    .ofNat 0x925d7bd7199f4d45b8ec4192a7da602e3cc08cf39c825418bc8c876b5c932694),
  ([0xe2, 0xa0] ++ 0x32 :: List.replicate 31 0x22 ++ [0x02],
    .ofNat 0x0e3f7f551bad41ad9c366da7dce1b6b4bea0137c2e9d635f1919b59a0be07f91),
  ([0xf8, 0x51, 0x80, 0xa0] ++
    (H256.ofNat 0x925d7bd7199f4d45b8ec4192a7da602e3cc08cf39c825418bc8c876b5c932694).bytes ++
    [0xa0] ++
    (H256.ofNat 0x0e3f7f551bad41ad9c366da7dce1b6b4bea0137c2e9d635f1919b59a0be07f91).bytes ++
    List.replicate 14 0x80,
    .ofNat 0xcf51e910e156e0badf02af7ac2d5265834361939433137df1a9864b01cbf6569)]

def twoKeyKeccak : Bytes → H256 := keccakTable twoKeyDigests

theorem twoKeyKeccak_ne (data : Bytes) : twoKeyKeccak data ≠ emptyTrieHash :=
  keccakTable_ne (by decide) (by decide) data

/-- The second key is committed on top of a reopened trie and gone after the next reopening. -/
theorem runCalls_get_twoKeys :
    ∃ trie, runCalls twoKeyKeccak 67 (Trie.new InMemoryTrieDB.newEmpty)
        [.insert (.repeatByte 0x11) ⟨[1], by decide⟩, .reopen,
          .insert (.repeatByte 0x22) ⟨[2], by decide⟩, .commit, .remove (.repeatByte 0x22),
          .reopen] = .ok trie ∧
      trie.get twoKeyKeccak 67 (H256.repeatByte 0x11).bytes = .ok (some [1]) ∧
      trie.get twoKeyKeccak 67 (H256.repeatByte 0x22).bytes = .ok none := by
  obtain ⟨trie, -, hrun, -, hget, -⟩ := runCalls_get twoKeyKeccak
    [.insert (.repeatByte 0x11) ⟨[1], by decide⟩, .reopen,
      .insert (.repeatByte 0x22) ⟨[2], by decide⟩, .commit, .remove (.repeatByte 0x22), .reopen]
    67 (by decide)
    (by
      intro key value h
      have hone : 1 ≤ maxValueBytes := by simp [maxValueBytes, maxRlpBytes]
      simp only [mem_cons, Call.insert.injEq, reduceCtorEq, not_mem_nil, or_false,
        false_or] at h
      rcases h with ⟨-, rfl⟩ | ⟨-, rfl⟩
      · exact hone
      · exact hone)
    fun _ _ _ _ _ _ _ _ => twoKeyKeccak_ne _
  refine ⟨trie, hrun, ?_, ?_⟩
  · rw [hget _ 67 (by simp [H256.size])]
    rfl
  · rw [hget _ 67 (by simp [H256.size])]
    rfl

def largeValue : Value := ⟨List.replicate (2 ^ 30) 1, by rw [Ne, replicate_eq_nil_iff]; simp⟩

theorem length_largeValue : largeValue.val.length = 2 ^ 30 := length_replicate

/-- The digest of the leaf that holds the large value under the key of zeros. -/
def largeValueKeccak : Bytes → H256 :=
  keccakTable [
    (encodeList (encodeBytes (0x20 :: List.replicate 32 0) ++ encodeBytes largeValue.val),
      .ofNat 0xcd461ef9c1dd16bc3b6253366800d189543c104bcf5de828157967d83b2767a5)]

theorem largeValueKeccak_ne (data : Bytes) : largeValueKeccak data ≠ emptyTrieHash := by
  refine keccakTable_ne (fun e he => ?_) (by decide) data
  rw [mem_singleton.1 he]
  change H256.ofNat _ ≠ _
  decide

/-- A value of a gibibyte is accepted, hashed and written, and after reopening the decoder rejects
the leaf. -/
theorem reopen_largeValue :
    ∃ trie, runCalls largeValueKeccak 67 (Trie.new InMemoryTrieDB.newEmpty)
        [.insert (.repeatByte 0) largeValue, .reopen] = .ok trie ∧
      mapAfter emptyMap (updates [.insert (.repeatByte 0) largeValue, .reopen])
        (H256.repeatByte 0).bytes = some largeValue.val ∧
      trie.get largeValueKeccak 67 (H256.repeatByte 0).bytes =
        .error (.error (.rlpDecode .invalidLength)) := by
  have hnew : Persisted largeValueKeccak (Trie.new InMemoryTrieDB.newEmpty) .nil :=
    ⟨trieDenotes_new _, by simp [Trie.new]⟩
  have hf : 2 * (H256.repeatByte 0).bytes.length + 3 ≤ 67 := by simp [H256.size]
  obtain ⟨trie₁, hrun₁, hp⟩ := hnew.insert (H256.repeatByte 0).bytes largeValue hf
  have hinsert : (Call.insert (.repeatByte 0) largeValue).run largeValueKeccak 67
      (Trie.new InMemoryTrieDB.newEmpty) = .ok (trie₁, none) := by
    rw [Call.run, hrun₁]
    rfl
  have htree : (.nil : MTree).insert (word (H256.repeatByte 0).bytes) largeValue =
      .leaf (word (H256.repeatByte 0).bytes) largeValue := rfl
  rw [htree] at hp
  have hpayload := length_leaf_payload largeValueKeccak (w := word (H256.repeatByte 0).bytes)
    (v := largeValue) (by simp [H256.size]) (by rw [length_largeValue]; simp)
  rw [length_largeValue] at hpayload
  obtain ⟨trie₂, hreopen, hget⟩ := hp.reopen_of_gt 67 (by simp)
    (largeValueKeccak_ne _) (by rw [maxRlpBytes_eq]; omega) (by omega)
  refine ⟨trie₂, ?_, ?_, hget _ _⟩
  · simp [runCalls, hinsert, hreopen]
  · exact Function.update_self (H256.repeatByte 0).bytes (some largeValue.val) emptyMap

end Ethrex.Mpt
