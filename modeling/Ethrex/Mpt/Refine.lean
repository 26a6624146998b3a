import Ethrex.Mpt.Commit
import Ethrex.Mpt.Simulation

/-!
# The trie operations on denoted trees

A root is named by the hash of its encoding however short that is, and read from the database at the
empty path.
-/

namespace Ethrex.Mpt

open Patricia Rlp

section

variable (keccak256 : Bytes → H256) (Memo Stored : List UInt8 → MTree → Prop)

inductive RootDenotes : NodeRef → MTree → Prop where
  | nil : RootDenotes (.hash NodeHash.default) .nil
  | fresh {n : Node} {t : MTree} (hn : NodeDenotes keccak256 Memo Stored [] n t) :
      RootDenotes (.node n none) t
  | memo {n : Node} {t : MTree} {h : NodeHash} (hn : NodeDenotes keccak256 Memo Stored [] n t)
      (hh : h.finalize keccak256 = rootHashOf keccak256 t) (hm : Memo [] t) :
      RootDenotes (.node n (some h)) t
  | stored {t : MTree} (ht : t ≠ .nil) (hs : Stored [] t) :
      RootDenotes (.hash (.hashed (rootHashOf keccak256 t))) t

structure TrieDenotes {D : Type} (trie : Trie D) (t : MTree) : Prop where
  root : RootDenotes keccak256 Memo Stored trie.root t
  canonical : t.Canonical

/-- Stored references can be read, and the root at the empty path. -/
structure Readable {D : Type} [TrieDB D] (db : D) : Prop where
  resolves : Resolves keccak256 Memo Stored db
  root : ∀ t, t ≠ .nil → Stored [] t → ∃ rlp n, TrieDB.get db Nibbles.empty = .ok (some rlp) ∧
    rlp ≠ [] ∧ Node.decode rlp = .ok n ∧ NodeDenotes keccak256 Memo Stored [] n t

variable {keccak256 Memo Stored} {D : Type} {trie : Trie D} {r : NodeRef} {t : MTree}

theorem trieDenotes_new (db : D) : TrieDenotes keccak256 Memo Stored (Trie.new db) .nil :=
  ⟨.nil, Tree.canonical_nil⟩

section

variable (h : RootDenotes keccak256 Memo Stored r t)

include h

theorem RootDenotes.isValid_iff :
    r.isValid = true ↔ t ≠ .nil := by
  cases h with
  | nil => simp [NodeRef.isValid, NodeHash.isValid, NodeHash.default]
  | fresh hn => simpa [NodeRef.isValid] using hn.ne_nil
  | memo hn _ _ => simpa [NodeRef.isValid] using hn.ne_nil
  | stored ht _ => simpa [NodeRef.isValid, NodeHash.isValid] using ht

theorem RootDenotes.finalize_computeHash (ht : t ≠ .nil) :
    (r.computeHash keccak256).finalize keccak256 = rootHashOf keccak256 t := by
  cases h with
  | nil => exact absurd rfl ht
  | fresh hn =>
    have hhash := hn.computeHash_eq
    rw [Node.computeHash] at hhash
    rw [NodeRef.computeHash, hhash, finalize_hashOf keccak256 ht]
  | memo _ hh _ => simpa [NodeRef.computeHash] using hh
  | stored _ _ => simp [NodeRef.computeHash, NodeHash.finalize]

theorem RootDenotes.memoizeHashes (hM : ∀ q s, Subtree t q s → Memo (hex q) s) :
    RootDenotes keccak256 Memo Stored (r.memoizeHashes keccak256) t := by
  cases h with
  | nil => exact .nil
  | fresh hn =>
    have hn' := hn.memoizeHashes hM
    refine .memo hn' ?_ (by simpa using hM [] t (.self hn.ne_nil))
    rw [hn'.computeHash_eq, finalize_hashOf keccak256 hn.ne_nil]
  | memo hn hh hm => exact .memo hn hh hm
  | stored ht hs => exact .stored ht hs

theorem RootDenotes.commit (hM : ∀ q s, Subtree t q s → Memo (hex q) s) :
    RootDenotes keccak256 Memo Stored (r.commit keccak256 Nibbles.empty).2.1 t := by
  cases h with
  | nil => exact .nil
  | fresh hn =>
    have hn' := hn.commitChildren hM Nibbles.empty
    rw [commit_fresh]
    refine .memo hn' ?_ (by simpa using hM [] t (.self hn.ne_nil))
    rw [hn'.computeHash_eq, finalize_hashOf keccak256 hn.ne_nil]
  | memo hn hh hm =>
    rw [NodeRef.commit]
    exact .memo hn hh hm
  | stored ht hs =>
    rw [NodeRef.commit]
    exact .stored ht hs

end

/-- The root hash of a tree: the hash of its encoding, or the constant of the empty trie. -/
def trieHashOf (keccak256 : Bytes → H256) : MTree → H256
  | .nil => emptyTrieHash
  | t => rootHashOf keccak256 t

theorem trieHashOf_of_ne_nil (ht : t ≠ .nil) : trieHashOf keccak256 t = rootHashOf keccak256 t := by
  cases t with
  | nil => exact absurd rfl ht
  | _ => rfl

variable (h : TrieDenotes keccak256 Memo Stored trie t)

include h

theorem TrieDenotes.hashNoCommit :
    (trie.hashNoCommit keccak256).1 = trieHashOf keccak256 t := by
  have hv := h.root.isValid_iff
  by_cases ht : t = .nil
  · subst ht
    simp [Trie.hashNoCommit, show trie.root.isValid = false by simpa using hv, trieHashOf]
  · simp only [Trie.hashNoCommit, hv.2 ht, if_true, trieHashOf_of_ne_nil ht]
    exact h.root.finalize_computeHash ht

theorem TrieDenotes.hashNoCommit_trie (hM : ∀ q s, Subtree t q s → Memo (hex q) s) :
    TrieDenotes keccak256 Memo Stored (trie.hashNoCommit keccak256).2 t := by
  refine ⟨?_, h.canonical⟩
  rw [Trie.hashNoCommit]
  split
  · exact h.root.memoizeHashes hM
  · exact h.root

theorem TrieDenotes.commitWithoutStoring (hM : ∀ q s, Subtree t q s → Memo (hex q) s) :
    TrieDenotes keccak256 Memo Stored (trie.commitWithoutStoring keccak256).2 t := by
  refine ⟨?_, h.canonical⟩
  simp only [Trie.commitWithoutStoring]
  split
  · exact h.root.commit hM
  · exact h.root

omit h

variable [TrieDB D] {db : D}

theorem RootDenotes.getNodeMut (hdb : Readable keccak256 Memo Stored db)
    (h : RootDenotes keccak256 Memo Stored r t) (ht : t ≠ .nil) :
    ∃ n memo, r.getNodeMut db Nibbles.empty = .ok (some (n, memo)) ∧
      NodeDenotes keccak256 Memo Stored [] n t := by
  cases h with
  | nil => exact absurd rfl ht
  | fresh hn => exact ⟨_, _, rfl, hn⟩
  | memo hn _ _ => exact ⟨_, _, rfl, hn⟩
  | stored _ hs =>
    obtain ⟨rlp, n, hget, hne, hdec, hn⟩ := hdb.root t ht hs
    refine ⟨n, some (.hashed (rootHashOf keccak256 t)), ?_, hn⟩
    simp [NodeRef.getNodeMut, getStoredNode, hget, hne, hdec]

variable {fuel : Nat} {trie' : Trie D}

variable (hdb : Readable keccak256 Memo Stored trie.db)

include hdb

theorem TrieDenotes.get (hflat : ∀ path, TrieDB.flatkeyvalueComputed trie.db path = false)
    (h : TrieDenotes keccak256 Memo Stored trie t) (key : Bytes) (hf : 2 * key.length < fuel) :
    trie.get keccak256 fuel key = .ok ((t.lookup (word key)).map Subtype.val) := by
  obtain ⟨hroot, hcan⟩ := h
  have hlen : (word key).length < fuel := by simpa using hf
  have hget : ∀ n, NodeDenotes keccak256 Memo Stored [] n t →
      n.get keccak256 trie.db fuel (Nibbles.fromBytes key) =
        .ok ((t.lookup (word key)).map Subtype.val) := fun n hn =>
    hn.get hdb.resolves (hcan hn.ne_nil) (fromBytes_data key) rfl hlen
  simp only [Trie.get, hflat, Bool.false_eq_true, and_false, if_false]
  cases hr : trie.root with
  | node n memo =>
    rw [hr] at hroot
    cases hroot with
    | fresh hn => exact hget n hn
    | memo hn _ _ => exact hget n hn
  | hash h =>
    rw [hr] at hroot
    generalize hrh : NodeRef.hash h = rh at hroot
    cases hroot with
    | nil =>
      cases hrh
      simp [NodeHash.isValid, NodeHash.default]
    | stored ht hs =>
      cases hrh
      obtain ⟨rlp, n, hrlp, -, hdec, hn⟩ := hdb.root t ht hs
      simp [NodeHash.isValid, hrlp, hdec, hget n hn]
    | fresh _ => cases hrh
    | memo _ _ _ => cases hrh

theorem TrieDenotes.insert (h : TrieDenotes keccak256 Memo Stored trie t) (key : Bytes) (v : Value)
    (hf : 2 * key.length + 3 ≤ fuel) :
    ∃ trie', trie.insert keccak256 fuel key v.val = .ok trie' ∧ trie'.db = trie.db ∧
      TrieDenotes keccak256 Memo Stored trie' (t.insert (word key) v) := by
  obtain ⟨hroot, hcan⟩ := h
  have hcan' := (hcan.insert (word key) v).canonical
  by_cases ht : t = .nil
  · have hv : trie.root.isValid = false := by simpa [ht] using hroot.isValid_iff
    subst ht
    simp only [Trie.insert, hv, Bool.false_eq_true, if_false, Result.pure_eq_ok, Result.ok_bind]
    exact ⟨_, rfl, rfl, .fresh (.leaf v (fromBytes_data key)), hcan'⟩
  · obtain ⟨n, memo, hn, hd⟩ := hroot.getNodeMut hdb ht
    obtain ⟨m, hm, hd'⟩ := hd.insert hdb.resolves (hcan ht) _ (fromBytes_data key) rfl
      (show (word key).length + 3 ≤ fuel by simpa using hf) v
    simp only [Trie.insert, hroot.isValid_iff.2 ht, if_true, hn, hm, Result.pure_eq_ok,
      Result.ok_bind]
    exact ⟨_, rfl, rfl, .fresh hd', hcan'⟩

theorem TrieDenotes.remove (h : TrieDenotes keccak256 Memo Stored trie t) (key : Bytes)
    (hf : 2 * key.length < fuel) :
    ∃ trie', trie.remove keccak256 fuel key =
        .ok (trie', (t.lookup (word key)).map Subtype.val) ∧ trie'.db = trie.db ∧
      TrieDenotes keccak256 Memo Stored trie' (t.remove (word key)) := by
  obtain ⟨hroot, hcan⟩ := h
  have hcan' := hcan.remove (word key)
  by_cases ht : t = .nil
  · have hv : trie.root.isValid = false := by simpa [ht] using hroot.isValid_iff
    subst ht
    simp only [Trie.remove, hv, Bool.not_false, if_true, Tree.lookup_nil, Option.map_none]
    exact ⟨_, rfl, rfl, hroot, hcan'⟩
  · obtain ⟨n, memo, hn, hd⟩ := hroot.getNodeMut hdb ht
    obtain ⟨o, ho, hleft⟩ := hd.remove hdb.resolves (hcan ht) _ (fromBytes_data key) rfl
      (show (word key).length < fuel by simpa using hf)
    simp only [Trie.remove, hroot.isValid_iff.2 ht, Bool.not_true, Bool.false_eq_true, if_false,
      hn, ho, Result.ok_bind]
    refine ⟨_, rfl, rfl, ?_, hcan'⟩
    cases o with
    | none =>
      have hnil : t.remove (word key) = .nil := hleft
      rw [hnil]
      exact .nil
    | some m => exact .fresh hleft

omit hdb

/-! ### Keys marked for removal -/

theorem insert_pendingRemoval {key value : Bytes}
    (h : trie.insert keccak256 fuel key value = .ok trie') :
    trie'.pendingRemoval ⊆ trie.pendingRemoval := by
  simp only [Trie.insert] at h
  split at h
  · simp only [bind_eq_ok] at h
    obtain ⟨o, -, h⟩ := h
    cases o with
    | none => cases h
    | some nm =>
      simp only [bind_eq_ok, Result.pure_eq_ok, Result.ok_bind, Except.ok.injEq] at h
      obtain ⟨_, -, rfl⟩ := h
      exact fun _ hpath => List.mem_of_mem_erase hpath
  · cases h
    exact fun _ hpath => List.mem_of_mem_erase hpath

theorem remove_pendingRemoval {key : Bytes} {out : Option Bytes}
    (h : trie.remove keccak256 fuel key = .ok (trie', out)) :
    ∀ path ∈ trie'.pendingRemoval,
      path ∈ trie.pendingRemoval ∨ path = (Nibbles.fromBytes key).data := by
  intro path hpath
  simp only [Trie.remove] at h
  split at h
  · cases h
    exact .inl hpath
  simp only [bind_eq_ok] at h
  obtain ⟨o, -, h⟩ := h
  cases o with
  | none => cases h
  | some nm =>
    simp only [bind_eq_ok, Except.ok.injEq, Prod.mk.injEq] at h
    obtain ⟨_, -, rfl, -⟩ := h
    rcases List.mem_insert_iff.1 hpath with h | h
    · exact .inr h
    · exact .inl h

end

end Ethrex.Mpt
