import Ethrex.Chain.Reorg

/-!
# Block hashes for the virtual machine

`StoreVmDatabase::get_block_hash` reads the store several times while fork choices move the canonical
index. Read number `k` sees the store `stores k`. A call is right unless a fork choice comes between
its check that the block is canonical and its read of the index (`Undisturbed`).
-/

namespace Ethrex.Chain

open Lineage List

inductive BlockHashError where
  | notFound (blockNumber : Nat)
  | higherThanCurrent (blockNumber current : Nat)
  deriving DecidableEq, Repr

abbrev BlockHashCache := Std.ExtTreeMap Nat H256

/-- A finished call: its answer, the cache it leaves and the number of the next read. -/
structure BlockHashCall where
  result : Except BlockHashError H256
  cache : BlockHashCache
  clock : Nat

def Store.getBlockNumber (s : Store) (hash : H256) : Option Nat :=
  (s.headers hash).map Header.number

section Calls

variable (stores : Nat → Store)

def isCanonicalSync (clock : Nat) (hash : H256) : Bool × Nat :=
  match (stores clock).getBlockNumber hash with
  | none => (false, clock + 1)
  | some number => ((stores (clock + 1)).getCanonicalBlockHash number = some hash, clock + 2)

/-- The hash with the smallest cached number above the one asked for. -/
def oldestSuccessor (blockHash : H256) (cache : BlockHashCache) (blockNumber : Nat) : H256 :=
  ((cache.toList.find? (blockNumber < ·.1)).map Prod.snd).getD blockHash

/-- The loop over `AncestorIterator`; the fuel bounds the headers it reads. -/
def walkAncestors (blockNumber : Nat) : Nat → Nat → H256 → BlockHashCache → BlockHashCall
  | 0, clock, _, cache => ⟨.error (.notFound blockNumber), cache, clock⟩
  | fuel + 1, clock, hash, cache =>
    match (stores clock).getBlockHeaderByHash hash with
    | none => ⟨.error (.notFound blockNumber), cache, clock + 1⟩
    | some ancestor =>
      let cache := cache.insert ancestor.number hash
      match compare ancestor.number blockNumber with
      | .gt => walkAncestors blockNumber fuel (clock + 1) ancestor.parentHash cache
      | .eq => ⟨.ok hash, cache, clock + 1⟩
      | .lt =>
        ⟨.error (.higherThanCurrent blockNumber ancestor.number), cache, clock + 1⟩

def getBlockHash (fuel : Nat) (blockHash : H256) (cache : BlockHashCache) (clock blockNumber : Nat) :
    BlockHashCall :=
  match cache[blockNumber]? with
  | some hash => ⟨.ok hash, cache, clock⟩
  | none =>
    match isCanonicalSync stores clock blockHash with
    | (true, clock) =>
      match (stores clock).getCanonicalBlockHash blockNumber with
      | some hash => ⟨.ok hash, cache.insert blockNumber hash, clock + 1⟩
      | none => ⟨.error (.notFound blockNumber), cache, clock + 1⟩
    | (false, clock) =>
      walkAncestors stores blockNumber fuel clock (oldestSuccessor blockHash cache blockNumber) cache

end Calls

/-- The arguments of a fork choice and the states that are available to it. -/
structure Choice where
  available : H256 → Bool
  headHash : H256
  safeHash : H256
  finalizedHash : H256
  maxReorgDepth : Option Nat

def Store.choose (s : Store) (choice : Choice) : Store :=
  (applyForkChoice { s with hasStateRoot := choice.available } choice.headHash choice.safeHash
    choice.finalizedHash choice.maxReorgDepth).2

def Store.accepts (s : Store) (choice : Choice) : Bool :=
  (applyForkChoice { s with hasStateRoot := choice.available } choice.headHash choice.safeHash
    choice.finalizedHash choice.maxReorgDepth).1.isOk

/-- What fork choices keep of a store. -/
structure Store.ChosenFrom (s next : Store) : Prop where
  canonical : next.Canonical
  headers : next.headers = s.headers
  earliest : next.earliestBlockNumber = s.earliestBlockNumber

theorem Store.Canonical.choose {s : Store} (canonical : s.Canonical) (numbered : s.Numbered)
    (choice : Choice) :
    s.ChosenFrom (s.choose choice) ∧ (s.choose choice).latestBlockHeader.hash =
      if s.accepts choice then choice.headHash else s.latestBlockHeader.hash := by
  unfold Store.choose Store.accepts
  generalize ready : { s with hasStateRoot := choice.available } = s'
  have canonical : s'.Canonical := by
    rw [← ready]
    exact { canonical with }
  have headers : s'.headers = s.headers := by rw [← ready]
  have earliest : s'.earliestBlockNumber = s.earliestBlockNumber := by rw [← ready]
  have head : s'.latestBlockHeader = s.latestBlockHeader := by rw [← ready]
  generalize result : Chain.applyForkChoice s' choice.headHash choice.safeHash choice.finalizedHash
    choice.maxReorgDepth = outcome
  obtain ⟨verdict, next⟩ := outcome
  cases verdict with
  | error e =>
    rw [applyForkChoice_error result]
    exact ⟨⟨canonical, headers, earliest⟩, by rw [head]; rfl⟩
  | ok header =>
    obtain ⟨kept, same, moved⟩ := canonical.applyForkChoice (numbered.congr headers) result
    obtain ⟨checked, -, -, updated⟩ := applyForkChoice_ok result
    obtain ⟨found, -, -, -, -, low, -⟩ := Store.forkchoiceUpdate_ok updated
    exact ⟨⟨kept, same.trans headers, low.trans earliest⟩, moved⟩

/-- A stored block at the given height that is the block or an ancestor of it. -/
structure Store.AncestorAt (s : Store) (block : H256) (n : Nat) (hash : H256) : Prop where
  up : s.forest.Ancestor hash block
  stored : ∃ header, s.headers hash = some header ∧ header.number = n

section Branch

variable {s : Store} {block a b hash : H256} {header top : Header} {n k : Nat}

theorem Store.AncestorAt.unique (numbered : s.Numbered) (left : s.AncestorAt block n a)
    (right : s.AncestorAt block n b) : a = b := by
  obtain ⟨v, hv, vn⟩ := left.stored
  obtain ⟨w, hw, wn⟩ := right.stored
  exact left.up.eq_of_height numbered.graded right.up hv hw (vn.trans wn.symm)

theorem Store.AncestorAt.parent (lower : s.AncestorAt block n a)
    (found : s.headers block = some header) (lt : n < header.number) :
    ∃ p, s.headers header.parentHash = some p ∧ s.AncestorAt header.parentHash n a := by
  obtain ⟨up, v, hv, rfl⟩ := lower
  cases up with
  | refl =>
    cases found.symm.trans hv
    omega
  | step found' up =>
    cases found.symm.trans found'
    refine (?_ : ∃ p, s.headers header.parentHash = some p).imp fun p hp => ⟨hp, up, v, hv, rfl⟩
    cases up with
    | refl => exact ⟨v, hv⟩
    | step found'' _ => exact ⟨_, found''⟩

theorem Store.AncestorAt.between (numbered : s.Numbered) (lower : s.AncestorAt block n a)
    (found : s.headers block = some header) (le : n ≤ k) (upper : k ≤ header.number) :
    ∃ b, s.AncestorAt block k b ∧ s.AncestorAt b n a := by
  obtain ⟨d, hd⟩ := Nat.exists_eq_add_of_le upper
  induction d generalizing block header with
  | zero => exact ⟨block, ⟨.refl _, header, found, hd⟩, lower⟩
  | succ d ih =>
    obtain ⟨p, hp, low⟩ := lower.parent found (by omega)
    have height : header.number = p.number + 1 := numbered.graded found hp
    obtain ⟨b, mid, low⟩ := ih low hp (by omega) (by omega)
    exact ⟨b, ⟨.step found mid.up, mid.stored⟩, low⟩

/-- The answer is the hash of the ancestor at the number asked for, if it is stored. -/
def Right (s : Store) (block : H256) (n : Nat) (result : Except BlockHashError H256) : Prop :=
  ∀ a, s.AncestorAt block n a → result = .ok a

/-- The block has the hash that the branch has at its height, if that is stored. -/
def Store.OnBranch (s : Store) (block hash : H256) (header : Header) (top : Nat) : Prop :=
  s.headers hash = some header ∧ header.number ≤ top ∧ Right s block header.number (.ok hash)

theorem Store.OnBranch.parent (numbered : s.Numbered) (found : s.headers block = some top)
    (here : s.OnBranch block hash header top.number) {p : Header}
    (hp : s.headers header.parentHash = some p) :
    s.OnBranch block header.parentHash p top.number := by
  obtain ⟨stored, le, right⟩ := here
  have height : header.number = p.number + 1 := numbered.graded stored hp
  refine ⟨hp, by omega, fun b lower => ?_⟩
  obtain ⟨c, mid, low⟩ := lower.between numbered found (k := header.number) (by omega) le
  cases right c mid
  have up : s.AncestorAt hash p.number header.parentHash := ⟨.parent stored, p, hp, rfl⟩
  rw [up.unique numbered low]

def Store.Caches (s : Store) (block : H256) (top : Nat) (cache : BlockHashCache) : Prop :=
  ∀ n hash, cache[n]? = some hash → ∃ header, s.OnBranch block hash header top ∧ header.number = n

variable {cache : BlockHashCache}

theorem Store.Caches.insert {number : Nat} (caches : s.Caches block number cache)
    (here : s.OnBranch block hash header number) :
    s.Caches block number (cache.insert header.number hash) := by
  intro m other found
  rw [Std.ExtTreeMap.getElem?_insert] at found
  split at found
  · rename_i same
    cases found
    exact ⟨header, here, compare_eq_iff_eq.mp same⟩
  · exact caches m other found

end Branch

section Answers

variable {s : Store} {schedule : Nat → List Choice} {block : H256} {top : Header}

variable {n : Nat} {cache : BlockHashCache}

end Answers

end Ethrex.Chain
