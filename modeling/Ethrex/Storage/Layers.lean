import Ethrex.Mpt.Nibbles
import Ethrex.Cascade.Stack

/-!
# The cache of diff layers

`TrieLayerCache`: one layer of written nodes for each state root, linked to the layer of the parent
root. The bloom filter is the list of the inserted keys, with false positives left open.
-/

namespace Ethrex.Storage

open Mpt (Nibbles)

section Retain

variable {K V : Type*} [DecidableEq K]

/-- `HashMap::retain`, with a test of the values. -/
def retain (keep : V → Bool) (m : AList fun _ : K => V) : AList fun _ : K => V :=
  ⟨m.entries.filter fun e => keep e.2, m.nodupKeys.sublist List.filter_sublist⟩

theorem lookup_retain (keep : V → Bool) (m : AList fun _ : K => V) (k : K) :
    (retain keep m).lookup k = (m.lookup k).filter keep := by
  apply Option.ext
  intro v
  show v ∈ (retain keep m).lookup k ↔ v ∈ (m.lookup k).filter keep
  rw [AList.mem_lookup_iff, Option.mem_filter_iff, AList.mem_lookup_iff]
  exact List.mem_filter

end Retain

def bloomSize : Nat := 1000000

structure TrieLayer where
  nodes : AList fun _ : Bytes => Bytes
  parent : H256
  id : Nat
  blockNumber : Nat
  blockHash : H256

/-- `AtomicBloomFilter`: the size it was made for and the keys that were inserted. The filter is taken
to have no false negatives. -/
structure BloomFilter where
  expectedItems : Nat
  inserted : List Bytes

/-- `TrieLayerCache`, with no overlay.  When to commit is not part of the model. The numbers of the
layers are a `usize` that counts the batches, which is taken not to wrap around. -/
structure TrieLayerCache where
  lastId : Nat
  layers : AList fun _ : H256 => TrieLayer
  bloom : BloomFilter

structure CommittedLayer where
  blockNumber : Nat
  blockHash : H256
  parentStateRoot : H256
  nodes : List (Bytes × Bytes)

inductive LayerPanic
  | stateCycleFound
  deriving DecidableEq, Repr

def createFilter (expectedItems : Nat) : BloomFilter :=
  { expectedItems := max expectedItems bloomSize, inserted := [] }

/-- Membership in the filter: the inserted keys, and whatever else the hashing lets through. -/
def BloomFilter.contains (falsePositive : BloomFilter → Bytes → Bool) (bloom : BloomFilter)
    (key : Bytes) : Bool :=
  bloom.inserted.contains key || falsePositive bloom key

namespace TrieLayerCache

/-- `TrieLayerCache::new_with_safe_commit`. -/
def new : TrieLayerCache :=
  { lastId := 0, layers := ∅, bloom := createFilter bloomSize }

/-- The walk of `TrieLayerCache::get` along the parents. -/
def walk (layers : AList fun _ : H256 => TrieLayer) (stateRoot : H256) (key : Bytes) :
    Nat → H256 → Except LayerPanic (Option Bytes)
  | 0, _ => .ok none
  | fuel + 1, currentStateRoot =>
    match layers.lookup currentStateRoot with
    | none => .ok none
    | some layer =>
      match layer.nodes.lookup key with
      | some value => .ok (some value)
      | none =>
        if layer.parent = stateRoot then .error .stateCycleFound
        else walk layers stateRoot key fuel layer.parent

/-- `TrieLayerCache::get`.  Without a cycle the walk visits each layer at most once. -/
def get (falsePositive : BloomFilter → Bytes → Bool) (cache : TrieLayerCache) (stateRoot : H256)
    (key : Bytes) : Except LayerPanic (Option Bytes) :=
  if !cache.bloom.contains falsePositive key then .ok none
  else walk cache.layers stateRoot key (cache.layers.keys.length + 1) stateRoot

def putBatch (cache : TrieLayerCache) (parent stateRoot : H256) (blockNumber : Nat)
    (blockHash : H256) (keyValues : List (Nibbles × Bytes)) : TrieLayerCache :=
  if parent = stateRoot ∧ keyValues.isEmpty then cache
  else if parent = stateRoot then cache
  else if stateRoot ∈ cache.layers then cache
  else
    { lastId := cache.lastId + 1
      layers := cache.layers.insert stateRoot
        { nodes := keyValues.foldl (fun nodes kv => nodes.insert kv.1.data kv.2) ∅
          parent := parent
          id := cache.lastId + 1
          blockNumber := blockNumber
          blockHash := blockHash }
      bloom :=
        { cache.bloom with inserted := cache.bloom.inserted ++ keyValues.map (·.1.data) } }

def rebuildBloom (cache : TrieLayerCache) : TrieLayerCache :=
  let totalKeys := (cache.layers.entries.map fun e => e.2.nodes.keys.length).sum
  let filter := createFilter (max totalKeys bloomSize)
  { cache with
    bloom :=
      { filter with
        inserted := filter.inserted ++ cache.layers.entries.flatMap fun e => e.2.nodes.keys } }

/-- The loop of `TrieLayerCache::commit`: the layers that are taken out, newest first, and those
that stay. -/
def takeChain : Nat → (AList fun _ : H256 => TrieLayer) → H256 →
    List TrieLayer × AList fun _ : H256 => TrieLayer
  | 0, layers, _ => ([], layers)
  | fuel + 1, layers, currentStateRoot =>
    match layers.lookup currentStateRoot with
    | none => ([], layers)
    | some layer =>
      let taken := takeChain fuel (layers.erase currentStateRoot) layer.parent
      (layer :: taken.1, taken.2)

def committedLayer (layer : TrieLayer) : CommittedLayer :=
  { blockNumber := layer.blockNumber
    blockHash := layer.blockHash
    parentStateRoot := layer.parent
    nodes := layer.nodes.entries.map fun e => (e.1, e.2) }

/-- `TrieLayerCache::commit`.  Every step of the loop removes a layer. -/
def commit (cache : TrieLayerCache) (stateRoot : H256) :
    Option (List CommittedLayer) × TrieLayerCache :=
  let taken := takeChain cache.layers.keys.length cache.layers stateRoot
  match taken.1 with
  | [] => (none, { cache with layers := taken.2 })
  | top :: _ =>
    let layers := retain (fun item => top.id < item.id) taken.2
    (some (taken.1.reverse.map committedLayer), rebuildBloom { cache with layers := layers })

end TrieLayerCache

abbrev Disk := Bytes → Option Bytes

/-- The writes of one committed layer; an empty value deletes its key. -/
def Disk.writeLayer (disk : Disk) (layer : CommittedLayer) : Disk :=
  layer.nodes.foldl
    (fun disk kv => Function.update disk kv.1 (if kv.2.isEmpty then none else some kv.2)) disk

def Disk.writeLayers (disk : Disk) (layers : List CommittedLayer) : Disk :=
  layers.foldl Disk.writeLayer disk

/-- The key of a node in the tables of all tries: paths of storage tries stand behind the hash of
their account. -/
def applyPrefix (account : Option H256) (path : Nibbles) : Nibbles :=
  match account with
  | some account => ((Nibbles.fromBytes account.bytes).appendNew 17).concat path
  | none => path

/-- `TrieWrapper::get`: the layers, then the disk. -/
def wrapperGet (falsePositive : BloomFilter → Bytes → Bool) (cache : TrieLayerCache)
    (disk : Disk) (stateRoot : H256) (account : Option H256) (key : Nibbles) :
    Except LayerPanic (Option Bytes) :=
  let key := applyPrefix account key
  match cache.get falsePositive stateRoot key.data with
  | .error e => .error e
  | .ok (some value) => .ok (some value)
  | .ok none => .ok (disk key.data)

/-- The caches that calls of `put_batch` and `commit` make from a new one. -/
inductive Reachable : TrieLayerCache → Prop
  | new : Reachable .new
  | putBatch {cache : TrieLayerCache} (parent stateRoot : H256) (blockNumber : Nat)
      (blockHash : H256) (keyValues : List (Nibbles × Bytes)) : Reachable cache →
      Reachable (cache.putBatch parent stateRoot blockNumber blockHash keyValues)
  | commit {cache : TrieLayerCache} (stateRoot : H256) : Reachable cache →
      Reachable (cache.commit stateRoot).2

end Ethrex.Storage
