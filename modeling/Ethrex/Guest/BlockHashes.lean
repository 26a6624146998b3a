import Ethrex.Guest.Batch
import Ethrex.Rlp.Length

/-!
# Block hashes under stateless execution

Which headers of a witness `execute_blocks` pins to the chain: the parent of the batch, and the
headers below it without gaps. The answers given to the blocks of a batch are right exactly if the
headers behind them that are not pinned are ancestors.
-/

namespace Ethrex

open Rlp List

/-! ### Encodings determine the parent hash -/

namespace Rlp

theorem encodeBytes_h256 (hash : H256) :
    encodeBytes hash.bytes = encodeHeader rlpNull 0xb7 32 ++ hash.bytes := by
  rcases encodeBytes_cases hash.bytes with ⟨b, hb, -, -⟩ | ⟨-, h⟩
  · have := hash.size
    rw [hb] at this
    cases this
  · rw [h, hash.size]

end Rlp

theorem BlockHeader.parentHash_eq_of_encode_eq {a b : BlockHeader} (h : a.encode = b.encode) :
    a.parentHash = b.parentHash := by
  have hfields := encodeList_injective h
  have hlen : (encodeBytes a.parentHash.bytes).length = (encodeBytes b.parentHash.bytes).length := by
    simp only [encodeBytes_h256, length_append, H256.size]
  have hparent := (append_inj hfields hlen).1
  rw [encodeBytes_h256, encodeBytes_h256] at hparent
  exact H256.bytes_injective (append_cancel_left hparent)

namespace Guest

section

variable (keccak256 : Bytes → H256) (S : Set Bytes)

/-- `parent` is the parent of `child`. -/
def IsParent (child parent : BlockHeader) : Prop :=
  child.parentHash = parent.computeBlockHash keccak256 ∧
    child.number.val = parent.number.val + 1

/-- The hash is that of the ancestor of the block with the given number, on every chain of headers
from `S`. -/
def IsAncestorHash (block : BlockHeader) (n : U64) (hash : H256) : Prop :=
  ∀ ancestors : List BlockHeader, (block :: ancestors).IsChain (IsParent keccak256) →
    (∀ a ∈ ancestors, a.encode ∈ S) → ∀ a ∈ ancestors, a.number = n →
      a.computeBlockHash keccak256 = hash

/-- The header has the hash of the ancestor of the block with its number. -/
def Genuine (block header : BlockHeader) : Prop :=
  IsAncestorHash keccak256 S block header.number (header.computeBlockHash keccak256)

/-- `ancestor` is reached by `k` parent hashes. -/
inductive Descends (block : BlockHeader) : Nat → BlockHeader → Prop where
  | self : Descends block 0 block
  | step {k : Nat} {child parent : BlockHeader} : Descends block k child → parent.encode ∈ S →
      child.parentHash = parent.computeBlockHash keccak256 → Descends block (k + 1) parent

variable {keccak256 S}
variable {block a : BlockHeader} {k : Nat}

theorem Descends.encode_eq (hinj : Set.InjOn keccak256 S) {b : BlockHeader}
    (ha : Descends keccak256 S block k a) (hb : Descends keccak256 S block k b) :
    a.encode = b.encode := by
  induction ha generalizing b with
  | self =>
    cases hb
    rfl
  | step _ haS halink ih =>
    cases hb with
    | step hb hbS hblink =>
      rw [BlockHeader.parentHash_eq_of_encode_eq (ih hb), hblink] at halink
      exact (hinj hbS haS halink).symm

theorem Descends.of_chain {ancestors : List BlockHeader}
    (hchain : (block :: ancestors).IsChain (IsParent keccak256))
    (hS : ∀ a ∈ ancestors, a.encode ∈ S) {base : BlockHeader}
    (hbase : Descends keccak256 S base k block) (ha : a ∈ ancestors) :
    ∃ m, Descends keccak256 S base (k + m) a ∧ block.number.val = a.number.val + m := by
  induction ancestors generalizing block k with
  | nil => cases ha
  | cons parent rest ih =>
    obtain ⟨hlink, hrest⟩ := isChain_cons_cons.1 hchain
    have hparent := hbase.step (hS parent (by simp)) hlink.1
    rcases mem_cons.1 ha with rfl | ha
    · exact ⟨1, hparent, hlink.2⟩
    · obtain ⟨m, hm, hnum⟩ := ih hrest (fun a ha => hS a (by simp [ha])) hparent ha
      refine ⟨m + 1, ?_, by rw [hlink.2, hnum]; omega⟩
      rwa [Nat.add_assoc, Nat.add_comm 1 m] at hm

theorem genuine_of_descends (hinj : Set.InjOn keccak256 S) {header : BlockHeader} {d : Nat}
    (h : Descends keccak256 S block d header) (hnum : block.number.val = header.number.val + d) :
    Genuine keccak256 S block header := by
  intro ancestors hchain hS a ha hnumber
  obtain ⟨m, hm, hdist⟩ := Descends.of_chain hchain hS .self ha
  obtain rfl : m = d := by rw [hnumber] at hdist; omega
  rw [Nat.zero_add] at hm
  rw [BlockHeader.computeBlockHash, BlockHeader.computeBlockHash, hm.encode_eq hinj h]

end

section

variable {keccak256 : Bytes → H256} {S : Set Bytes} {headers : Std.ExtTreeMap U64 BlockHeader}

/-! ### Which answers are right -/

/-- The checks pin a stored header to the chain of block `i`: the cells of the blocks before hold
nothing wrong, none of them has its number, and it is the parent of the batch or no number is
missing from it to the parent. -/
structure Pinned (keccak256 : Bytes → H256) (headers : Std.ExtTreeMap U64 BlockHeader)
    (blocks : List BlockHeader) (i : Nat) (n : U64) : Prop where
  cells : ∀ block ∈ blocks.take i, block.hash keccak256 = block.computeBlockHash keccak256
  outside : ∀ block ∈ blocks.take i, block.number ≠ n
  reached : ∀ first ∈ blocks.head?, n + 1 = first.number ∨ NoGap headers (first.number - 1)

namespace Accepted

variable {blocks : List BlockHeader} {parent : BlockHeader}
  (h : Accepted keccak256 headers blocks parent)

include h

variable {i : Nat} {block : BlockHeader} {n : U64}

theorem descends_blocks (hblocks : ∀ b ∈ blocks, b.encode ∈ S) (hblock : blocks[i]? = some block)
    (hcells : ∀ b ∈ blocks.take i, b.hash keccak256 = b.computeBlockHash keccak256) {j : Nat}
    (hj : j ≤ i) {y : BlockHeader} (hy : blocks[i - j]? = some y) :
    Descends keccak256 S block j y := by
  induction j generalizing y with
  | zero =>
    rw [Nat.sub_zero, hblock] at hy
    obtain rfl := Option.some.inj hy
    exact .self
  | succ j ih =>
    have hlt : i - (j + 1) + 1 < blocks.length := by
      have := (List.getElem?_eq_some_iff.1 hblock).1
      omega
    have hnext : blocks[i - j]? = some blocks[i - (j + 1) + 1] := by
      rw [show i - j = i - (j + 1) + 1 by omega]
      exact getElem?_eq_getElem hlt
    obtain ⟨hlen, rfl⟩ := List.getElem?_eq_some_iff.1 hy
    have hlink := (isChain_iff_getElem.1 h.chain.tail) (i - (j + 1)) hlt
    refine (ih (by omega) hnext).step (hblocks _ (getElem_mem hlen)) ?_
    have hmem : blocks[i - (j + 1)] ∈ blocks.take i :=
      mem_take_iff_getElem.2 ⟨i - (j + 1), by omega, rfl⟩
    rw [← hcells _ hmem]
    exact hlink.2.1

theorem descends_parent (hheaders : ∀ (n : U64) x, headers[n]? = some x → x.encode ∈ S)
    (hblocks : ∀ b ∈ blocks, b.encode ∈ S) (hblock : blocks[i]? = some block)
    (hcells : ∀ b ∈ blocks.take i, b.hash keccak256 = b.computeBlockHash keccak256) :
    Descends keccak256 S block (i + 1) parent := by
  have hlen := (List.getElem?_eq_some_iff.1 hblock).1
  obtain ⟨first, rest, rfl⟩ := exists_cons_of_length_pos (Nat.zero_lt_of_lt hlen)
  have hfirst := h.descends_blocks hblocks hblock hcells le_rfl (y := first) (by simp)
  refine hfirst.step (hheaders _ _ h.stored) ?_
  rw [(isChain_cons_cons.1 h.chain).1.2.1, BlockHeader.hash, (h.decoded _ _ h.stored).2]
  rfl

theorem descends_headers (hheaders : ∀ (n : U64) x, headers[n]? = some x → x.encode ∈ S)
    (hparent : Descends keccak256 S block i parent) (hgap : NoGap headers parent.number)
    (hn : n ∈ headers) {k : Nat} {m : U64} (hk : m.val + k = parent.number.val) (hnm : n ≤ m)
    {x : BlockHeader} (hx : headers[m]? = some x) : Descends keccak256 S block (i + k) x := by
  induction k generalizing m x with
  | zero =>
    obtain rfl : m = parent.number := Fin.ext hk
    rw [h.stored] at hx
    obtain rfl := Option.some.inj hx
    exact hparent
  | succ k ih =>
    have hlt : m.val + 1 < 2 ^ 64 := by omega
    let next : U64 := ⟨m.val + 1, hlt⟩
    have hmem : next ∈ headers := hgap n hn (hnm.trans (Fin.le_def.2 (by omega))) next
      (hnm.trans (Fin.le_def.2 (Nat.le_succ _))) (Fin.le_def.2 (by change m.val + 1 ≤ _; omega))
    obtain ⟨y, hy⟩ := Option.isSome_iff_exists.1 (Std.ExtTreeMap.mem_iff_isSome_getElem?.1 hmem)
    have hstep := ih (m := next) (by change m.val + 1 + k = _; omega)
      (hnm.trans (Fin.le_def.2 (Nat.le_succ _))) hy
    exact hstep.step (hheaders m x hx) (h.check hgap hx hy rfl
      (Fin.le_def.2 (by change m.val + 1 ≤ _; omega)))

theorem genuine_of_pinned (hinj : Set.InjOn keccak256 S)
    (hheaders : ∀ (n : U64) x, headers[n]? = some x → x.encode ∈ S)
    (hblocks : ∀ b ∈ blocks, b.encode ∈ S) {header : BlockHeader} (hblock : blocks[i]? = some block)
    (hheader : headers[n]? = some header) (hrange : inBlockHashRange block.number n)
    (hpinned : Pinned keccak256 headers blocks i n) : Genuine keccak256 S block header := by
  have hlen := (List.getElem?_eq_some_iff.1 hblock).1
  obtain ⟨hnumber, htime⟩ := batch_numbers h.chain hblock
  have hi : i < 2 ^ 64 := by
    have := block.timestamp.isLt
    omega
  have hlt : n.val < block.number.val := by
    simp only [inBlockHashRange, Bool.and_eq_true, decide_eq_true_eq] at hrange
    exact Fin.lt_def.1 hrange.1
  have hp := parent.number.isLt
  -- the number of the header is that of no block of the batch, so it is below the batch
  have hdist : i < block.number.val - n.val := by
    by_contra hle
    let j := i - (block.number.val - n.val)
    have hj : j < blocks.length := by omega
    have hnum := (batch_numbers h.chain (getElem?_eq_getElem hj)).1
    refine hpinned.outside blocks[j] (mem_take_iff_getElem.2 ⟨j, by omega, rfl⟩) (Fin.ext ?_)
    rw [hnum]
    omega
  have hsum : block.number.val = parent.number.val + 1 + i := by omega
  have hparent := h.descends_parent hheaders hblocks hblock hpinned.cells
  have hnum : header.number = n := (h.decoded n header hheader).1
  obtain ⟨first, rest, rfl⟩ := exists_cons_of_length_pos (Nat.zero_lt_of_lt hlen)
  have hfirst := (batch_numbers h.chain (j := 0) (x := first) rfl).1
  have hdescends : Descends keccak256 S block (block.number.val - n.val) header := by
    rcases hpinned.reached first rfl with hnext | hgap
    · -- the header is the parent of the batch
      have hval : first.number.val = (n.val + 1) % 2 ^ 64 := by
        rw [← hnext, Fin.val_add]
        rfl
      obtain rfl : n = parent.number := Fin.ext (by omega)
      rw [h.stored] at hheader
      obtain rfl := Option.some.inj hheader
      rwa [show block.number.val - parent.number.val = i + 1 by omega]
    · have hlast : first.number - 1 = parent.number := by
        rw [(isChain_cons_cons.1 h.chain).1.1, add_sub_cancel_right]
      rw [hlast] at hgap
      have hmem : n ∈ headers := Std.ExtTreeMap.mem_iff_isSome_getElem?.2 (by rw [hheader]; rfl)
      have := h.descends_headers hheaders hparent hgap hmem
        (k := parent.number.val - n.val) (by omega) le_rfl hheader
      rwa [show block.number.val - n.val = i + 1 + (parent.number.val - n.val) by omega]
  exact genuine_of_descends hinj hdescends (by rw [hnum]; omega)

end Accepted

section

variable {B R : Type} {backend : Backend B R} {e : U64} {fuel : Nat} {blocks : List (Block B)}
  {witness : ExecutionWitness} {output : BatchExecutionResult R}

/-- The property holds of each block hash that a block is told, with the index of the block, its
header, the number that was asked for and the answer. -/
def ForallAnswers (blocks : List (Block B)) (traces : List (BlockTrace R))
    (p : Nat → BlockHeader → U64 → H256 → Prop) : Prop :=
  ∀ (i : Nat) (block : Block B) (trace : BlockTrace R) (n : U64) (answer : H256),
    blocks[i]? = some block → traces[i]? = some trace → .blockHash n answer ∈ trace.reads →
      p i block.header n answer

/-- In an accepted batch every block hash that a block is told is that of its ancestor exactly if,
of the headers that the witness has under the numbers asked for, those are ancestors that no check
pins. -/
theorem executeBlocks_blockHashes (hinj : Set.InjOn keccak256 S)
    (hdecode : GuestProgramState.decodeHeaders witness.blockHeadersBytes = .ok headers)
    (hheaders : ∀ (n : U64) header, headers[n]? = some header → header.encode ∈ S)
    (hblocks : ∀ header ∈ blocks.map Block.header, header.encode ∈ S)
    (h : executeBlocks keccak256 fuel backend e blocks witness = .ok output) :
    ForallAnswers blocks output.traces (fun _ block n answer =>
        IsAncestorHash keccak256 S block n answer) ↔
      ForallAnswers blocks output.traces fun i block n _ => ∀ header, headers[n]? = some header →
        ¬Pinned keccak256 headers (blocks.map Block.header) i n →
          Genuine keccak256 S block header := by
  obtain ⟨⟨parent, haccepted⟩, -, hreads⟩ := executeBlocks_accepted hdecode h
  refine forall₅_congr fun i block trace n answer => forall₃_congr fun hblock htrace hread => ?_
  have hanswered := (forall₂_iff_get.1 hreads).2
  obtain ⟨hi, rfl⟩ := List.getElem?_eq_some_iff.1 hblock
  obtain ⟨hi', rfl⟩ := List.getElem?_eq_some_iff.1 htrace
  obtain ⟨hrange, header, hheader, rfl⟩ := hanswered i hi hi' _ hread
  have hnumber : header.number = n := (haccepted.decoded n header hheader).1
  have hgenuine : IsAncestorHash keccak256 S blocks[i].header n
      (header.computeBlockHash keccak256) ↔ Genuine keccak256 S blocks[i].header header := by
    rw [Genuine, hnumber]
  simp only [hgenuine]
  constructor
  · intro hright other hother _
    rw [hheader] at hother
    rwa [← Option.some.inj hother]
  · intro hunpinned
    by_cases hpinned : Pinned keccak256 headers (blocks.map Block.header) i n
    · exact haccepted.genuine_of_pinned hinj hheaders hblocks (by simp [hi]) hheader hrange hpinned
    · exact hunpinned header hheader hpinned

end

/-! ### A forged header inside the batch -/

/-- A header without transactions in an empty state. -/
def plainHeader (parentHash : H256) (number : U64) (extraData : Bytes) : BlockHeader where
  parentHash
  ommersHash := defaultOmmersHash
  stateRoot := Mpt.emptyTrieHash
  transactionsRoot := Mpt.emptyTrieHash
  receiptsRoot := Mpt.emptyTrieHash
  number
  gasLimit := 30000000
  gasUsed := 15000000
  timestamp := number
  extraData
  baseFeePerGas := some 1000000000

theorem hash_plainHeader (keccak256 : Bytes → H256) (parentHash : H256) (number : U64)
    (extraData : Bytes) : (plainHeader parentHash number extraData).hash keccak256 =
      (plainHeader parentHash number extraData).computeBlockHash keccak256 := rfl

/-- The parent of a batch of two blocks, the blocks, and a header with the number of the first. -/
def forgedBatch : List (BlockHeader × H256) :=
  [(plainHeader (.repeatByte 0) 9 [], .repeatByte 1),
    (plainHeader (.repeatByte 1) 10 [], .repeatByte 2),
    (plainHeader (.repeatByte 2) 11 [], .repeatByte 3),
    (plainHeader (.repeatByte 1) 10 [7], .repeatByte 4)]

def forgedKeccak : Bytes → H256 := keccakTable (forgedBatch.map fun e => (e.1.encode, e.2))

/-- The second block reads a block hash. -/
def readHash (number : U256) : Backend Unit Unit where
  validateBlockBody _ := .ok ()
  validateForkFields _ _ := .ok ()
  executeBlock i _ := if i = 1 then .blockHash number fun _ => .ret ((), []) else .ret ((), [])
  validateResult _ _ := .ok ()

/-- The witness has the parent of the batch and the forged header. -/
def forgedWitness : ExecutionWitness where
  codes := []
  blockHeadersBytes := [(plainHeader (.repeatByte 0) 9 []).encode,
    (plainHeader (.repeatByte 1) 10 [7]).encode]
  firstBlockNumber := 10
  stateTrieRoot := none
  storageTrieRoots _ := none

def forgedEncodings : Set Bytes := { x | x ∈ forgedBatch.map fun e => e.1.encode }

theorem forgedKeccak_injOn : Set.InjOn forgedKeccak forgedEncodings := by
  have hset : forgedEncodings =
      { x | x ∈ (forgedBatch.map fun e => (e.1.encode, e.2)).map Prod.fst } := by
    rw [forgedEncodings, map_map]
    rfl
  rw [hset]
  exact keccakTable_injOn (by decide +kernel)

/-- The batch is accepted, and the second block is told the hash of the forged header. -/
theorem executeBlocks_forged_header :
    Set.InjOn forgedKeccak forgedEncodings ∧
    executeBlocks forgedKeccak 0 (readHash 10) 2
        [⟨plainHeader (.repeatByte 1) 10 [], ()⟩, ⟨plainHeader (.repeatByte 2) 11 [], ()⟩]
        forgedWitness =
      .ok ⟨[⟨(), [], []⟩, ⟨(), [], [.blockHash 10 (.repeatByte 4)]⟩], Mpt.emptyTrieHash,
        Mpt.emptyTrieHash, .repeatByte 3⟩ ∧
    ¬Genuine forgedKeccak forgedEncodings (plainHeader (.repeatByte 2) 11 [])
      (plainHeader (.repeatByte 1) 10 [7]) := by
  refine ⟨forgedKeccak_injOn, by decide +kernel, fun hgenuine => ?_⟩
  have heq := hgenuine [plainHeader (.repeatByte 1) 10 []]
    (isChain_pair.2 ⟨by decide +kernel, by decide +kernel⟩)
    (by simp [forgedEncodings, forgedBatch]) _ (mem_singleton.2 rfl) rfl
  revert heq
  decide +kernel

def honestWitness : ExecutionWitness :=
  { forgedWitness with blockHeadersBytes := [(plainHeader (.repeatByte 0) 9 []).encode] }

theorem decodeHeaders_honest : GuestProgramState.decodeHeaders honestWitness.blockHeadersBytes =
    .ok ((∅ : Std.ExtTreeMap U64 BlockHeader).insert 9 (plainHeader (.repeatByte 0) 9 [])) := by
  have hdecode : BlockHeader.decode (plainHeader (.repeatByte 0) 9 []).encode =
      .ok (plainHeader (.repeatByte 0) 9 []) := by decide +kernel
  rw [honestWitness, GuestProgramState.decodeHeaders, mapM_cons, hdecode]
  rfl

theorem executeBlocks_blockHashes_honest :
    executeBlocks forgedKeccak 0 (readHash 9) 2
      [⟨plainHeader (.repeatByte 1) 10 [], ()⟩, ⟨plainHeader (.repeatByte 2) 11 [], ()⟩]
      honestWitness = .ok ⟨[⟨(), [], []⟩, ⟨(), [], [.blockHash 9 (.repeatByte 1)]⟩],
        Mpt.emptyTrieHash, Mpt.emptyTrieHash, .repeatByte 3⟩ ∧
    IsAncestorHash forgedKeccak forgedEncodings (plainHeader (.repeatByte 2) 11 []) 9
      (.repeatByte 1) := by
  have hstored : ∀ (n : U64) (header : BlockHeader),
      ((∅ : Std.ExtTreeMap U64 BlockHeader).insert 9 (plainHeader (.repeatByte 0) 9 []))[n]? =
        some header → n = 9 ∧ header = plainHeader (.repeatByte 0) 9 [] := by
    intro n header h
    rw [Std.ExtTreeMap.getElem?_insert] at h
    split at h
    · rename_i heq
      exact ⟨(Std.LawfulEqCmp.compare_eq_iff_eq.1 heq).symm, (Option.some.inj h).symm⟩
    · simp at h
  have hrun : executeBlocks forgedKeccak 0 (readHash 9) 2
      [⟨plainHeader (.repeatByte 1) 10 [], ()⟩, ⟨plainHeader (.repeatByte 2) 11 [], ()⟩]
      honestWitness = .ok ⟨[⟨(), [], []⟩, ⟨(), [], [.blockHash 9 (.repeatByte 1)]⟩],
        Mpt.emptyTrieHash, Mpt.emptyTrieHash, .repeatByte 3⟩ := by decide +kernel
  refine ⟨hrun, (executeBlocks_blockHashes forgedKeccak_injOn decodeHeaders_honest
    (fun n header h => ?_) (by simp [forgedEncodings, forgedBatch]) hrun).2
    (fun i block trace n answer hblock _ _ header h hpinned => ?_) 1 _ _ 9 (.repeatByte 1) rfl rfl
    (mem_singleton.2 rfl)⟩
  · obtain ⟨-, rfl⟩ := hstored n header h
    simp [forgedEncodings, forgedBatch]
  obtain ⟨rfl, rfl⟩ := hstored n header h
  refine absurd ⟨fun b hb => ?_, fun b hb => ?_, fun first hfirst => .inl ?_⟩ hpinned
  · obtain rfl | rfl := mem_pair.1 (mem_of_mem_take hb) <;>
      exact hash_plainHeader _ _ _ _
  · obtain rfl | rfl := mem_pair.1 (mem_of_mem_take hb) <;> decide +kernel
  · obtain rfl := Option.some.inj hfirst
    decide +kernel

end

end Guest

end Ethrex
