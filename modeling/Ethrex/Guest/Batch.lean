import Ethrex.Guest.Execute

/-!
# What an accepted batch has been checked for

The cells that `initialize_block_header_hashes` sets, the check of the stored headers, and the run
of an accepted batch.
-/

namespace Ethrex.Guest

open Rlp List
open BlockHeader (computeBlockHash decode number)
open GuestProgramState (decodeHeaders firstInvalid fromWitness getBlockHash setHashOrValidate)

/-! ### The hashes that are set -/

section

variable {keccak256 : Bytes → H256}

def SameHeader (a b : BlockHeader) : Prop := { a with cachedHash := b.cachedHash } = b

namespace SameHeader

variable {a b : BlockHeader}

theorem refl (a : BlockHeader) : SameHeader a a := rfl

theorem trans {c : BlockHeader} (hab : SameHeader a b) (hbc : SameHeader b c) : SameHeader a c := by
  rw [SameHeader] at *
  rw [← hbc, ← hab]

theorem encode_eq (h : SameHeader a b) : a.encode = b.encode := by
  rw [← (h : _ = b)]
  rfl

theorem number_eq (h : SameHeader a b) : a.number = b.number := by
  rw [← (h : _ = b)]

theorem parentHash_eq (h : SameHeader a b) : a.parentHash = b.parentHash := by
  rw [← (h : _ = b)]

theorem computeBlockHash_eq (h : SameHeader a b) :
    a.computeBlockHash keccak256 = b.computeBlockHash keccak256 := by
  rw [computeBlockHash, computeBlockHash, h.encode_eq]

end SameHeader

namespace GuestProgramState

theorem sameHeader_setHashOrValidate (header : BlockHeader) (hash : H256) :
    SameHeader header (setHashOrValidate header hash) := rfl

theorem initializeBlocks_fst (blocks : List BlockHeader) (headers : Std.ExtTreeMap U64 BlockHeader) :
    (initializeBlocks keccak256 blocks headers).1 =
      blocks.map fun block => setHashOrValidate block (block.computeBlockHash keccak256) := by
  induction blocks generalizing headers with
  | nil => rfl
  | cons block blocks ih => simp only [initializeBlocks, map_cons, ih]

/-- The first loop of `initialize_block_header_hashes` touches the cells of headers with a block's
number. -/
theorem getElem?_initializeBlocks (blocks : List BlockHeader)
    (headers : Std.ExtTreeMap U64 BlockHeader) (n : U64) :
    ∃ f : BlockHeader → BlockHeader, (∀ header, SameHeader header (f header)) ∧
      (n ∉ blocks.map number → f = id) ∧
      (initializeBlocks keccak256 blocks headers).2[n]? = headers[n]?.map f := by
  induction blocks generalizing headers with
  | nil => exact ⟨id, fun _ => .refl _, fun _ => rfl, by simp [initializeBlocks]⟩
  | cons block blocks ih =>
    simp only [initializeBlocks, setHashOrValidate]
    cases hblock : headers[block.number]? with
    | none =>
      obtain ⟨f, hf, hid, hget⟩ := ih headers
      exact ⟨f, hf, fun hn => hid fun h => hn (by simp [h]), hget⟩
    | some header =>
      obtain ⟨f, hf, hid, hget⟩ := ih (headers.insert block.number
        (setHashOrValidate header (block.computeBlockHash keccak256)))
      by_cases hn : block.number = n
      · subst hn
        refine ⟨fun header => f (setHashOrValidate header (block.computeBlockHash keccak256)),
          fun header => (sameHeader_setHashOrValidate header _).trans (hf _),
          fun h => absurd (by simp) h, ?_⟩
        rw [setHashOrValidate] at hget
        rw [hget, Std.ExtTreeMap.getElem?_insert_self, hblock]
        rfl
      · refine ⟨f, hf, fun h => hid fun h' => h (by simp [h']), ?_⟩
        rw [setHashOrValidate] at hget
        rw [hget, Std.ExtTreeMap.getElem?_insert, if_neg]
        rwa [Std.LawfulEqCmp.compare_eq_iff_eq]

/-- `initialize_block_header_hashes` touches cells only; a header without a block's number gets its
own hash. -/
theorem getElem?_initializeBlockHeaderHashes (state : GuestProgramState) (blocks : List BlockHeader)
    (n : U64) :
    ∃ f : BlockHeader → BlockHeader, (∀ header, SameHeader header (f header)) ∧
      (∀ header, n ∉ blocks.map number → header.number = n →
        f header = setHashOrValidate header (header.computeBlockHash keccak256)) ∧
      (state.initializeBlockHeaderHashes keccak256 blocks).2.blockHeaders[n]? =
        state.blockHeaders[n]?.map f := by
  obtain ⟨f, hf, hid, hget⟩ := @getElem?_initializeBlocks keccak256 blocks
    state.blockHeaders n
  refine ⟨fun header => if (f header).number ∈ blocks.map number then f header
    else setHashOrValidate (f header) ((f header).computeBlockHash keccak256), fun header => ?_,
    fun header hn hnumber => ?_, ?_⟩
  · dsimp only
    split
    · exact hf header
    · exact (hf header).trans (sameHeader_setHashOrValidate _ _)
  · obtain rfl := hid hn
    simp only [id_eq, hnumber, if_neg hn]
  · simp only [initializeBlockHeaderHashes, Std.ExtTreeMap.getElem?_map, hget, Option.map_map]
    rfl

end GuestProgramState

end

/-! ### The headers stay while blocks are executed -/

section

variable {keccak256 : Bytes → H256} {fuel : Nat} {state state' : GuestProgramState}

namespace GuestProgramState

theorem blockHeaders_hashedAddress (state : GuestProgramState) (address : Address) :
    (state.hashedAddress keccak256 address).2.blockHeaders = state.blockHeaders := by
  rw [hashedAddress]
  split <;> rfl

variable {address : Address}

theorem blockHeaders_getAccountState {answer : Option AccountState}
    (h : state.getAccountState keccak256 fuel address = .ok (answer, state')) :
    state'.blockHeaders = state.blockHeaders := by
  rw [← @blockHeaders_hashedAddress keccak256 state address]
  simp only [getAccountState] at h
  split at h
  · cases h
    rfl
  · cases h
  split at h
  · cases h
    rfl
  · cases h

theorem blockHeaders_getValidStorageTrie {answer : Option GuestTrie}
    (h : state.getValidStorageTrie keccak256 fuel address = .ok (answer, state')) :
    state'.blockHeaders = state.blockHeaders := by
  rw [← @blockHeaders_hashedAddress keccak256 state address]
  simp only [getValidStorageTrie] at h
  split at h
  · cases h
    rfl
  obtain ⟨⟨account, state₁⟩, hget, h⟩ := bind_eq_ok.1 h
  rw [← blockHeaders_getAccountState hget]
  cases account with
  | none =>
    cases h
    rfl
  | some account =>
    dsimp only at h
    split at h
    · split at h
      · cases h
        rfl
      · cases h
    · split at h
      · cases h
        rfl
      · cases h

theorem blockHeaders_getStorageSlot {key : H256} {answer : Option U256}
    (h : state.getStorageSlot keccak256 fuel address key = .ok (answer, state')) :
    state'.blockHeaders = state.blockHeaders := by
  obtain ⟨⟨trie, state₁⟩, hget, h⟩ := bind_eq_ok.1 h
  rw [← blockHeaders_getValidStorageTrie hget]
  cases trie with
  | none =>
    cases h
    rfl
  | some trie =>
    dsimp only at h
    split at h
    · cases h
    · cases h
      rfl
    split at h
    · cases h
      rfl
    · cases h

theorem blockHeaders_applyAccountUpdate {update : AccountUpdate}
    (h : state.applyAccountUpdate keccak256 fuel update = .ok state') :
    state'.blockHeaders = state.blockHeaders := by
  rw [← @blockHeaders_hashedAddress keccak256 state update.address]
  simp only [applyAccountUpdate] at h
  split at h
  · obtain ⟨⟨trie, value⟩, -, h⟩ := bind_eq_ok.1 h
    cases h
    rfl
  obtain ⟨account, -, h⟩ := bind_eq_ok.1 h
  obtain ⟨⟨account', state₁⟩, hstorage, h⟩ := bind_eq_ok.1 h
  obtain ⟨trie, -, h⟩ := bind_eq_ok.1 h
  cases h
  rw [writeStorage] at hstorage
  split at hstorage
  · cases hstorage
    rfl
  split at hstorage
  · cases hstorage
  · cases hstorage
    rfl

theorem blockHeaders_applyAccountUpdates {updates : List AccountUpdate}
    (h : state.applyAccountUpdates keccak256 fuel updates = .ok state') :
    state'.blockHeaders = state.blockHeaders := by
  induction updates generalizing state with
  | nil =>
    cases h
    rfl
  | cons update updates ih =>
    simp only [applyAccountUpdates, foldlM_cons] at h
    obtain ⟨state₁, hupdate, h⟩ := bind_eq_ok.1 h
    rw [ih h, blockHeaders_applyAccountUpdate hupdate]

end GuestProgramState

/-- An answer about a block hash comes from the headers of the state. -/
def AnsweredBy (keccak256 : Bytes → H256) (headers : Std.ExtTreeMap U64 BlockHeader)
    (blockNumber : U64) : Read → Prop
  | .blockHash n answer => inBlockHashRange blockNumber n ∧
      ∃ header, headers[n]? = some header ∧ answer = header.computeBlockHash keccak256
  | _ => True

variable {reads : List Read} {i : Nat} {parent : BlockHeader}

theorem Program.run_headers {α : Type} {program : Program α} {blockNumber : U64} {result : α}
    (h : program.run keccak256 fuel blockNumber state = .ok (result, state', reads)) :
    state'.blockHeaders = state.blockHeaders ∧
      ∀ read ∈ reads, AnsweredBy keccak256 state.blockHeaders blockNumber read := by
  induction program generalizing state reads with
  | ret result =>
    cases h
    exact ⟨rfl, by simp⟩
  | fail => cases h
  | account address next ih =>
    rw [Program.run] at h
    split at h
    · cases h
    rename_i answer state₁ hget
    obtain ⟨⟨result₁, state₂, reads₁⟩, hrun, h⟩ := bind_eq_ok.1 h
    cases h
    obtain ⟨hheaders, hreads⟩ := ih _ hrun
    rw [GuestProgramState.blockHeaders_getAccountState hget] at hheaders hreads
    exact ⟨hheaders, forall_mem_cons.2 ⟨trivial, hreads⟩⟩
  | slot address key next ih =>
    rw [Program.run] at h
    split at h
    · cases h
    rename_i answer state₁ hget
    obtain ⟨⟨result₁, state₂, reads₁⟩, hrun, h⟩ := bind_eq_ok.1 h
    cases h
    obtain ⟨hheaders, hreads⟩ := ih _ hrun
    rw [GuestProgramState.blockHeaders_getStorageSlot hget] at hheaders hreads
    exact ⟨hheaders, forall_mem_cons.2 ⟨trivial, hreads⟩⟩
  | code codeHash next ih | codeMetadata codeHash next ih =>
    rw [Program.run] at h
    split at h
    · cases h
    obtain ⟨⟨result₁, state₂, reads₁⟩, hrun, h⟩ := bind_eq_ok.1 h
    cases h
    obtain ⟨hheaders, hreads⟩ := ih _ hrun
    exact ⟨hheaders, forall_mem_cons.2 ⟨trivial, hreads⟩⟩
  | blockHash argument next ih =>
    rw [Program.run] at h
    dsimp only at h
    split at h
    · rename_i hrange
      rw [Bool.and_eq_true] at hrange
      split at h
      · cases h
      rename_i answer hget
      obtain ⟨⟨result₁, state₂, reads₁⟩, hrun, h⟩ := bind_eq_ok.1 h
      cases h
      obtain ⟨hheaders, hreads⟩ := ih _ hrun
      refine ⟨hheaders, forall_mem_cons.2 ⟨⟨hrange.2, ?_⟩, hreads⟩⟩
      rw [getBlockHash] at hget
      split at hget
      · rename_i header hheader
        cases hget
        exact ⟨header, hheader, rfl⟩
      · cases hget
    · exact ih _ h

variable {B R : Type} {backend : Backend B R} {e : U64}

theorem executeBlock_ok {block : Block B} {result : R} {updates : List AccountUpdate}
    (h : executeBlock keccak256 fuel backend e i block parent state =
      .ok (state', result, updates, reads)) :
    validateBlockHeader keccak256 block.header parent e = .ok () ∧
      ∃ state₁, (backend.executeBlock i block).run keccak256 fuel block.header.number state =
          .ok ((result, updates), state₁, reads) ∧
        state₁.applyAccountUpdates keccak256 fuel updates = .ok state' := by
  rw [executeBlock] at h
  obtain ⟨_, -, h⟩ := bind_eq_ok.1 h
  split at h
  · cases h
  rename_i hheader
  obtain ⟨_, -, h⟩ := bind_eq_ok.1 h
  obtain ⟨⟨⟨result₁, updates₁⟩, state₁, reads₁⟩, hrun, h⟩ := bind_eq_ok.1 h
  dsimp only at h
  split at h
  · cases h
  rename_i state₂ hupdates
  obtain ⟨_, -, h⟩ := bind_eq_ok.1 h
  cases h
  exact ⟨hheader, state₁, hrun, hupdates⟩

/-- In an accepted batch every header is valid after the one before it, and block hashes come from
the headers of the state. -/
theorem executeFrom_ok {blocks : List (Block B)} {traces : List (BlockTrace R)}
    (h : executeFrom keccak256 fuel backend e i blocks parent state = .ok (state', traces)) :
    (parent :: blocks.map Block.header).IsChain
        (fun parent header => validateBlockHeader keccak256 header parent e = .ok ()) ∧
      List.Forall₂ (fun (block : Block B) (trace : BlockTrace R) => ∀ read ∈ trace.reads,
        AnsweredBy keccak256 state.blockHeaders block.header.number read) blocks traces := by
  induction blocks generalizing i parent state traces with
  | nil =>
    cases h
    exact ⟨by simp, .nil⟩
  | cons block blocks ih =>
    rw [executeFrom] at h
    obtain ⟨⟨state₁, result, updates, reads⟩, hblock, h⟩ := bind_eq_ok.1 h
    obtain ⟨⟨state₂, traces₁⟩, hrest, h⟩ := bind_eq_ok.1 h
    cases h
    obtain ⟨hheader, state₃, hrun, hupdates⟩ := executeBlock_ok hblock
    obtain ⟨hheaders, hreads⟩ := Program.run_headers hrun
    obtain ⟨hchain, hforall⟩ := ih hrest
    rw [GuestProgramState.blockHeaders_applyAccountUpdates hupdates, hheaders] at hforall
    exact ⟨isChain_cons_cons.2 ⟨hheader, hchain⟩, .cons hreads hforall⟩

end

/-! ### The check of the stored headers -/

section

variable {keccak256 : Bytes → H256} {headers : Std.ExtTreeMap U64 BlockHeader}

/-- No number is missing from a stored header up to `last`. -/
def NoGap (headers : Std.ExtTreeMap U64 BlockHeader) (last : U64) : Prop :=
  ∀ m ∈ headers, m ≤ last → ∀ k, m ≤ k → k ≤ last → k ∈ headers

variable {last : U64}

theorem linked_of_firstInvalid {l : List (U64 × BlockHeader)}
    (hsorted : l.Pairwise fun a b => a.1 < b.1)
    (hgap : ∀ a ∈ l, a.1 < last → ∃ b ∈ l, b.1.val = a.1.val + 1)
    (hcheck : ∀ number, firstInvalid keccak256 l ≠ .ok (some number))
    {a b : U64 × BlockHeader} (ha : a ∈ l) (hb : b ∈ l) (hab : b.1.val = a.1.val + 1)
    (hlast : b.1 ≤ last) : b.2.parentHash = a.2.computeBlockHash keccak256 := by
  induction l with
  | nil => cases ha
  | cons x l ih =>
    have hx := pairwise_cons.1 hsorted
    cases l with
    | nil =>
      obtain rfl := mem_singleton.1 ha
      obtain rfl := mem_singleton.1 hb
      omega
    | cons y l =>
      have hlt : x.1 < last := by
        rcases mem_cons.1 ha with rfl | ha
        · exact lt_of_lt_of_le (Fin.lt_def.2 (by omega)) hlast
        · exact (hx.1 a ha).trans (lt_of_lt_of_le (Fin.lt_def.2 (by omega)) hlast)
      -- the neighbour of `x` has the next number, since that number is stored
      have hy : y.1.val = x.1.val + 1 := by
        obtain ⟨z, hz, hzx⟩ := hgap x (by simp) hlt
        have hxy : x.1.val < y.1.val := Fin.lt_def.1 (hx.1 y (by simp))
        rcases mem_cons.1 hz with rfl | hz
        · omega
        rcases mem_cons.1 hz with rfl | hz
        · exact hzx
        · have hyz : y.1.val < z.1.val := Fin.lt_def.1 ((pairwise_cons.1 hx.2).1 z hz)
          omega
      have hnext : y.1 = x.1 + 1 := by
        have hone : x.1.val + 1 < 2 ^ 64 := by omega
        apply Fin.ext
        rw [Fin.val_add, hy]
        exact (Nat.mod_eq_of_lt hone).symm
      have hstep : y.2.parentHash = x.2.computeBlockHash keccak256 ∧
          ∀ number, firstInvalid keccak256 (y :: l) ≠ .ok (some number) := by
        obtain ⟨xn, xh⟩ := x
        obtain ⟨yn, yh⟩ := y
        simp only [firstInvalid] at hcheck
        rw [if_neg (not_not.2 hnext)] at hcheck
        split at hcheck
        · exact absurd rfl (hcheck xn)
        · rename_i heq
          exact ⟨not_not.1 heq, hcheck⟩
      rcases mem_cons.1 ha with rfl | ha'
      · -- `b` is the neighbour of `x`
        rcases mem_cons.1 hb with rfl | hb
        · omega
        rcases mem_cons.1 hb with rfl | hb
        · exact hstep.1
        · have hyb : y.1.val < b.1.val := Fin.lt_def.1 ((pairwise_cons.1 hx.2).1 b hb)
          omega
      · refine ih hx.2 (fun c hc hclt => ?_) hstep.2 ha' ?_
        · obtain ⟨z, hz, hzc⟩ := hgap c (by simp [hc]) hclt
          refine ⟨z, ?_, hzc⟩
          rcases mem_cons.1 hz with rfl | hz
          · have hxc : z.1.val < c.1.val := Fin.lt_def.1 (hx.1 c hc)
            omega
          · exact hz
        · rcases mem_cons.1 hb with rfl | hb
          · have hxa : b.1.val < a.1.val := Fin.lt_def.1 (hx.1 a ha')
            omega
          · exact hb

theorem linked_of_noGap (hgap : NoGap headers last)
    (hcheck : ∀ number, firstInvalid keccak256 headers.toList ≠ .ok (some number))
    {m n : U64} {a b : BlockHeader} (ha : headers[m]? = some a) (hb : headers[n]? = some b)
    (hmn : n.val = m.val + 1) (hn : n ≤ last) : b.parentHash = a.computeBlockHash keccak256 := by
  have hsorted : headers.toList.Pairwise fun a b => a.1 < b.1 :=
    Std.ExtTreeMap.ordered_keys_toList.imp compare_lt_iff_lt.1
  refine linked_of_firstInvalid hsorted (fun c hc hlt => ?_) hcheck
    (Std.ExtTreeMap.mem_toList_iff_getElem?_eq_some.2 ha)
    (Std.ExtTreeMap.mem_toList_iff_getElem?_eq_some.2 hb) hmn hn
  obtain ⟨k, header⟩ := c
  have hk : k ∈ headers := Std.ExtTreeMap.mem_iff_isSome_getElem?.2
    (by rw [Std.ExtTreeMap.mem_toList_iff_getElem?_eq_some.1 hc]; rfl)
  have hklt : k.val < last.val := Fin.lt_def.1 hlt
  let next : U64 := ⟨k.val + 1, by omega⟩
  have hmem : next ∈ headers := hgap k hk hlt.le next (Fin.le_def.2 (Nat.le_succ _))
    (Fin.le_def.2 hklt)
  obtain ⟨x, hx⟩ := Option.isSome_iff_exists.1 (Std.ExtTreeMap.mem_iff_isSome_getElem?.1 hmem)
  exact ⟨(next, x), Std.ExtTreeMap.mem_toList_iff_getElem?_eq_some.2 hx, rfl⟩

end

/-! ### Batches that are accepted -/

section

variable {keccak256 : Bytes → H256} {S : Set Bytes} {headers : Std.ExtTreeMap U64 BlockHeader}

/-- Every stored header stands under its own number, with an empty cell. -/
def Decoded (headers : Std.ExtTreeMap U64 BlockHeader) : Prop :=
  ∀ (n : U64) (header : BlockHeader), headers[n]? = some header →
    header.number = n ∧ header.cachedHash = none

theorem cachedHash_of_decode {rlp : Bytes} {header : BlockHeader}
    (h : decode rlp = .ok header) : header.cachedHash = none := by
  obtain ⟨⟨decoded, rest⟩, hdecode, h⟩ := bind_eq_ok.1 h
  have heq : decoded = header := by
    dsimp only at h
    split at h
    · cases h
      rfl
    · cases h
  subst heq
  simp only [BlockHeader.decodeUnfinished] at hdecode
  obtain ⟨_, -, h⟩ := bind_eq_ok.1 hdecode
  iterate 15 obtain ⟨⟨_, _⟩, -, h⟩ := bind_eq_ok.1 h
  obtain ⟨_, -, h⟩ := bind_eq_ok.1 h
  cases h
  rfl

variable {decoded blocks : List BlockHeader} {bytes : List Bytes} {parent : BlockHeader}

theorem decoded_foldl (hcells : ∀ header ∈ decoded, header.cachedHash = none)
    (hheaders : Decoded headers) :
    Decoded (decoded.foldl (fun m header => m.insert header.number header) headers) := by
  induction decoded generalizing headers with
  | nil => exact hheaders
  | cons header decoded ih =>
    refine ih (fun x hx => hcells x (by simp [hx])) fun n x hx => ?_
    rw [Std.ExtTreeMap.getElem?_insert] at hx
    split at hx
    · rename_i heq
      obtain rfl := Option.some.inj hx
      exact ⟨Std.LawfulEqCmp.compare_eq_iff_eq.1 heq, hcells header (by simp)⟩
    · exact hheaders n x hx

theorem mapM_decode_cells (h : bytes.mapM decode = .ok decoded) :
    ∀ header ∈ decoded, header.cachedHash = none := by
  induction bytes generalizing decoded with
  | nil =>
    cases h
    simp
  | cons rlp bytes ih =>
    rw [mapM_cons] at h
    obtain ⟨header, hheader, h⟩ := bind_eq_ok.1 h
    obtain ⟨rest, hrest, h⟩ := bind_eq_ok.1 h
    cases h
    exact forall_mem_cons.2 ⟨cachedHash_of_decode hheader, ih hrest⟩

theorem decoded_of_decodeHeaders (h : decodeHeaders bytes = .ok headers) :
    Decoded headers := by
  rw [decodeHeaders] at h
  split at h
  · rename_i decoded hdecoded
    cases h
    exact decoded_foldl (mapM_decode_cells hdecoded) (by simp [Decoded])
  · cases h

/-- `child` is accepted after `parent`. -/
def Succeeds (keccak256 : Bytes → H256) (parent child : BlockHeader) : Prop :=
  child.number = parent.number + 1 ∧ child.parentHash = parent.hash keccak256 ∧
    parent.timestamp < child.timestamp

theorem batch_numbers (h : (parent :: blocks).IsChain (Succeeds keccak256)) {j : Nat}
    {x : BlockHeader} (hx : blocks[j]? = some x) :
    x.number.val = (parent.number.val + 1 + j) % 2 ^ 64 ∧
      parent.timestamp.val + j < x.timestamp.val := by
  induction blocks generalizing parent j with
  | nil => simp at hx
  | cons block blocks ih =>
    obtain ⟨⟨hnum, -, htime⟩, hrest⟩ := isChain_cons_cons.1 h
    have hval : block.number.val = (parent.number.val + 1) % 2 ^ 64 := by
      rw [hnum, Fin.val_add]
      rfl
    have htime' : parent.timestamp.val < block.timestamp.val := Fin.lt_def.1 htime
    cases j with
    | zero =>
      obtain rfl : block = x := by simpa using hx
      exact ⟨by simpa using hval, by omega⟩
    | succ j =>
      obtain ⟨hn, ht⟩ := ih hrest (by simpa using hx)
      refine ⟨?_, by omega⟩
      rw [hn, hval]
      omega

/-- What `execute_blocks` has established about the headers when it accepts a batch. -/
structure Accepted (keccak256 : Bytes → H256) (headers : Std.ExtTreeMap U64 BlockHeader)
    (blocks : List BlockHeader) (parent : BlockHeader) : Prop where
  decoded : Decoded headers
  stored : headers[parent.number]? = some parent
  chain : (parent :: blocks).IsChain (Succeeds keccak256)
  check : ∀ {last : U64}, NoGap headers last → ∀ {m n : U64} {a b : BlockHeader},
    headers[m]? = some a → headers[n]? = some b → n.val = m.val + 1 → n ≤ last →
      b.parentHash = a.computeBlockHash keccak256

theorem withHeaders_eq {B : Type} (blocks : List (Block B)) (f : BlockHeader → BlockHeader) :
    withHeaders blocks ((blocks.map Block.header).map f) =
      blocks.map fun block => { block with header := f block.header } := by
  induction blocks with
  | nil => rfl
  | cons block blocks ih => simpa [withHeaders] using ih

theorem parent_number_notMem (h : (parent :: blocks).IsChain (Succeeds keccak256)) :
    parent.number ∉ blocks.map number := by
  intro hmem
  obtain ⟨block, hblock, hnumber⟩ := mem_map.1 hmem
  obtain ⟨j, hj⟩ := mem_iff_getElem?.1 hblock
  obtain ⟨hval, htime⟩ := batch_numbers h hj
  have := block.timestamp.isLt
  rw [hnumber] at hval
  omega

theorem fromWitness_blockHeaders {witness : ExecutionWitness} {state : GuestProgramState}
    (h : fromWitness keccak256 witness = .ok state) :
    decodeHeaders witness.blockHeadersBytes = .ok state.blockHeaders := by
  obtain ⟨headers, hheaders, h⟩ := bind_eq_ok.1 h
  rw [hheaders]
  split at h
  · cases h
  split at h
  · cases h
  · cases h
    rfl

section

variable {B R : Type} {backend : Backend B R} {e : U64} {fuel : Nat} {blocks : List (Block B)}
  {witness : ExecutionWitness} {output : BatchExecutionResult R}

structure BatchRun (keccak256 : Bytes → H256) (fuel : Nat) (backend : Backend B R) (e : U64)
    (blocks : List (Block B)) (output : BatchExecutionResult R) (state : GuestProgramState) where
  parent : BlockHeader
  final : GuestProgramState
  start : GuestProgramState
  start_eq : start = (state.initializeBlockHeaderHashes keccak256 (blocks.map Block.header)).2
  batch : List (Block B)
  batch_eq : batch = blocks.map fun block => { block with
    header := setHashOrValidate block.header
      (block.header.computeBlockHash keccak256) }
  ne_nil : batch ≠ []
  check : ∀ number, start.getFirstInvalidBlockHash keccak256 ≠ .ok (some number)
  parent_eq : ∀ first ∈ batch.head?, start.getBlockParentHeader first.header.number = .ok parent
  initial : output.initialStateHash = (start.stateTrieRoot keccak256).1
  initial_eq : output.initialStateHash = parent.stateRoot
  run : executeFrom keccak256 fuel backend e 0 batch parent (start.stateTrieRoot keccak256).2 =
    .ok (final, output.traces)
  finalHash : output.finalStateHash = (final.stateTrieRoot keccak256).1

theorem exists_batchRun
    (h : executeBlocks keccak256 fuel backend e blocks witness = .ok output) :
    ∃ state, fromWitness keccak256 witness = .ok state ∧
      Nonempty (BatchRun keccak256 fuel backend e blocks output state) := by
  rw [executeBlocks] at h
  split at h
  · cases h
  rename_i state hstate
  refine ⟨state, hstate, ?_⟩
  dsimp only at h
  split at h
  · cases h
  rename_i hcheck
  have hbatch : withHeaders blocks (state.initializeBlockHeaderHashes keccak256
      (blocks.map Block.header)).1 = blocks.map fun block => { block with
        header := setHashOrValidate block.header
          (block.header.computeBlockHash keccak256) } := by
    simp only [GuestProgramState.initializeBlockHeaderHashes, GuestProgramState.initializeBlocks_fst]
    exact withHeaders_eq blocks _
  split at h
  · cases h
  rename_i first rest hblocks
  split at h
  · cases h
  rename_i parent hparent
  split at h
  · cases h
  rename_i hinitial
  obtain ⟨⟨final, traces⟩, hrun, h⟩ := bind_eq_ok.1 h
  dsimp only at h
  split at h
  · cases h
  cases h
  rw [hbatch] at hblocks
  exact ⟨{
    parent, final
    start := _
    start_eq := rfl
    batch := first :: rest
    batch_eq := hblocks.symm
    ne_nil := by simp
    check := fun number heq => hcheck number heq
    parent_eq := by
      rintro _ ⟨⟩
      exact hparent
    initial := rfl
    initial_eq := not_not.1 hinitial
    run := hrun
    finalHash := rfl }⟩

namespace BatchRun

variable {state : GuestProgramState} (run : BatchRun keccak256 fuel backend e blocks output state)

theorem getElem?_start (n : U64) :
    ∃ f : BlockHeader → BlockHeader, (∀ header, SameHeader header (f header)) ∧
      (∀ header, n ∉ (blocks.map Block.header).map number → header.number = n →
        f header = setHashOrValidate header (header.computeBlockHash keccak256)) ∧
      run.start.blockHeaders[n]? = state.blockHeaders[n]?.map f := by
  rw [run.start_eq]
  exact GuestProgramState.getElem?_initializeBlockHeaderHashes state _ n

variable {header : BlockHeader}

theorem exists_header {n : U64} (h : run.start.blockHeaders[n]? = some header) :
    ∃ x, state.blockHeaders[n]? = some x ∧ SameHeader x header := by
  obtain ⟨f, hf, -, hget⟩ := run.getElem?_start n
  rw [hget] at h
  obtain ⟨x, hx, rfl⟩ := Option.map_eq_some_iff.1 h
  exact ⟨x, hx, hf x⟩

theorem exists_start {n : U64} (h : state.blockHeaders[n]? = some header) :
    ∃ x, run.start.blockHeaders[n]? = some x ∧ SameHeader header x := by
  obtain ⟨f, hf, -, hget⟩ := run.getElem?_start n
  exact ⟨f header, by rw [hget, h]; rfl, hf header⟩

theorem mem_start_iff (n : U64) : n ∈ run.start.blockHeaders ↔ n ∈ state.blockHeaders := by
  obtain ⟨f, -, -, hget⟩ := run.getElem?_start n
  rw [Std.ExtTreeMap.mem_iff_isSome_getElem?, Std.ExtTreeMap.mem_iff_isSome_getElem?, hget,
    Option.isSome_map]

theorem map_number : (run.batch.map Block.header).map number =
    (blocks.map Block.header).map number := by
  rw [run.batch_eq, map_map, map_map, map_map]
  rfl

theorem succeeds : (run.parent :: run.batch.map Block.header).IsChain (Succeeds keccak256) :=
  (executeFrom_ok run.run).1.imp fun _ _ h => linked_of_validateBlockHeader h

theorem exists_parent (hdecoded : Decoded state.blockHeaders) :
    ∃ p, state.blockHeaders[p.number]? = some p ∧ run.parent =
      setHashOrValidate p (p.computeBlockHash keccak256) := by
  obtain ⟨first, hfirst⟩ := Option.ne_none_iff_exists'.1 (mt head?_eq_none_iff.1 run.ne_nil)
  have hparent := run.parent_eq first hfirst
  rw [GuestProgramState.getBlockParentHeader] at hparent
  split at hparent
  · rename_i header hheader
    cases hparent
    generalize (if first.header.number = 0 then (0 : U64) else first.header.number - 1) = n
      at hheader
    obtain ⟨f, hf, hown, hget⟩ := run.getElem?_start n
    rw [hget] at hheader
    obtain ⟨p, hp, hpeq⟩ := Option.map_eq_some_iff.1 hheader
    have hn : p.number = n := (hdecoded n p hp).1
    have hmem := parent_number_notMem run.succeeds
    rw [run.map_number, ← hpeq, ← (hf p).number_eq, hn] at hmem
    exact ⟨p, by rw [hn]; exact hp, by rw [← hpeq]; exact hown p hmem hn⟩
  · cases hparent

end BatchRun

theorem executeBlocks_accepted
    (hdecode : decodeHeaders witness.blockHeadersBytes = .ok headers)
    (h : executeBlocks keccak256 fuel backend e blocks witness = .ok output) :
    (∃ parent, Accepted keccak256 headers (blocks.map Block.header) parent) ∧ blocks ≠ [] ∧
      List.Forall₂ (fun (block : Block B) (trace : BlockTrace R) => ∀ read ∈ trace.reads,
        AnsweredBy keccak256 headers block.header.number read) blocks output.traces := by
  have hdecoded := decoded_of_decodeHeaders hdecode
  obtain ⟨state, hstate, ⟨run⟩⟩ := exists_batchRun h
  have hheaders := fromWitness_blockHeaders hstate
  rw [hdecode] at hheaders
  obtain rfl := Except.ok.inj hheaders
  have hreads := (executeFrom_ok run.run).2
  have hchain := run.succeeds
  have hnil : blocks ≠ [] := fun hnil => run.ne_nil (by rw [run.batch_eq, hnil]; rfl)
  obtain ⟨p, hp, hparent⟩ := run.exists_parent hdecoded
  have hmap : run.parent :: run.batch.map Block.header = (p :: blocks.map Block.header).map
      fun header => setHashOrValidate header
        (header.computeBlockHash keccak256) := by
    rw [run.batch_eq, hparent, map_cons, map_map, map_map]
    rfl
  rw [hmap, isChain_map] at hchain
  refine ⟨⟨p, hdecoded, hp, hchain.imp fun a b hab => hab, ?_⟩, hnil, ?_⟩
  · intro last hgap m n a b ha hb hmn hn
    obtain ⟨a', ha', haa'⟩ := run.exists_start ha
    obtain ⟨b', hb', hbb'⟩ := run.exists_start hb
    have hcheck : ∀ number, firstInvalid keccak256 run.start.blockHeaders.toList ≠
        .ok (some number) := by
      intro number heq
      refine run.check number ?_
      rw [GuestProgramState.getFirstInvalidBlockHash, if_neg, heq]
      intro hempty
      rw [Std.ExtTreeMap.isEmpty_iff.1 hempty] at ha'
      simp at ha'
    have hgap' : NoGap run.start.blockHeaders last := fun i hi hil k hik hkl =>
      (run.mem_start_iff k).2 (hgap i ((run.mem_start_iff i).1 hi) hil k hik hkl)
    rw [hbb'.parentHash_eq, haa'.computeBlockHash_eq]
    exact linked_of_noGap hgap' hcheck ha' hb' hmn hn
  · rw [run.batch_eq, List.forall₂_map_left_iff] at hreads
    refine hreads.imp fun block trace htrace read hread => ?_
    have hanswered := htrace read hread
    cases read with
    | blockHash n answer =>
      obtain ⟨hrange, header, hheader, hanswer⟩ := hanswered
      obtain ⟨x, hx, hsame⟩ := run.exists_header hheader
      exact ⟨hrange, x, hx, by rw [hanswer, hsame.computeBlockHash_eq]⟩
    | _ => trivial

end

end

end Ethrex.Guest
