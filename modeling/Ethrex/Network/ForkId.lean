import Ethrex.Block.Header

/-!
# Fork identifiers

The checksum function is a parameter. The identifier of one position is accepted at another unless
one of two things happens (`ChainConfig.accepts_iff`): a fork that both expect is compared with a
number in the other unit and lies between the two units of the head (`UnitClash`), or the list of
known identifiers drops a timestamp fork that equals the last block-number fork (`BorderClash`).
-/

namespace Ethrex

open List

/-- `ChainConfig`, the fields that `gather_forks` reads. -/
structure ChainConfig where
  homesteadBlock : Option U64 := none
  daoForkBlock : Option U64 := none
  daoForkSupport : Bool := false
  eip150Block : Option U64 := none
  eip155Block : Option U64 := none
  eip158Block : Option U64 := none
  byzantiumBlock : Option U64 := none
  constantinopleBlock : Option U64 := none
  petersburgBlock : Option U64 := none
  istanbulBlock : Option U64 := none
  muirGlacierBlock : Option U64 := none
  berlinBlock : Option U64 := none
  londonBlock : Option U64 := none
  arrowGlacierBlock : Option U64 := none
  grayGlacierBlock : Option U64 := none
  mergeNetsplitBlock : Option U64 := none
  shanghaiTime : Option U64 := none
  cancunTime : Option U64 := none
  pragueTime : Option U64 := none
  verkleTime : Option U64 := none
  osakaTime : Option U64 := none
  bpo1Time : Option U64 := none
  bpo2Time : Option U64 := none
  bpo3Time : Option U64 := none
  bpo4Time : Option U64 := none
  bpo5Time : Option U64 := none
  amsterdamTime : Option U64 := none
  hegotaTime : Option U64 := none

def sortDedup (forks : List U64) : List U64 :=
  (forks.insertionSort (· ≤ ·)).destutter (· ≠ ·)

theorem sortDedup_pairwise (forks : List U64) : (sortDedup forks).Pairwise (· < ·) := by
  have hsorted := pairwise_insertionSort (· ≤ ·) forks
  have hle : (sortDedup forks).Pairwise (· ≤ ·) := hsorted.sublist (destutter_sublist ..)
  have hne : (sortDedup forks).Pairwise (· ≠ ·) := by
    rw [sortDedup, hsorted.destutter_eq_dedup]
    exact nodup_dedup _
  exact hle.imp₂ (fun _ _ => lt_of_le_of_ne) hne

namespace ChainConfig

def gatherForks (config : ChainConfig) (genesisHeader : BlockHeader) : List U64 × List U64 :=
  let blockNumberBasedForks := [
    config.homesteadBlock,
    if config.daoForkSupport then config.daoForkBlock else none,
    config.eip150Block,
    config.eip155Block,
    config.eip158Block,
    config.byzantiumBlock,
    config.constantinopleBlock,
    config.petersburgBlock,
    config.istanbulBlock,
    config.muirGlacierBlock,
    config.berlinBlock,
    config.londonBlock,
    config.arrowGlacierBlock,
    config.grayGlacierBlock,
    config.mergeNetsplitBlock].reduceOption
  let timestampBasedForks := [
    config.shanghaiTime,
    config.cancunTime,
    config.pragueTime,
    config.osakaTime,
    config.bpo1Time,
    config.bpo2Time,
    config.bpo3Time,
    config.bpo4Time,
    config.bpo5Time,
    config.amsterdamTime,
    config.hegotaTime,
    config.verkleTime].reduceOption
  ((sortDedup blockNumberBasedForks).filter (· ≠ 0),
    (sortDedup timestampBasedForks).filter (genesisHeader.timestamp < ·))

variable (config : ChainConfig) (genesisHeader : BlockHeader)

theorem gatherForks_increasing :
    (0 :: (config.gatherForks genesisHeader).1).IsChain (· < ·) ∧
      (0 :: (config.gatherForks genesisHeader).2).IsChain (· < ·) := by
  simp only [gatherForks, isChain_iff_pairwise, pairwise_cons, mem_filter,
    decide_eq_true_eq]
  refine ⟨⟨?_, (sortDedup_pairwise _).filter _⟩, ⟨?_, (sortDedup_pairwise _).filter _⟩⟩
  · rintro fork ⟨-, hfork⟩
    exact Fin.pos_iff_ne_zero.2 hfork
  · rintro fork ⟨-, hfork⟩
    exact lt_of_le_of_lt (Fin.zero_le _) hfork

end ChainConfig

/-! ### The identifier of a position -/

abbrev H32 := FixedBytes 4

structure ForkId where
  forkHash : H32
  forkNext : U64
  deriving DecidableEq

def timestampThreshold : U64 := 1438269973

/-- The loop of `update_checksum`; the hasher is the string that it was fed so far. -/
def updateChecksumFrom (head lastIncluded : U64) : List U64 → Bytes → Bytes × U64
  | [], hasher => (hasher, 0)
  | activation :: forks, hasher =>
    if activation ≤ head then
      if activation ≠ lastIncluded then
        updateChecksumFrom head activation forks (hasher ++ fixedBeBytes 8 activation)
      else updateChecksumFrom head lastIncluded forks hasher
    else (hasher, activation)

def updateChecksum (forks : List U64) (hasher : Bytes) (head : U64) : Bytes × U64 :=
  updateChecksumFrom head 0 forks hasher

def forkBytes (forks : List U64) : Bytes := forks.flatMap fun activation => fixedBeBytes 8 activation

theorem forkBytes_append (forks forks' : List U64) :
    forkBytes (forks ++ forks') = forkBytes forks ++ forkBytes forks' := by
  simp [forkBytes]

def passed (head : U64) (forks : List U64) : List U64 := forks.takeWhile (· ≤ head)

def pending (head : U64) (forks : List U64) : List U64 := forks.dropWhile (· ≤ head)

theorem passed_append_pending (head : U64) (forks : List U64) :
    passed head forks ++ pending head forks = forks := takeWhile_append_dropWhile

theorem updateChecksumFrom_eq (head : U64) :
    ∀ (forks : List U64) (lastIncluded : U64) (hasher : Bytes),
      (lastIncluded :: forks).IsChain (· < ·) →
      updateChecksumFrom head lastIncluded forks hasher =
        (hasher ++ forkBytes (passed head forks), (pending head forks).headD 0) := by
  intro forks
  induction forks with
  | nil =>
    intro lastIncluded hasher _
    simp [updateChecksumFrom, passed, pending, forkBytes]
  | cons activation forks ih =>
    intro lastIncluded hasher hchain
    rw [isChain_cons_cons] at hchain
    rw [updateChecksumFrom]
    by_cases hle : activation ≤ head
    · rw [if_pos hle, if_pos hchain.1.ne', ih _ _ hchain.2]
      simp [passed, pending, hle, forkBytes]
    · rw [if_neg hle]
      simp [passed, pending, hle, forkBytes]

/-- A position of a chain: the number and the timestamp of its head. -/
structure ChainPosition where
  number : U64
  timestamp : U64

variable (crc32 : Bytes → UInt32) (keccak256 : Bytes → H256)

/-- `H32::from_slice(&hasher.finalize().to_be_bytes())`. -/
def checksum (hasher : Bytes) : H32 :=
  ⟨fixedBeBytes 4 (crc32 hasher).toNat, length_fixedBeBytes ..⟩

def ForkId.new (chainConfig : ChainConfig) (genesisHeader : BlockHeader)
    (headTimestamp headBlockNumber : U64) : ForkId :=
  let genesisHash := genesisHeader.hash keccak256
  let (blockNumberBasedForks, timestampBasedForks) := chainConfig.gatherForks genesisHeader
  let (hasher, forkNext) :=
    updateChecksum blockNumberBasedForks genesisHash.bytes headBlockNumber
  if forkNext > 0 then { forkHash := checksum crc32 hasher, forkNext }
  else
    let (hasher, forkNext) := updateChecksum timestampBasedForks hasher headTimestamp
    { forkHash := checksum crc32 hasher, forkNext }

/-- The loop of `get_all_fork_id_combinations`. -/
def forkIdCombinationsFrom : U64 → List U64 → Bytes → List (H32 × U64)
  | _, [], hasher => [(checksum crc32 hasher, 0)]
  | lastActivation, activation :: forks, hasher =>
    if activation = lastActivation then forkIdCombinationsFrom lastActivation forks hasher
    else
      (checksum crc32 hasher, activation) ::
        forkIdCombinationsFrom activation forks (hasher ++ fixedBeBytes 8 activation)

def getAllForkIdCombinations (forks : List U64) (genesisHash : H256) : List (H32 × U64) :=
  forkIdCombinationsFrom crc32 0 forks genesisHash.bytes

/-- The loop of `is_valid` over the known identifiers. -/
def scanCombinations (localHash : H32) (remote : ForkId) : Bool → List (H32 × U64) → Bool
  | _, [] => false
  | isSubset, (forkHash, forkNext) :: combinations =>
    if isSubset ∧ remote.forkHash = forkHash ∧ remote.forkNext = forkNext then true
    else if ¬ isSubset ∧ remote.forkHash = forkHash then true
    else scanCombinations localHash remote (isSubset && forkHash ≠ localHash) combinations

/-- The number that `is_valid` compares the next fork of the peer with. -/
def ChainPosition.head (position : ChainPosition) : U64 :=
  if position.timestamp ≥ timestampThreshold then position.timestamp else position.number

def ForkId.isValid (self remote : ForkId) (latestBlockNumber headTimestamp : U64)
    (chainConfig : ChainConfig) (genesisHeader : BlockHeader) : Bool :=
  let genesisHash := genesisHeader.hash keccak256
  let (blockNumberBasedForks, timestampBasedForks) := chainConfig.gatherForks genesisHeader
  let head := ChainPosition.head { number := latestBlockNumber, timestamp := headTimestamp }
  if remote.forkHash = self.forkHash then
    if remote.forkNext ≤ head ∧ remote.forkNext ≠ 0 then false else true
  else
    let forks := blockNumberBasedForks ++ timestampBasedForks
    let validCombinations := getAllForkIdCombinations crc32 forks genesisHash
    scanCombinations self.forkHash remote true validCombinations

/-! ### What the scan accepts -/

/-- The identifier is in the list, or its checksum stands there behind the local one. -/
def Listed (localHash : H32) (remote : ForkId) (combinations : List (H32 × U64)) : Prop :=
  ∃ before entry after, combinations = before ++ entry :: after ∧ remote.forkHash = entry.1 ∧
    (remote.forkNext = entry.2 ∨ ∃ earlier ∈ before, earlier.1 = localHash)

theorem Listed.of_mem {localHash : H32} {remote : ForkId} {combinations : List (H32 × U64)}
    (hmem : (remote.forkHash, remote.forkNext) ∈ combinations) :
    Listed localHash remote combinations := by
  obtain ⟨before, after, rfl⟩ := append_of_mem hmem
  exact ⟨before, _, after, rfl, rfl, .inl rfl⟩

variable (localHash : H32) (position : ChainPosition) (remote : ForkId)

theorem scanCombinations_false_iff (combinations : List (H32 × U64)) :
    scanCombinations localHash remote false combinations = true ↔
      ∃ entry ∈ combinations, remote.forkHash = entry.1 := by
  induction combinations with
  | nil => simp [scanCombinations]
  | cons entry combinations ih =>
    obtain ⟨forkHash, forkNext⟩ := entry
    by_cases hhash : remote.forkHash = forkHash
    · simp [scanCombinations, hhash]
    · simp [scanCombinations, hhash, ih]

theorem listed_cons_iff (entry : H32 × U64) (combinations : List (H32 × U64)) :
    Listed localHash remote (entry :: combinations) ↔
      (remote.forkHash = entry.1 ∧ remote.forkNext = entry.2) ∨
        (entry.1 = localHash ∧ ∃ later ∈ combinations, remote.forkHash = later.1) ∨
        Listed localHash remote combinations := by
  constructor
  · rintro ⟨before, found, after, heq, hhash, hnext⟩
    cases before with
    | nil =>
      obtain ⟨rfl, -⟩ := List.cons.inj heq
      left
      exact ⟨hhash, hnext.resolve_right (by simp)⟩
    | cons first before =>
      obtain ⟨rfl, rfl⟩ := List.cons.inj heq
      right
      rcases hnext with hnext | ⟨earlier, hmem, hlocal⟩
      · exact .inr ⟨before, found, after, rfl, hhash, .inl hnext⟩
      · rcases mem_cons.1 hmem with rfl | hmem
        · exact .inl ⟨hlocal, found, by simp, hhash⟩
        · exact .inr ⟨before, found, after, rfl, hhash, .inr ⟨earlier, hmem, hlocal⟩⟩
  · rintro (⟨hhash, hnext⟩ | ⟨hlocal, later, hmem, hhash⟩ | ⟨before, found, after, rfl, hhash, hnext⟩)
    · exact ⟨[], entry, combinations, rfl, hhash, .inl hnext⟩
    · obtain ⟨before, after, rfl⟩ := append_of_mem hmem
      exact ⟨entry :: before, later, after, rfl, hhash, .inr ⟨entry, by simp, hlocal⟩⟩
    · refine ⟨entry :: before, found, after, rfl, hhash, hnext.imp_right ?_⟩
      rintro ⟨earlier, hmem, hlocal⟩
      exact ⟨earlier, by simp [hmem], hlocal⟩

theorem scanCombinations_true_iff (combinations : List (H32 × U64)) :
    scanCombinations localHash remote true combinations = true ↔
      Listed localHash remote combinations := by
  induction combinations with
  | nil => simp [scanCombinations, Listed]
  | cons entry combinations ih =>
    rw [listed_cons_iff]
    obtain ⟨forkHash, forkNext⟩ := entry
    by_cases hmatch : remote.forkHash = forkHash ∧ remote.forkNext = forkNext
    · simp [scanCombinations, hmatch]
    by_cases hlocal : forkHash = localHash
    · have hsub : Listed localHash remote combinations →
          ∃ later ∈ combinations, remote.forkHash = later.1 := by
        rintro ⟨before, found, after, rfl, hhash, -⟩
        exact ⟨found, by simp, hhash⟩
      have hscan := scanCombinations_false_iff localHash remote combinations
      rw [scanCombinations, if_neg (by simpa using hmatch), if_neg (by simp)]
      simp only [hlocal, ne_eq, not_true_eq_false, decide_false, Bool.and_false, hscan,
        true_and]
      exact ⟨fun h => .inr (.inl h), fun h => (h.resolve_left (hlocal ▸ hmatch)).elim id hsub⟩
    · simp [scanCombinations, hmatch, hlocal, ih]

/-! ### The forks behind and ahead of a position -/

variable (config : ChainConfig) (genesisHeader : BlockHeader)

/-- Every fork of the chain: those by block number, then those by timestamp. -/
def ChainConfig.forks : List U64 :=
  (config.gatherForks genesisHeader).1 ++ (config.gatherForks genesisHeader).2

/-- The forks that a position has passed; a timestamp fork counts only behind all others. -/
def ChainConfig.passedForks (position : ChainPosition) : List U64 :=
  let (blockNumberBasedForks, timestampBasedForks) := config.gatherForks genesisHeader
  if pending position.number blockNumberBasedForks = [] then
    blockNumberBasedForks ++ passed position.timestamp timestampBasedForks
  else passed position.number blockNumberBasedForks

def ChainConfig.pendingForks (position : ChainPosition) : List U64 :=
  let (blockNumberBasedForks, timestampBasedForks) := config.gatherForks genesisHeader
  if pending position.number blockNumberBasedForks = [] then
    pending position.timestamp timestampBasedForks
  else pending position.number blockNumberBasedForks ++ timestampBasedForks

theorem ChainConfig.passedForks_append_pendingForks :
    config.passedForks genesisHeader position ++ config.pendingForks genesisHeader position =
      config.forks genesisHeader := by
  simp only [passedForks, pendingForks, forks]
  split
  · rw [append_assoc, passed_append_pending]
  · rw [← append_assoc, passed_append_pending]

theorem ChainConfig.passedForks_isPrefix :
    config.passedForks genesisHeader position <+: config.forks genesisHeader :=
  ⟨_, passedForks_append_pendingForks position config genesisHeader⟩

def ChainConfig.forkChecksum (position : ChainPosition) : H32 :=
  checksum crc32 ((genesisHeader.hash keccak256).bytes ++
    forkBytes (config.passedForks genesisHeader position))

def ChainConfig.forkIdAt (position : ChainPosition) : ForkId :=
  .new crc32 keccak256 config genesisHeader position.timestamp position.number

theorem ChainConfig.forkIdAt_eq :
    config.forkIdAt crc32 keccak256 genesisHeader position =
      { forkHash := config.forkChecksum crc32 keccak256 genesisHeader position
        forkNext := (config.pendingForks genesisHeader position).headD 0 } := by
  obtain ⟨hblocks, htimes⟩ := config.gatherForks_increasing genesisHeader
  simp only [forkIdAt, ForkId.new, updateChecksum, forkChecksum, passedForks, pendingForks]
  generalize (config.gatherForks genesisHeader).1 = blocks at hblocks ⊢
  generalize (config.gatherForks genesisHeader).2 = times at htimes ⊢
  simp only [updateChecksumFrom_eq _ _ _ _ hblocks, updateChecksumFrom_eq _ _ _ _ htimes]
  have hsplit := passed_append_pending position.number blocks
  cases hpending : pending position.number blocks with
  | nil =>
    rw [hpending, append_nil] at hsplit
    simp [hsplit, forkBytes_append]
  | cons next later =>
    have hpos : 0 < next := by
      rw [isChain_iff_pairwise, pairwise_cons] at hblocks
      apply hblocks.1
      rw [← hsplit, hpending]
      simp
    simp [hpos]

theorem ChainConfig.forks_pos {fork : U64} (hfork : fork ∈ config.forks genesisHeader) :
    0 < fork := by
  obtain ⟨hblocks, htimes⟩ := config.gatherForks_increasing genesisHeader
  simp only [isChain_iff_pairwise, pairwise_cons] at hblocks htimes
  rcases mem_append.1 hfork with hmem | hmem
  · exact hblocks.1 fork hmem
  · exact htimes.1 fork hmem

def ChainConfig.BoundaryDistinct : Prop :=
  ∀ block ∈ (config.gatherForks genesisHeader).1.getLast?,
    ∀ time ∈ (config.gatherForks genesisHeader).2.head?, block ≠ time

theorem ChainConfig.BoundaryDistinct.isChain_forks
    (hdistinct : config.BoundaryDistinct genesisHeader) :
    (0 :: config.forks genesisHeader).IsChain (· ≠ ·) := by
  obtain ⟨hblocks, htimes⟩ := config.gatherForks_increasing genesisHeader
  have hne : ∀ {forks : List U64}, (0 :: forks).IsChain (· < ·) → (0 :: forks).IsChain (· ≠ ·) :=
    fun h => h.imp fun _ _ hlt => hlt.ne
  rw [forks, ← cons_append, isChain_append]
  refine ⟨hne hblocks, (hne htimes).tail, ?_⟩
  intro block hblock time htime
  cases hlast : (config.gatherForks genesisHeader).1.getLast? with
  | none =>
    rw [getLast?_eq_none_iff.1 hlast] at hblock
    obtain rfl : 0 = block := by simpa using hblock
    cases hforks : (config.gatherForks genesisHeader).2 with
    | nil => simp [hforks] at htime
    | cons first later =>
      rw [hforks] at htimes htime
      obtain rfl : first = time := by simpa using htime
      exact (isChain_cons_cons.1 htimes).1.ne
  | some last =>
    rw [getLast?_cons, hlast] at hblock
    obtain rfl : last = block := by simpa using hblock
    exact hdistinct last hlast time htime

theorem mem_forkIdCombinationsFrom_iff (forks : List U64) :
    ∀ (lastActivation : U64) (hasher : Bytes), (lastActivation :: forks).IsChain (· ≠ ·) →
      ∀ entry, entry ∈ forkIdCombinationsFrom crc32 lastActivation forks hasher ↔
        ∃ before after, forks = before ++ after ∧
          entry = (checksum crc32 (hasher ++ forkBytes before), after.headD 0) := by
  induction forks with
  | nil =>
    intro lastActivation hasher _ entry
    simp [forkIdCombinationsFrom, forkBytes]
  | cons activation forks ih =>
    intro lastActivation hasher hchain entry
    rw [isChain_cons_cons] at hchain
    rw [forkIdCombinationsFrom, if_neg hchain.1.symm, mem_cons, ih activation _ hchain.2]
    constructor
    · rintro (rfl | ⟨before, after, rfl, rfl⟩)
      · exact ⟨[], activation :: forks, rfl, by simp [forkBytes]⟩
      · exact ⟨activation :: before, after, rfl, by simp [forkBytes]⟩
    · rintro ⟨before, after, heq, rfl⟩
      cases before with
      | nil =>
        rw [nil_append] at heq
        subst heq
        exact .inl (by simp [forkBytes])
      | cons first before =>
        obtain ⟨rfl, rfl⟩ := List.cons.inj heq
        exact .inr ⟨before, after, rfl, by simp [forkBytes]⟩

theorem ChainConfig.forkIdAt_mem (hdistinct : config.BoundaryDistinct genesisHeader)
    (position : ChainPosition) :
    (config.forkChecksum crc32 keccak256 genesisHeader position,
      (config.pendingForks genesisHeader position).headD 0) ∈
      getAllForkIdCombinations crc32 (config.forks genesisHeader)
        (genesisHeader.hash keccak256) := by
  refine (mem_forkIdCombinationsFrom_iff _ _ _ _ hdistinct.isChain_forks _).2 ⟨_, _, ?_, rfl⟩
  exact (passedForks_append_pendingForks position config genesisHeader).symm

/-! ### Two nodes of one chain -/

/-- The answer of a node at `position` to the identifier of a peer at `peer`. -/
def ChainConfig.accepts (position peer : ChainPosition) : Bool :=
  (config.forkIdAt crc32 keccak256 genesisHeader position).isValid crc32 keccak256
    (config.forkIdAt crc32 keccak256 genesisHeader peer) position.number position.timestamp
    config genesisHeader

/-- Rule 1 holds: the fork that the peer expects next, if any, is above the head. -/
def ChainConfig.NextAhead (position peer : ChainPosition) : Prop :=
  ∀ next ∈ (config.pendingForks genesisHeader peer).head?, position.head < next

/-- The identifier of the peer is among the known ones, or its checksum is behind the local one. -/
def ChainConfig.Known (position peer : ChainPosition) : Prop :=
  Listed (config.forkChecksum crc32 keccak256 genesisHeader position)
    (config.forkIdAt crc32 keccak256 genesisHeader peer)
    (getAllForkIdCombinations crc32 (config.forks genesisHeader) (genesisHeader.hash keccak256))

theorem ChainConfig.BoundaryDistinct.known (hdistinct : config.BoundaryDistinct genesisHeader)
    (position peer : ChainPosition) :
    config.Known crc32 keccak256 genesisHeader position peer := by
  apply Listed.of_mem
  rw [forkIdAt_eq]
  exact config.forkIdAt_mem crc32 keccak256 genesisHeader hdistinct peer

theorem ChainConfig.nextAhead_iff (peer : ChainPosition) :
    config.NextAhead genesisHeader position peer ↔
      ¬ ((config.pendingForks genesisHeader peer).headD 0 ≤ position.head ∧
        (config.pendingForks genesisHeader peer).headD 0 ≠ 0) := by
  have hsplit := passedForks_append_pendingForks peer config genesisHeader
  rw [NextAhead]
  cases hpending : config.pendingForks genesisHeader peer with
  | nil => simp
  | cons next later =>
    have hpos : 0 < next := by
      apply config.forks_pos genesisHeader
      rw [← hsplit, hpending]
      simp
    simp [hpos.ne']

theorem ChainConfig.accepts_eq_true (peer : ChainPosition) :
    config.accepts crc32 keccak256 genesisHeader position peer = true ↔
      (config.forkChecksum crc32 keccak256 genesisHeader peer =
          config.forkChecksum crc32 keccak256 genesisHeader position →
        config.NextAhead genesisHeader position peer) ∧
      (config.forkChecksum crc32 keccak256 genesisHeader peer ≠
          config.forkChecksum crc32 keccak256 genesisHeader position →
        config.Known crc32 keccak256 genesisHeader position peer) := by
  rw [nextAhead_iff, Known, ← scanCombinations_true_iff]
  simp only [accepts, ForkId.isValid, forkIdAt_eq]
  by_cases hhash : config.forkChecksum crc32 keccak256 genesisHeader peer =
      config.forkChecksum crc32 keccak256 genesisHeader position
  · simp only [hhash, if_true, true_imp_iff, ne_eq, not_true_eq_false, false_imp_iff, and_true]
    refine ⟨fun h hmissed => ?_, fun h => if_neg h⟩
    rw [if_pos hmissed] at h
    exact Bool.false_ne_true h
  · simp [hhash, forks]

/-! ### The condition on the forks and the positions -/

/-- A fork by block number is still ahead of the position but not above its timestamp, which is the
number it is compared with; or the same with the units exchanged. -/
def ChainConfig.UnitClash : Prop :=
  (timestampThreshold ≤ position.timestamp ∧
    ∃ fork ∈ (config.gatherForks genesisHeader).1,
      position.number < fork ∧ fork ≤ position.timestamp) ∨
  (position.timestamp < timestampThreshold ∧
    (∀ fork ∈ (config.gatherForks genesisHeader).1, fork ≤ position.number) ∧
    ∃ fork ∈ (config.gatherForks genesisHeader).2,
      position.timestamp < fork ∧ fork ≤ position.number)

/-- The last fork by block number is also the first one by timestamp, and the peer or both sides
have come past it. -/
def ChainConfig.BorderClash (position peer : ChainPosition) : Prop :=
  ∃ fork ∈ (config.gatherForks genesisHeader).1.getLast?,
    fork ∈ (config.gatherForks genesisHeader).2.head? ∧ fork ≤ peer.number ∧
      (fork ≤ peer.timestamp ∨ (fork ≤ position.number ∧ fork ≤ position.timestamp))

/-- The checksums of the lists of forks that the two functions hash are different. -/
def ChainConfig.ChecksumsDistinct : Prop :=
  Set.InjOn (fun forks => checksum crc32 ((genesisHeader.hash keccak256).bytes ++ forkBytes forks))
    {forks | forks <+: config.forks genesisHeader ∨
      forks <+: (config.gatherForks genesisHeader).1 ++ (config.gatherForks genesisHeader).2.tail}

theorem mem_pending {head : U64} {forks : List U64} (hforks : forks.Pairwise (· < ·)) {fork : U64} :
    fork ∈ pending head forks ↔ fork ∈ forks ∧ head < fork := by
  induction forks with
  | nil => simp [pending]
  | cons first forks ih =>
    rw [pairwise_cons] at hforks
    by_cases hle : first ≤ head
    · have hskip : pending head (first :: forks) = pending head forks := by simp [pending, hle]
      rw [hskip, ih hforks.2, mem_cons]
      refine and_congr_left fun hlt => (or_iff_right ?_).symm
      rintro rfl
      exact absurd hle (not_le.2 hlt)
    · have hkeep : pending head (first :: forks) = first :: forks := by simp [pending, hle]
      rw [hkeep]
      refine (and_iff_left_of_imp fun hmem => ?_).symm
      rcases mem_cons.1 hmem with rfl | hmem
      · exact not_le.1 hle
      · exact lt_trans (not_le.1 hle) (hforks.1 fork hmem)

/-- The first pending fork is above a number exactly when all pending ones are. -/
theorem forall_head_pending {head bound : U64} {forks : List U64}
    (hforks : forks.Pairwise (· < ·)) :
    (∀ next ∈ (pending head forks).head?, bound < next) ↔
      ¬ ∃ fork ∈ forks, head < fork ∧ fork ≤ bound := by
  have hsorted : (pending head forks).Pairwise (· < ·) := hforks.sublist (dropWhile_sublist _)
  constructor
  · rintro hnext ⟨fork, hmem, hlt, hle⟩
    have hpending := (mem_pending hforks).2 ⟨hmem, hlt⟩
    cases hcons : pending head forks with
    | nil => simp [hcons] at hpending
    | cons next later =>
      rw [hcons] at hnext hsorted hpending
      have hfirst : next ≤ fork := by
        rcases mem_cons.1 hpending with rfl | hlater
        · exact le_rfl
        · exact ((pairwise_cons.1 hsorted).1 fork hlater).le
      exact absurd (hnext next rfl) (not_lt.2 (hfirst.trans hle))
  · intro hnone next hnext
    obtain ⟨hmem, hlt⟩ := (mem_pending hforks).1 (mem_of_mem_head? hnext)
    exact not_le.1 fun hle => hnone ⟨next, hmem, hlt, hle⟩

theorem pending_eq_nil_iff {head : U64} {forks : List U64} :
    pending head forks = [] ↔ ∀ fork ∈ forks, fork ≤ head := by
  simp [pending, dropWhile_eq_nil_iff]

theorem ChainConfig.nextAhead_self_iff :
    config.NextAhead genesisHeader position position ↔
      ¬ config.UnitClash position genesisHeader := by
  obtain ⟨hblocks, htimes⟩ := config.gatherForks_increasing genesisHeader
  have hblocks := (pairwise_cons.1 (isChain_iff_pairwise.1 hblocks)).2
  have htimes := (pairwise_cons.1 (isChain_iff_pairwise.1 htimes)).2
  simp only [NextAhead, pendingForks, UnitClash]
  generalize (config.gatherForks genesisHeader).1 = blocks at hblocks ⊢
  generalize (config.gatherForks genesisHeader).2 = times at htimes ⊢
  have hpassed := @pending_eq_nil_iff position.number blocks
  by_cases hnil : pending position.number blocks = []
  · -- a timestamp fork is next, if any
    have hall := hpassed.1 hnil
    have hno : ¬ ∃ fork ∈ blocks, position.number < fork ∧ fork ≤ position.timestamp := by
      rintro ⟨fork, hmem, hlt, -⟩
      exact absurd hlt (not_lt.2 (hall fork hmem))
    rw [if_pos hnil, forall_head_pending htimes, ChainPosition.head]
    by_cases hthreshold : timestampThreshold ≤ position.timestamp
    · rw [if_pos hthreshold]
      have hnone : ¬ ∃ fork ∈ times, position.timestamp < fork ∧ fork ≤ position.timestamp := by
        rintro ⟨fork, -, hlt, hle⟩
        exact absurd hlt (not_lt.2 hle)
      simp only [hnone, hno, not_lt.2 hthreshold, and_false, false_and, or_self, not_false_iff]
    · rw [if_neg hthreshold]
      simp only [hthreshold, false_and, false_or, not_le.1 hthreshold, true_and]
      rw [and_iff_right hall]
  · -- a fork by block number is next
    have hsome : ¬ ∀ fork ∈ blocks, fork ≤ position.number := fun hall => hnil (hpassed.2 hall)
    have hhead : (pending position.number blocks ++ times).head? =
        (pending position.number blocks).head? := by
      cases hcons : pending position.number blocks with
      | nil => exact absurd hcons hnil
      | cons next later => rfl
    rw [if_neg hnil, hhead, forall_head_pending hblocks, ChainPosition.head]
    simp only [hsome, false_and, and_false, or_false]
    by_cases hthreshold : timestampThreshold ≤ position.timestamp
    · rw [if_pos hthreshold]
      simp only [hthreshold, true_and]
    · rw [if_neg hthreshold]
      have hnone : ¬ ∃ fork ∈ blocks, position.number < fork ∧ fork ≤ position.number := by
        rintro ⟨fork, -, hlt, hle⟩
        exact absurd hlt (not_lt.2 hle)
      simp only [hthreshold, hnone, false_and]

/-! ### A fork that stands at the border of the two lists -/

/-- The loop skips the second of two equal neighbours. -/
theorem forkIdCombinationsFrom_repeat (fork : U64) (after : List U64) :
    ∀ (before : List U64) (lastActivation : U64) (hasher : Bytes),
      forkIdCombinationsFrom crc32 lastActivation (before ++ fork :: fork :: after) hasher =
        forkIdCombinationsFrom crc32 lastActivation (before ++ fork :: after) hasher := by
  intro before
  induction before with
  | nil =>
    intro lastActivation hasher
    by_cases hlast : fork = lastActivation
    · simp [forkIdCombinationsFrom, hlast]
    · simp [forkIdCombinationsFrom, hlast]
  | cons activation before ih =>
    intro lastActivation hasher
    simp only [cons_append, forkIdCombinationsFrom, ih]

/-- What the scan accepts, over the prefixes of the list of forks. -/
theorem listed_forkIdCombinationsFrom_iff (forks : List U64) :
    ∀ (lastActivation : U64) (hasher : Bytes), (lastActivation :: forks).IsChain (· ≠ ·) →
      (Listed localHash remote (forkIdCombinationsFrom crc32 lastActivation forks hasher) ↔
        ∃ before after, forks = before ++ after ∧
          remote.forkHash = checksum crc32 (hasher ++ forkBytes before) ∧
          (remote.forkNext = after.headD 0 ∨ ∃ earlier, earlier <+: before ∧ earlier ≠ before ∧
            checksum crc32 (hasher ++ forkBytes earlier) = localHash)) := by
  induction forks with
  | nil =>
    intro lastActivation hasher _
    rw [forkIdCombinationsFrom, listed_cons_iff]
    simp [Listed, forkBytes]
  | cons activation forks ih =>
    intro lastActivation hasher hchain
    have hbytes (before : List U64) : hasher ++ fixedBeBytes 8 activation ++ forkBytes before =
        hasher ++ forkBytes (activation :: before) := by
      rw [append_assoc]
      rfl
    rw [isChain_cons_cons] at hchain
    rw [forkIdCombinationsFrom, if_neg hchain.1.symm, listed_cons_iff, ih activation _ hchain.2]
    simp only [mem_forkIdCombinationsFrom_iff crc32 forks activation _ hchain.2, hbytes]
    constructor
    · rintro (⟨hhash, hnext⟩ | ⟨hlocal, later, ⟨before, after, rfl, rfl⟩, hhash⟩ |
        ⟨before, after, rfl, hhash, hnext⟩)
      · exact ⟨[], activation :: forks, rfl, by simpa [forkBytes] using hhash, .inl hnext⟩
      · exact ⟨activation :: before, after, rfl, hhash,
          .inr ⟨[], nil_prefix, by simp, by simpa [forkBytes] using hlocal⟩⟩
      · refine ⟨activation :: before, after, rfl, hhash, hnext.imp_right ?_⟩
        rintro ⟨earlier, hprefix, hne, hlocal⟩
        exact ⟨activation :: earlier, by simpa using hprefix, by simpa using hne, hlocal⟩
    · rintro ⟨before, after, heq, hhash, hnext⟩
      cases before with
      | nil =>
        rw [nil_append] at heq
        subst heq
        left
        refine ⟨by simpa [forkBytes] using hhash, hnext.resolve_right ?_⟩
        rintro ⟨earlier, hprefix, hne, -⟩
        exact hne (prefix_nil.1 hprefix)
      | cons first before =>
        obtain ⟨rfl, rfl⟩ := List.cons.inj heq
        right
        rcases hnext with hnext | ⟨earlier, hprefix, hne, hlocal⟩
        · exact .inr ⟨before, after, rfl, hhash, .inl hnext⟩
        · cases earlier with
          | nil => exact .inl ⟨by simpa [forkBytes] using hlocal, _, ⟨before, after, rfl, rfl⟩, hhash⟩
          | cons other earlier =>
            obtain ⟨rfl, htail⟩ := cons_prefix_cons.1 hprefix
            exact .inr ⟨before, after, rfl, hhash,
              .inr ⟨earlier, htail, by simpa using hne, hlocal⟩⟩

section Border

variable {crc32 keccak256 config genesisHeader} {fork : U64} {blocks times : List U64}
  (hblocks : (config.gatherForks genesisHeader).1 = blocks ++ [fork])
  (htimes : (config.gatherForks genesisHeader).2 = fork :: times)

include hblocks htimes

theorem ChainConfig.isChain_border : (0 :: (blocks ++ fork :: times)).IsChain (· < ·) := by
  obtain ⟨hblockChain, htimeChain⟩ := config.gatherForks_increasing genesisHeader
  rw [hblocks, ← cons_append, isChain_append] at hblockChain
  rw [htimes, isChain_cons_cons] at htimeChain
  rw [← cons_append, isChain_append]
  exact ⟨hblockChain.1, htimeChain.2, hblockChain.2.2⟩

theorem ChainConfig.known_border_iff
    (hfree : config.ChecksumsDistinct crc32 keccak256 genesisHeader) {position peer : ChainPosition}
    (hne : config.passedForks genesisHeader position ≠ config.passedForks genesisHeader peer) :
    config.Known crc32 keccak256 genesisHeader position peer ↔
      ∃ after, blocks ++ fork :: times = config.passedForks genesisHeader peer ++ after ∧
        ((config.pendingForks genesisHeader peer).headD 0 = after.headD 0 ∨
          config.passedForks genesisHeader position <+: config.passedForks genesisHeader peer) := by
  have hforks : config.forks genesisHeader = blocks ++ fork :: fork :: times := by
    rw [forks, hblocks, htimes, append_assoc]
    rfl
  have hchain := (isChain_border hblocks htimes).imp fun _ _ hlt => hlt.ne
  -- of the lists in question equal checksums mean equal lists
  have hsame {before : List U64} (hbefore : before <+: blocks ++ fork :: times)
      (position : ChainPosition) :
      config.forkChecksum crc32 keccak256 genesisHeader position =
        checksum crc32 ((genesisHeader.hash keccak256).bytes ++ forkBytes before) ↔
        before = config.passedForks genesisHeader position := by
    refine ⟨fun h => ?_, fun h => by rw [h]; rfl⟩
    refine (hfree (.inl (passedForks_isPrefix ..)) (.inr ?_) h).symm
    rw [hblocks, htimes, append_assoc]
    exact hbefore
  rw [Known, getAllForkIdCombinations, hforks, forkIdCombinationsFrom_repeat,
    listed_forkIdCombinationsFrom_iff _ _ _ _ _ _ hchain, forkIdAt_eq]
  constructor
  · rintro ⟨before, after, heq, hhash, hnext⟩
    obtain rfl := (hsame ⟨after, heq.symm⟩ peer).1 hhash
    refine ⟨after, heq, hnext.imp_right ?_⟩
    rintro ⟨earlier, hle, -, hlocal⟩
    rwa [← (hsame (hle.trans ⟨after, heq.symm⟩) position).1 hlocal.symm]
  · rintro ⟨after, heq, hnext⟩
    refine ⟨_, after, heq, rfl, hnext.imp_right fun hprefix => ?_⟩
    exact ⟨_, hprefix, hne, rfl⟩

theorem ChainConfig.passedForks_border (position : ChainPosition) :
    (position.number < fork ∧ ∃ next later, blocks ++ [fork] =
        config.passedForks genesisHeader position ++ next :: later ∧
        (config.pendingForks genesisHeader position).headD 0 = next) ∨
    (fork ≤ position.number ∧ position.timestamp < fork ∧
      config.passedForks genesisHeader position = blocks ++ [fork] ∧
      (config.pendingForks genesisHeader position).headD 0 = fork) ∨
    (fork ≤ position.number ∧ fork ≤ position.timestamp ∧
      ∃ later, config.passedForks genesisHeader position = blocks ++ [fork] ++ fork :: later) := by
  have hchain := (config.gatherForks_increasing genesisHeader).1
  rw [hblocks, isChain_iff_pairwise, pairwise_cons, pairwise_append] at hchain
  have hall : pending position.number (blocks ++ [fork]) = [] ↔ fork ≤ position.number := by
    rw [pending_eq_nil_iff]
    refine ⟨fun h => h fork (by simp), fun h other hother => ?_⟩
    rcases mem_append.1 hother with hother | hother
    · exact (hchain.2.2.2 other hother fork (by simp)).le.trans h
    · rwa [mem_singleton.1 hother]
  simp only [passedForks, pendingForks, hblocks, htimes, hall]
  rcases lt_or_ge position.number fork with hlt | hle
  · left
    refine ⟨hlt, ?_⟩
    rw [if_neg (not_le.2 hlt), if_neg (not_le.2 hlt)]
    cases hpending : pending position.number (blocks ++ [fork]) with
    | nil => exact absurd (hall.1 hpending) (not_le.2 hlt)
    | cons next later =>
      refine ⟨next, later, ?_, rfl⟩
      rw [← hpending, passed_append_pending]
  right
  rw [if_pos hle, if_pos hle]
  rcases lt_or_ge position.timestamp fork with hlt | htime
  · left
    have hpassed : passed position.timestamp (fork :: times) = [] := by simp [passed, hlt]
    have hpending : pending position.timestamp (fork :: times) = fork :: times := by
      simp [pending, hlt]
    exact ⟨hle, hlt, by rw [hpassed, append_nil], by rw [hpending]; rfl⟩
  · right
    exact ⟨hle, htime, passed position.timestamp times, by simp [passed, htime]⟩

theorem ChainConfig.known_iff_of_border
    (hfree : config.ChecksumsDistinct crc32 keccak256 genesisHeader) {position peer : ChainPosition}
    (hne : config.passedForks genesisHeader position ≠ config.passedForks genesisHeader peer) :
    config.Known crc32 keccak256 genesisHeader position peer ↔
      ¬ (fork ≤ peer.number ∧
        (fork ≤ peer.timestamp ∨ (fork ≤ position.number ∧ fork ≤ position.timestamp))) := by
  have hchain := isChain_border hblocks htimes
  rw [isChain_iff_pairwise, pairwise_cons, pairwise_append, pairwise_cons] at hchain
  have hpos : 0 < fork := hchain.1 fork (by simp)
  have hlater : ∀ other ∈ times, fork < other := hchain.2.2.1.1
  have hsplit : blocks ++ fork :: times = blocks ++ [fork] ++ times := by simp
  rw [known_border_iff hblocks htimes hfree hne]
  rcases passedForks_border hblocks htimes peer with ⟨hlt, next, later, heq, hnext⟩ |
    ⟨hle, hlt, hpeer, hnext⟩ | ⟨hle, htime, later, hpeer⟩
  · refine iff_of_true ⟨next :: later ++ times, ?_, .inl hnext⟩ fun h => absurd h.1 (not_le.2 hlt)
    rw [hsplit, heq, append_assoc]
  · -- the peer stands between the two forks: the next fork in the list is another one
    rw [hpeer, hnext, hsplit]
    have hafter (after : List U64) : blocks ++ [fork] ++ times = blocks ++ [fork] ++ after ↔
        times = after := append_right_inj _
    have hhead : fork ≠ times.headD 0 := by
      cases times with
      | nil => exact hpos.ne'
      | cons first times => exact (hlater first (by simp)).ne
    simp only [hafter, exists_eq_left', hhead, false_or, hle, not_le.2 hlt, true_and]
    rcases passedForks_border hblocks htimes position with ⟨hlt', next, rest, heq, -⟩ |
      ⟨-, hlt', hposition, -⟩ | ⟨hle', htime', rest, hposition⟩
    · exact iff_of_true ⟨_, heq.symm⟩ fun h => absurd h.1 (not_le.2 hlt')
    · exact absurd (hposition.trans hpeer.symm) hne
    · refine iff_of_false (fun hprefix => ?_) fun h => h ⟨hle', htime'⟩
      have := hprefix.length_le
      rw [hposition] at this
      simp at this
  · -- the peer is past both: its list is no prefix of the known one
    refine iff_of_false ?_ fun h => h ⟨hle, .inl htime⟩
    rintro ⟨after, heq, -⟩
    rw [hpeer, hsplit, append_assoc (blocks ++ [fork]), append_right_inj] at heq
    exact absurd (hlater fork (by rw [heq]; simp)) (lt_irrefl _)

end Border

/-- When a node accepts a peer of its own chain. Where both have passed the same forks, no pending
fork may lie between the two units of the node's head; where they have not, the two lists must not
share a fork at their border that the peer, or both of them, have come past. -/
theorem ChainConfig.accepts_iff (hfree : config.ChecksumsDistinct crc32 keccak256 genesisHeader)
    (position peer : ChainPosition) :
    config.accepts crc32 keccak256 genesisHeader position peer = true ↔
      (config.passedForks genesisHeader position = config.passedForks genesisHeader peer →
        ¬ config.UnitClash position genesisHeader) ∧
      (config.passedForks genesisHeader position ≠ config.passedForks genesisHeader peer →
        ¬ config.BorderClash genesisHeader position peer) := by
  rw [accepts_eq_true]
  by_cases hsame : config.passedForks genesisHeader position = config.passedForks genesisHeader peer
  · have hhash : config.forkChecksum crc32 keccak256 genesisHeader peer =
        config.forkChecksum crc32 keccak256 genesisHeader position := by
      rw [forkChecksum, forkChecksum, hsame]
    have hpending : config.pendingForks genesisHeader peer =
        config.pendingForks genesisHeader position := by
      have hpeer := passedForks_append_pendingForks peer config genesisHeader
      rw [← passedForks_append_pendingForks position config genesisHeader, hsame] at hpeer
      exact append_cancel_left hpeer
    have hnext := config.nextAhead_self_iff position genesisHeader
    rw [NextAhead, ← hpending] at hnext
    simp only [hhash, hsame, NextAhead, hnext, true_imp_iff, ne_eq, not_true_eq_false,
      false_imp_iff]
  · have hhash : config.forkChecksum crc32 keccak256 genesisHeader peer ≠
        config.forkChecksum crc32 keccak256 genesisHeader position := fun h =>
      hsame (hfree (.inl (passedForks_isPrefix ..)) (.inl (passedForks_isPrefix ..)) h).symm
    simp only [hhash, hsame, false_imp_iff, true_and, ne_eq, not_false_iff, true_imp_iff]
    by_cases hdistinct : config.BoundaryDistinct genesisHeader
    · refine iff_of_true (hdistinct.known ..) ?_
      rintro ⟨fork, hlast, hfirst, -⟩
      exact hdistinct fork hlast fork hfirst rfl
    · simp only [BoundaryDistinct, not_forall, ne_eq, not_not] at hdistinct
      obtain ⟨fork, hlast, _, hfirst, rfl⟩ := hdistinct
      obtain ⟨blocks, hblocks⟩ := getLast?_eq_some_iff.1 hlast
      obtain ⟨times, htimes⟩ := head?_eq_some_iff.1 hfirst
      rw [known_iff_of_border hblocks htimes hfree hsame, BorderClash, hlast, hfirst]
      simp

def londonConfig : ChainConfig := { londonBlock := some 1000 }

def genesisHeaderAt (timestamp : U64) : BlockHeader where
  ommersHash := defaultOmmersHash
  gasLimit := 30000000
  timestamp

/-- A chain of 2020 with one fork by block number and two by timestamp. -/
def mergedConfig : ChainConfig where
  londonBlock := some 5
  shanghaiTime := some 1700000000
  cancunTime := some 1750000000

theorem accepts_mergedConfig :
    let crc32 : Bytes → UInt32 := fun bytes => bytes.foldl (fun acc b => 31 * acc + b.toUInt32) 0
    let keccak256 : Bytes → H256 := fun _ => .repeatByte 7
    mergedConfig.ChecksumsDistinct crc32 keccak256 (genesisHeaderAt 1600000000) ∧
    mergedConfig.accepts crc32 keccak256 (genesisHeaderAt 1600000000)
      { number := 10, timestamp := 1710000000 } { number := 20, timestamp := 1760000000 } ∧
    mergedConfig.accepts crc32 keccak256 (genesisHeaderAt 1600000000)
      { number := 10, timestamp := 1710000000 } { number := 11, timestamp := 1710000012 } := by
  intro crc32 keccak256
  have hgather : mergedConfig.gatherForks (genesisHeaderAt 1600000000) =
      ([5], [1700000000, 1750000000]) := by decide +kernel
  have hfree : mergedConfig.ChecksumsDistinct crc32 keccak256 (genesisHeaderAt 1600000000) := by
    let lists : List (List U64) :=
      [[], [5], [5, 1700000000], [5, 1700000000, 1750000000], [5, 1750000000]]
    have hnodup : (lists.map fun forks => checksum crc32
        ((genesisHeaderAt 1600000000 |>.hash keccak256).bytes ++ forkBytes forks)).Nodup := by
      decide +kernel
    have hmem : ∀ {forks}, forks <+: [5, 1700000000, 1750000000] ∨ forks <+: [5, 1750000000] →
        forks ∈ lists := by
      simp only [← mem_inits]
      rintro forks (h | h)
      · fin_cases h <;> simp [lists]
      · fin_cases h <;> simp [lists]
    intro forks hforks forks' hforks' heq
    rw [ChainConfig.forks, hgather] at hforks hforks'
    exact inj_on_of_nodup_map hnodup (hmem hforks) (hmem hforks') heq
  refine ⟨hfree, (ChainConfig.accepts_iff _ _ _ _ hfree _ _).2 ⟨?_, ?_⟩,
    (ChainConfig.accepts_iff _ _ _ _ hfree _ _).2 ⟨?_, ?_⟩⟩
  · exact fun hsame => absurd hsame (by decide +kernel)
  · rintro - ⟨fork, hlast, hfirst, -⟩
    rw [hgather] at hlast hfirst
    cases hlast
    cases hfirst
  · rintro - (⟨-, fork, hmem, hlt, -⟩ | ⟨hlt, -⟩)
    · rw [hgather] at hmem
      rw [mem_singleton.1 hmem] at hlt
      exact absurd hlt (by decide)
    · exact absurd hlt (by decide)
  · exact fun hdiffer => absurd (by decide +kernel) hdiffer

/-- Two nodes at the genesis block of a chain started in 2023 reject each other: the pending fork at
block 1000 is compared with the timestamp. -/
theorem accepts_londonConfig :
    ¬ ∃ (crc32 : Bytes → UInt32) (keccak256 : Bytes → H256),
      londonConfig.accepts crc32 keccak256 (genesisHeaderAt 1700000000)
        { number := 0, timestamp := 1700000000 } { number := 0, timestamp := 1700000000 } := by
  rintro ⟨crc32, keccak256, h⟩
  rw [ChainConfig.accepts_eq_true] at h
  have hahead : (1700000000 : U64) < 1000 := h.1 rfl 1000 (by decide)
  exact absurd hahead (by decide)

end Ethrex
