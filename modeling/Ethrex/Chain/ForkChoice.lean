import Ethrex.Chain.Store
import Ethrex.Mpt.Error

/-!
# Fork choice

`apply_fork_choice`: the checks on head, safe and finalized block, the search for the branch that
joins the head to the canonical chain, and the update of the index.
-/

namespace Ethrex.Chain

open Lineage

inductive ForkChoiceElement where
  | head
  | safe
  | finalized
  deriving DecidableEq, Repr

/-- The variants of `InvalidForkChoice` that the fork choice functions raise. -/
inductive InvalidForkChoice where
  | storeError (e : StoreError)
  | syncing
  | invalidHeadHash
  | newHeadAlreadyCanonical
  | elementNotFound (element : ForkChoiceElement)
  | unordered
  | disconnected (first second : ForkChoiceElement)
  | invalidAncestor (lastValid : H256)
  | unlinkedHead
  | tooDeepReorg (reorgDepth limit : Nat)
  | stateNotReachable
  deriving DecidableEq, Repr

def zeroHash : H256 := .repeatByte 0

def computeReorgCeiling (s : Store) (latest : Nat) (maxReorgDepth : Option Nat) : Nat :=
  let journalReach :=
    match s.stateHistory.head? with
    | some lowest => latest - (lowest - 1)
    | none => 0
  let physical := min latest (max s.commitThreshold journalReach)
  match maxReorgDepth with
  | some depth => min physical depth
  | none => physical

def checkOrder (first second : Option Header) (missing : ForkChoiceElement) :
    Except InvalidForkChoice Unit :=
  match first, second with
  | none, some _ => .error (.elementNotFound missing)
  | some b₁, some b₂ => if b₂.number < b₁.number then .error .unordered else .ok ()
  | _, none => .error .syncing

def checkOrderIf (given : Bool) (first second : Option Header) (missing : ForkChoiceElement) :
    Except InvalidForkChoice Unit :=
  if given then checkOrder first second missing else .ok ()

/-- The loop of `find_link_with_canonical_chain` at a block number. -/
def walkToCanonical (s : Store) (genesisNumber : Nat) :
    Nat → Header → List (Nat × H256) → Option (List (Nat × H256))
  | 0, _, _ => none
  | number + 1, header, branch =>
    if genesisNumber < number + 1 then
      match s.getBlockHeaderByHash header.parentHash with
      | none => none
      | some parent =>
        if s.isCanonical number header.parentHash then some branch
        else walkToCanonical s genesisNumber number parent (branch ++ [(number, header.parentHash)])
    else none

def findLinkWithCanonicalChain (s : Store) (header : Header) :
    Except StoreError (Option (List (Nat × H256))) :=
  if s.isCanonical header.number header.hash then .ok (some [])
  else
    match s.earliestBlockNumber with
    | none => .error .missingEarliestBlockNumber
    | some genesisNumber => .ok (walkToCanonical s genesisNumber header.number header [])

/-- Whether the head is a canonical block at or below the finalized one whose state is there. -/
def headAlreadyFinal (s : Store) (head : Header) (headIsCanonical : Bool) : Bool :=
  match s.finalizedBlockNumber with
  | some storedFinalized =>
    head.number < s.latestBlockHeader.number ∧ head.number ≤ storedFinalized ∧ headIsCanonical ∧
      s.hasStateRoot head.stateRoot
  | none => false

/-- The test that a safe or finalized block is on the new canonical chain. -/
def onNewChain (s : Store) (head : Header) (headHash : H256) (linkNumber : Nat)
    (branch : List (Nat × H256)) (element : Header) (hash : H256) : Bool :=
  (s.isCanonical element.number hash ∧ element.number ≤ linkNumber) ∨
    (element.number = head.number ∧ hash = headHash) ∨ (element.number, hash) ∈ branch

/-- What the checks of a fork choice hand to the update. -/
structure ForkChoice where
  head : Header
  branch : List (Nat × H256)
  safe : Option Header
  finalized : Option Header

def require (condition : Bool) (e : InvalidForkChoice) : Except InvalidForkChoice Unit :=
  if condition then .ok () else .error e

def lift {α : Type} : Except StoreError α → Except InvalidForkChoice α
  | .ok a => .ok a
  | .error e => .error (.storeError e)

/-- `apply_fork_choice` up to its update of the store. -/
def checkForkChoice (s : Store) (headHash safeHash finalizedHash : H256)
    (maxReorgDepth : Option Nat) : Except InvalidForkChoice ForkChoice := do
  require (headHash ≠ zeroHash) .invalidHeadHash
  let finalizedRes := if finalizedHash = zeroHash then none else s.getBlockHeaderByHash finalizedHash
  let safeRes := if safeHash = zeroHash then none else s.getBlockHeaderByHash safeHash
  let headRes := s.getBlockHeaderByHash headHash
  checkOrderIf (safeHash ≠ zeroHash) safeRes headRes .safe
  checkOrderIf (finalizedHash ≠ zeroHash ∧ safeHash ≠ zeroHash) finalizedRes safeRes .finalized
  let head ← headRes.elim (.error .syncing) .ok
  let latest := s.latestBlockHeader.number
  let headIsCanonical := s.isCanonical head.number headHash
  require (!headAlreadyFinal s head headIsCanonical) .newHeadAlreadyCanonical
  let branch ← (← lift (findLinkWithCanonicalChain s head)).elim (.error .unlinkedHead) .ok
  let link := branch.getLastD (head.number, headHash)
  let canonicalLinkHeight := if headIsCanonical then head.number else link.1 - 1
  let reorgDepth := latest - canonicalLinkHeight
  let ceiling := computeReorgCeiling s latest maxReorgDepth
  require (reorgDepth ≤ ceiling) (.tooDeepReorg reorgDepth ceiling)
  require (finalizedRes.all fun b => onNewChain s head headHash link.1 branch b finalizedHash)
    (.disconnected .head .finalized)
  require (safeRes.all fun b => onNewChain s head headHash link.1 branch b safeHash)
    (.disconnected .head .safe)
  let linkHeader ← (s.getBlockHeaderByHash link.2).elim (.error .unlinkedHead) .ok
  require (s.hasStateRoot linkHeader.stateRoot) .stateNotReachable
  return { head, branch, safe := safeRes, finalized := finalizedRes }

/-- `apply_fork_choice`, with the store that it leaves. -/
def applyForkChoice (s : Store) (headHash safeHash finalizedHash : H256)
    (maxReorgDepth : Option Nat) : Except InvalidForkChoice Header × Store :=
  match checkForkChoice s headHash safeHash finalizedHash maxReorgDepth with
  | .error e => (.error e, s)
  | .ok choice =>
    let (outcome, next) := s.forkchoiceUpdate choice.branch choice.head.number headHash
      (choice.safe.map Header.number) (choice.finalized.map Header.number)
    match outcome with
    | .error e => (.error (.storeError e), next)
    | .ok () => (.ok choice.head, next)

section Lemmas

variable {s : Store}
variable {header : Header} {branch : List (Nat × H256)} {headHash safeHash finalizedHash : H256}
  {e : InvalidForkChoice} {u : Unit} {depth : Option Nat}

/-- The branch is the path from the parent of the header down to a canonical block. -/
theorem walkToCanonical_eq_some (canonical : s.Canonical) (numbered : s.Numbered)
    {genesis number : Nat} {acc : List (Nat × H256)} (at_ : header.number = number)
    (stored : ∃ h, s.headers h = some header)
    (walked : walkToCanonical s genesis number header acc = some branch) :
    ∃ path link, branch = acc ++ path ∧ s.forest.Path header.parentHash path link ∧
      (∃ n, s.canonicalBlockHashes n = some link) ∧
      ∀ block ∈ path, s.canonicalBlockHashes block.1 ≠ some block.2 := by
  induction number generalizing header acc with
  | zero => simp [walkToCanonical] at walked
  | succ number ih =>
    obtain ⟨h, found⟩ := stored
    rw [walkToCanonical] at walked
    split at walked
    · rw [canonical.getBlockHeaderByHash] at walked
      split at walked
      · cases walked
      next parent parentFound =>
      split at walked
      · next linked =>
        cases walked
        exact ⟨[], header.parentHash, by simp, .nil _,
          ⟨number, canonical.isCanonical.1 linked⟩, by simp⟩
      · next unlinked =>
        have height : header.number = parent.number + 1 := numbered.graded found parentFound
        have parentNumber : parent.number = number := by omega
        obtain ⟨path, link, rfl, down, anchored, fresh⟩ :=
          ih parentNumber ⟨_, parentFound⟩ walked
        refine ⟨(number, header.parentHash) :: path, link, by simp, ?_, anchored, ?_⟩
        · rw [← parentNumber]
          exact .cons parentFound down
        intro block mem
        rcases List.mem_cons.1 mem with rfl | later
        · exact fun index => unlinked (canonical.isCanonical.2 index)
        · exact fresh block later
    · cases walked

/-- The branch that joins a stored header to the canonical chain. -/
structure Joins (s : Store) (head : Header) (headHash : H256) (branch : List (Nat × H256))
    (link : H256) : Prop where
  path : s.forest.Path headHash
    (if s.canonicalBlockHashes head.number = some headHash then []
      else (head.number, headHash) :: branch) link
  anchored : ∃ n, s.canonicalBlockHashes n = some link
  fresh : ∀ block ∈ branch, s.canonicalBlockHashes block.1 ≠ some block.2
  empty : s.canonicalBlockHashes head.number = some headHash → branch = []

theorem joins_of_findLink (canonical : s.Canonical) (numbered : s.Numbered) {head : Header}
    (found : s.headers headHash = some head)
    (linked : findLinkWithCanonicalChain s head = .ok (some branch)) :
    ∃ link, Joins s head headHash branch link := by
  have own := numbered.hash found
  unfold findLinkWithCanonicalChain at linked
  split at linked
  · next index =>
    cases linked
    have index := canonical.isCanonical.1 index
    rw [own] at index
    exact ⟨headHash, by rw [if_pos index]; exact .nil _, ⟨_, index⟩, by simp, fun _ => rfl⟩
  · next off =>
    rw [canonical.isCanonical, own] at off
    split at linked
    · cases linked
    next genesis _ =>
    obtain ⟨path, link, rfl, down, anchored, fresh⟩ :=
      walkToCanonical_eq_some canonical numbered rfl ⟨_, found⟩ (Except.ok.inj linked)
    refine ⟨link, ?_, anchored, fresh, fun index => absurd index off⟩
    rw [if_neg off]
    exact .cons found down

/-- What the checks of an accepted fork choice have established. -/
structure Checked (s : Store) (headHash safeHash finalizedHash : H256) (choice : ForkChoice) :
    Prop where
  head : s.getBlockHeaderByHash headHash = some choice.head
  linked : findLinkWithCanonicalChain s choice.head = .ok (some choice.branch)
  safe : choice.safe = if safeHash = zeroHash then none else s.getBlockHeaderByHash safeHash
  finalized : choice.finalized =
    if finalizedHash = zeroHash then none else s.getBlockHeaderByHash finalizedHash
  ordered : ∀ {f b}, safeHash ≠ zeroHash → choice.finalized = some f → choice.safe = some b →
    f.number ≤ b.number
  onChain : ∀ {hash element}, hash = safeHash ∧ choice.safe = some element ∨
      hash = finalizedHash ∧ choice.finalized = some element →
    onNewChain s choice.head headHash (choice.branch.getLastD (choice.head.number, headHash)).1
      choice.branch element hash

theorem require_eq_ok {condition : Bool} : require condition e = .ok u ↔ condition = true := by
  unfold require
  split <;> simp_all

theorem elim_eq_ok {α : Type} {value : Option α} {a : α} :
    value.elim (.error e) .ok = Except.ok a ↔ value = some a := by
  cases value <;> simp

theorem lift_eq_ok {α : Type} {value : Except StoreError α} {a : α} :
    lift value = .ok a ↔ value = .ok a := by
  cases value <;> simp [lift]

theorem checkOrder_eq_ok {first second : Option Header} {missing : ForkChoiceElement}
    (ordered : checkOrder first second missing = .ok u) {b₁ b₂ : Header} (h₁ : first = some b₁)
    (h₂ : second = some b₂) : b₁.number ≤ b₂.number := by
  subst h₁ h₂
  simp only [checkOrder] at ordered
  split at ordered
  · cases ordered
  · omega

theorem checked_of_checkForkChoice {choice : ForkChoice}
    (accepted : checkForkChoice s headHash safeHash finalizedHash depth = .ok choice) :
    Checked s headHash safeHash finalizedHash choice := by
  unfold checkForkChoice at accepted
  obtain ⟨_, -, accepted⟩ := bind_eq_ok.1 accepted
  obtain ⟨_, -, accepted⟩ := bind_eq_ok.1 accepted
  obtain ⟨_, order, accepted⟩ := bind_eq_ok.1 accepted
  obtain ⟨head, headFound, accepted⟩ := bind_eq_ok.1 accepted
  obtain ⟨_, -, accepted⟩ := bind_eq_ok.1 accepted
  obtain ⟨found, lifted, accepted⟩ := bind_eq_ok.1 accepted
  obtain ⟨branch, branchFound, accepted⟩ := bind_eq_ok.1 accepted
  obtain ⟨_, -, accepted⟩ := bind_eq_ok.1 accepted
  obtain ⟨_, finalizedOn, accepted⟩ := bind_eq_ok.1 accepted
  obtain ⟨_, safeOn, accepted⟩ := bind_eq_ok.1 accepted
  obtain ⟨_, -, accepted⟩ := bind_eq_ok.1 accepted
  obtain ⟨_, -, accepted⟩ := bind_eq_ok.1 accepted
  cases accepted
  rw [elim_eq_ok] at headFound branchFound
  rw [lift_eq_ok, branchFound] at lifted
  rw [require_eq_ok, Option.all_eq_true] at finalizedOn safeOn
  refine ⟨headFound, lifted, rfl, rfl, ?_, ?_⟩
  · intro f b given finalized safe
    have known : finalizedHash ≠ zeroHash := by
      rintro rfl
      simp at finalized
    rw [checkOrderIf, if_pos (decide_eq_true ⟨known, given⟩)] at order
    exact checkOrder_eq_ok order finalized safe
  · rintro hash element (⟨rfl, safe⟩ | ⟨rfl, finalized⟩)
    · exact safeOn _ safe
    · exact finalizedOn _ finalized

variable {next : Store}

theorem applyForkChoice_ok
    (accepted : applyForkChoice s headHash safeHash finalizedHash depth = (.ok header, next)) :
    ∃ choice, Checked s headHash safeHash finalizedHash choice ∧ choice.head = header ∧
      s.forkchoiceUpdate choice.branch header.number headHash (choice.safe.map Header.number)
        (choice.finalized.map Header.number) = (.ok (), next) := by
  unfold applyForkChoice at accepted
  split at accepted
  · cases accepted
  next choice checked =>
  simp only at accepted
  split at accepted
  · cases accepted
  · next outcome =>
    cases accepted
    exact ⟨choice, checked_of_checkForkChoice checked, rfl, Prod.ext outcome rfl⟩

theorem applyForkChoice_error
    (rejected : applyForkChoice s headHash safeHash finalizedHash depth = (.error e, next)) :
    next = s := by
  unfold applyForkChoice at rejected
  split at rejected
  · exact (congrArg Prod.snd rejected).symm
  simp only at rejected
  split at rejected
  · next outcome =>
    exact (congrArg Prod.snd rejected).symm.trans
      (Store.forkchoiceUpdate_error (Prod.ext outcome rfl))
  · cases rejected

end Lemmas

end Ethrex.Chain
