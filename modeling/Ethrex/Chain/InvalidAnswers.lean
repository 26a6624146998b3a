import Ethrex.Chain.Verdict

/-!
# What an INVALID answer says

Every record and INVALID answer names the last sound ancestor of a rejected block, as long as no
rejected block is stored, nothing but a failing block makes execution give up, a fork choice meets a
head that reaches the canonical chain, and a sync cycle does not start a batch with a failing block.
-/

namespace Ethrex.Chain

open Lineage Lineage.Forest List

def Request.Truthful (preimage : H256 → Header) (fails : H256 → Prop) : Request → Prop
  | .newPayload env block => env.Truthful preimage fails ∧ preimage block.hash = block
  | .forkchoiceUpdated env _ _ _ => env.Truthful preimage fails
  | .fullSync env _ _ => env.Truthful preimage fails ∧ env.Honest preimage
  | .states _ => True

/-- The branch of a head reaches the canonical chain, and the safe and the finalized block are not
above it. -/
structure Store.Reaches (s : Store) (headHash safeHash finalizedHash : H256) : Prop where
  linked : ∀ {head}, s.headers headHash = some head →
    ∃ branch, findLinkWithCanonicalChain s head = .ok (some branch)
  safe : ∀ {head safe}, s.headers headHash = some head → safeHash ≠ zeroHash →
    s.headers safeHash = some safe → safe.number ≤ head.number
  finalized : ∀ {head safe finalized}, s.headers headHash = some head → safeHash ≠ zeroHash →
    s.headers safeHash = some safe → finalizedHash ≠ zeroHash →
    s.headers finalizedHash = some finalized → finalized.number ≤ safe.number

/-- The condition on a request, the store and the faults that it meets. -/
def Request.Clean (fails : H256 → Prop) (n : Node) : Request → Prop
  -- Execution gives up on a block only if the block fails.
  | .newPayload env block => ∀ parent, n.store.headers block.parentHash = some parent →
      env.execute block parent = .error .evmError → fails block.hash
  | .forkchoiceUpdated env headHash safeHash finalizedHash =>
    env.storeFault = false ∧ n.store.Reaches headHash safeHash finalizedHash
  | .fullSync env _ _ => env.Shields fails n
  | .states _ => True

section Payload

variable {preimage : H256 → Header} {fails : H256 → Prop} {n : Node} {block : Header}
  {env : EngineEnv}

end Payload

section ForkChoice

variable {preimage : H256 → Header} {fails : H256 → Prop} {ex : Execution} {n : Node}
  {env : EngineEnv} {headHash safeHash finalizedHash : H256} {e : InvalidForkChoice}

variable (genuine : n.Genuine preimage)

include genuine

variable (sound : n.Sound preimage fails)

include sound

omit genuine sound

variable {l : H256}

end ForkChoice

def Node.trace (n : Node) : List Request → List (Node × Request)
  | [] => []
  | request :: requests => (n, request) :: Node.trace (request.handle n).2 requests

variable {preimage : H256 → Header} {fails : H256 → Prop}

theorem Request.Truthful.genuine {request : Request} (truthful : request.Truthful preimage fails) :
    request.Genuine preimage := by
  cases request with
  | newPayload => exact truthful.2
  | forkchoiceUpdated => trivial
  | fullSync => exact fun answer x mem => truthful.2.named answer mem
  | states => trivial

section Faults

variable {block : Header}

end Faults

end Ethrex.Chain
