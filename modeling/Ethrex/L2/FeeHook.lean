import Ethrex.Types
import Ethrex.Levm.Checked

/-!
# The fee hook of the L2

`L2Hook` for transactions that are not privileged. The execution in between is a parameter, and
calls to the token are exact transfers. Checks that only reject and read no fee are left out; there
are no blob transactions. Unchecked `u64` additions wrap around.
-/

namespace Ethrex.L2

open Levm

inductive Fork where
  | frontier | frontierThawing | homestead | daoFork | tangerine | spuriousDragon | byzantium
  | constantinople | petersburg | istanbul | muirGlacier | berlin | london | arrowGlacier
  | grayGlacier | paris | shanghai | cancun | prague | osaka | bpo1 | bpo2 | bpo3 | bpo4 | bpo5
  | amsterdam | hegota | lStar
  deriving DecidableEq, Repr

def Fork.activeAt (fork current : Fork) : Bool := fork.ctorIdx ≤ current.ctorIdx

structure OperatorFeeConfig where
  operatorFeeVault : Address
  operatorFeePerGas : U64

structure L1FeeConfig where
  l1FeeVault : Address
  l1FeePerBlobGas : U64

structure FeeConfig where
  baseFeeVault : Option Address
  operatorFeeConfig : Option OperatorFeeConfig
  l1FeeConfig : Option L1FeeConfig

inductive TxFees where
  /-- Legacy and access-list transactions. -/
  | fixed (gasPrice : U256)
  | dynamic (maxPriorityFeePerGas maxFeePerGas : U64)

/-- What the hook reads of a transaction. -/
structure Transaction where
  fees : TxFees
  gasLimit : U64
  /-- `to`; none for a creation. -/
  recipient : Option Address
  value : U256
  feeToken : Option Address
  /-- Its encoded length. -/
  length : U64
  /-- `get_min_gas_used`: the least gas that its data costs from Prague on. -/
  minGasUsed : U64
  /-- The gas that is consumed before the L1 fee is reserved. -/
  intrinsicGas : U64

/-- `Environment`: the fields that the hook reads. -/
structure Environment where
  fork : Fork
  origin : Address
  coinbase : Address
  gasLimit : U64
  gasPrice : U256
  baseFeePerGas : U256
  txMaxPriorityFeePerGas : Option U256
  txMaxFeePerGas : Option U256
  feeToken : Option Address

/-- The errors of the preparation and of the settlement. -/
inductive HookError where
  | insufficientMaxFeePerGas
  | gasLimitPriceProductOverflow
  | insufficientAccountFunds
  | priorityGreaterThanMaxFeePerGas
  | intrinsicGasTooLow
  | l1GasReservationTooLow
  | underflow
  | overflow
  | divisionByZero
  /-- The ratio does not fit, or was not cached. -/
  | feeTokenRatio
  deriving DecidableEq, Repr

def U256.ofU64 (n : U64) : U256 := Fin.ofNat _ n.val

theorem U256.val_ofU64 (n : U64) : (U256.ofU64 n).val = n.val := by
  have hlt := n.isLt
  exact Nat.mod_eq_of_lt (by omega)

/-- `calculate_gas_price_for_tx` on an L2. -/
def calculateGasPriceForTx (fees : TxFees) (feePerGas : U64) (config : FeeConfig) :
    Except HookError U256 :=
  match fees with
  | .fixed gasPrice => .ok gasPrice
  | .dynamic maxPriorityFee maxFeePerGas =>
    let feePerGas := (config.operatorFeeConfig.elim feePerGas fun operator =>
      feePerGas + operator.operatorFeePerGas)
    if feePerGas > maxFeePerGas then .error .insufficientMaxFeePerGas
    else .ok (U256.ofU64 (min (maxPriorityFee + feePerGas) maxFeePerGas))

def setupEnv (fork : Fork) (coinbase origin : Address) (baseFeePerGas : U64) (config : FeeConfig)
    (tx : Transaction) : Except HookError Environment := do
  let gasPrice ← calculateGasPriceForTx tx.fees baseFeePerGas config
  return {
    fork, origin, coinbase, gasPrice
    gasLimit := tx.gasLimit
    baseFeePerGas := U256.ofU64 baseFeePerGas
    txMaxPriorityFeePerGas := match tx.fees with
      | .fixed _ => none
      | .dynamic maxPriorityFee _ => some (U256.ofU64 maxPriorityFee)
    txMaxFeePerGas := match tx.fees with
      | .fixed _ => none
      | .dynamic _ maxFeePerGas => some (U256.ofU64 maxFeePerGas)
    feeToken := tx.feeToken }

/-! ### Checked arithmetic and balances -/

def saturatingMulU64 (a b : Nat) : Nat := min (a * b) (2 ^ 64 - 1)

def saturatingMulU256 (a b : Nat) : Nat := min (a * b) (2 ^ 256 - 1)

abbrev Balances := Address → U256

def Balances.increase (balances : Balances) (address : Address) (amount : Nat) :
    Except HookError Balances :=
  if h : (balances address).val + amount < 2 ^ 256 then
    .ok (Function.update balances address ⟨(balances address).val + amount, h⟩)
  else .error .overflow

def Balances.decrease (balances : Balances) (address : Address) (amount : Nat) :
    Except HookError Balances :=
  if amount ≤ (balances address).val then
    .ok (Function.update balances address
      ⟨(balances address).val - amount, by have := (balances address).isLt; omega⟩)
  else .error .underflow

def gasPerBlob : Nat := 2 ^ 17

def safeBytesPerBlob : Nat := 32 * 4096 * 31 / 32

def calculateL1Fee (config : L1FeeConfig) (transactionSize : Nat) : Except HookError Nat :=
  if config.l1FeePerBlobGas.val * gasPerBlob < 2 ^ 64 then
    okOr .overflow
      (checkedMulU256 (config.l1FeePerBlobGas.val * gasPerBlob / safeBytesPerBlob) transactionSize)
  else .error .overflow

def calculateL1FeeGas (env : Environment) (tx : Transaction) (config : Option L1FeeConfig) :
    Except HookError Nat :=
  match config with
  | none => .ok 0
  | some config => do
    let l1Fee ← calculateL1Fee config tx.length.val
    if env.gasPrice.val = 0 then .error .divisionByZero
    else
      let l1FeeGas := l1Fee / env.gasPrice.val
      let l1FeeGas := if l1FeeGas = 0 ∧ 0 < l1Fee then 1 else l1FeeGas
      if l1FeeGas < 2 ^ 64 then .ok l1FeeGas else .error .overflow

/-- What the preparation leaves for the execution and the settlement. -/
structure Prepared where
  balances : Balances
  /-- The fee taken from the sender, in wei or in units of the token. -/
  upFront : Nat
  gasRemaining : Int
  cachedFeeTokenRatio : Option U256

def reserveL1Gas (env : Environment) (tx : Transaction) (config : Option L1FeeConfig)
    (gasRemaining : Int) : Except HookError Int := do
  let l1Gas ← calculateL1FeeGas env tx config
  if Fork.prague.activeAt env.fork ∧ 2 ^ 64 ≤ tx.minGasUsed.val + l1Gas then .error .overflow
  else if Fork.prague.activeAt env.fork ∧ env.gasLimit.val < tx.minGasUsed.val + l1Gas then
    .error .l1GasReservationTooLow
  else
    match increaseConsumedGas gasRemaining l1Gas with
    | none => .error .l1GasReservationTooLow
    | some gasRemaining => .ok gasRemaining

/-- `validate_sufficient_max_fee_per_gas`, of the default hook and with the operator fee. -/
def validateSufficientMaxFeePerGas (env : Environment) (totalFee : Nat) : Except HookError Unit :=
  if (env.txMaxFeePerGas.getD env.gasPrice).val < totalFee then .error .insufficientMaxFeePerGas
  else .ok ()

def FeeConfig.operatorFee (config : FeeConfig) : Nat :=
  config.operatorFeeConfig.elim 0 fun operator => operator.operatorFeePerGas.val

def transferValue (tx : Transaction) (balances : Balances) : Except HookError Balances :=
  match tx.recipient with
  | none => .ok balances
  | some recipient => balances.increase recipient tx.value.val

/-- `L2Hook::prepare_execution`; `ratio` is what the ratio contract answers. -/
def prepareExecution (config : FeeConfig) (env : Environment) (tx : Transaction) (ratio : U256)
    (balances : Balances) : Except HookError Prepared := do
  let product := env.gasPrice.val * env.gasLimit.val
  if 2 ^ 256 ≤ product then .error .gasLimitPriceProductOverflow
  else
    let isToken := env.feeToken.isSome
    -- a token transaction locks its fee in the token and pays its value in ETH
    let upFront := if isToken then saturatingMulU256 product ratio.val else product
    let balances ← (balances.decrease env.origin
      (tx.value.val + if isToken then 0 else product)).mapError fun _ => .insufficientAccountFunds
    validateSufficientMaxFeePerGas env env.baseFeePerGas.val
    match increaseConsumedGas (asI64 env.gasLimit.val) tx.intrinsicGas.val with
    | none => .error .intrinsicGasTooLow
    | some gasRemaining =>
      if env.txMaxPriorityFeePerGas.any fun priority =>
          env.txMaxFeePerGas.any fun maxFee => priority > maxFee then
        .error .priorityGreaterThanMaxFeePerGas
      else
        let balances ← transferValue tx balances
        validateSufficientMaxFeePerGas env (env.baseFeePerGas.val + config.operatorFee)
        let gasRemaining ← reserveL1Gas env tx config.l1FeeConfig gasRemaining
        return {
          balances, upFront, gasRemaining
          cachedFeeTokenRatio := if isToken then some ratio else none }

/-- What the execution hands to the settlement. -/
structure Outcome where
  success : Bool
  gasUsed : U64
  refundedGas : U64
  /-- The balances when the execution succeeded; otherwise the prepared ones are restored. -/
  balances : Balances
  selfDestructs : List Address
  gasRemaining : Int
  stateGasUsed : Int
  intrinsicStateGas : U64
  stateGasReservoirInitial : U64
  stateGasSpill : U64

inductive Role where
  | l1FeeVault
  | sender
  | coinbase
  | baseFeeVault
  | operatorFeeVault
  deriving DecidableEq, Repr

structure Payment where
  role : Role
  receiver : Address
  amount : Nat
  deriving DecidableEq, Repr

/-- The balances in ETH and the payments so far. -/
structure Ledger where
  balances : Balances
  payments : List Payment

/-- One payment: to an account in ETH, or as a token transfer that is exact. -/
def Ledger.pay (env : Environment) (ledger : Ledger) (payment : Payment) :
    Except HookError Ledger :=
  if env.feeToken.isSome then .ok { ledger with payments := ledger.payments ++ [payment] }
  else do
    let balances ← ledger.balances.increase payment.receiver payment.amount
    return { balances, payments := ledger.payments ++ [payment] }

/-- The gas that the transaction reports, for the block and for the sender. -/
structure ReportedGas where
  gasUsed : Nat
  gasSpent : Nat

variable (env : Environment) (gasToPay : Nat)

def payToL1FeeVault (config : L1FeeConfig) (ledger : Ledger) :
    Except HookError Ledger := do
  let l1Fee ← okOr .overflow (checkedMulU256 gasToPay env.gasPrice.val)
  (ledger.pay env ⟨.l1FeeVault, config.l1FeeVault, l1Fee⟩).mapError fun _ => .insufficientAccountFunds

def computePriorityFeePerGas (config : Option OperatorFeeConfig) : Except HookError Nat := do
  let priorityFee ← okOr .underflow (checkedSubU256 env.gasPrice.val env.baseFeePerGas.val)
  match config with
  | none => .ok priorityFee
  | some operator => okOr .underflow (checkedSubU256 priorityFee operator.operatorFeePerGas.val)

/-- `pay_coinbase_l2`; without operator fee and token the default hook computes the same. A payment
of zero has no effect. -/
def payCoinbaseL2 (config : Option OperatorFeeConfig) (ledger : Ledger) :
    Except HookError Ledger := do
  let priorityFeePerGas ← computePriorityFeePerGas env config
  let coinbaseFee ← okOr .overflow (checkedMulU256 gasToPay priorityFeePerGas)
  ledger.pay env ⟨.coinbase, env.coinbase, coinbaseFee⟩

def payBaseFeeVault (vault : Address) (ledger : Ledger) :
    Except HookError Ledger := do
  let baseFee ← okOr .overflow (checkedMulU256 gasToPay env.baseFeePerGas.val)
  ledger.pay env ⟨.baseFeeVault, vault, baseFee⟩

def payOperatorFee (config : OperatorFeeConfig) (ledger : Ledger) :
    Except HookError Ledger := do
  let operatorFee ← okOr .overflow (checkedMulU256 gasToPay config.operatorFeePerGas.val)
  ledger.pay env ⟨.operatorFeeVault, config.operatorFeeVault, operatorFee⟩

/-- The regular gas of a block from Amsterdam on, in `refund_sender`. -/
def regularGas (tx : Transaction) (outcome : Outcome) : Nat :=
  max (env.gasLimit.val - outcome.gasRemaining.toNat - outcome.intrinsicStateGas.val -
    outcome.stateGasReservoirInitial.val - outcome.stateGasSpill.val) tx.minGasUsed.val

/-- The gas that `refund_sender` reports for the block. -/
def blockGasUsed (tx : Transaction) (outcome : Outcome) (gasSpent : Nat) : Except HookError Nat :=
  if Fork.amsterdam.activeAt env.fork then
    if regularGas env tx outcome + outcome.stateGasUsed.toNat < 2 ^ 64 then
      .ok (regularGas env tx outcome + outcome.stateGasUsed.toNat)
    else .error .overflow
  else .ok gasSpent

/-- `refund_sender`: what the sender gets back, and the gas that is reported. -/
def refundSender (tx : Transaction) (outcome : Outcome) (gasSpent : Nat) (ledger : Ledger) :
    Except HookError (Ledger × ReportedGas) := do
  let gasUsed ← blockGasUsed env tx outcome gasSpent
  let gasToReturn ← okOr .underflow (checkedSubU256 env.gasLimit.val gasSpent)
  let returned ← okOr .overflow (checkedMulU256 env.gasPrice.val gasToReturn)
  let ledger ← ledger.pay env ⟨.sender, env.origin, returned⟩
  return (ledger, ⟨gasUsed, gasSpent⟩)

def refundSenderFeeToken (gasSpent gasUsedPreRefund feeTokenRatio : Nat) (ledger : Ledger) :
    Except HookError (Ledger × ReportedGas) := do
  let gasToReturn ← okOr .underflow (checkedSubU256 env.gasLimit.val gasSpent)
  let returned ← okOr .overflow (checkedMulU256 env.gasPrice.val gasToReturn)
  let ledger ← ledger.pay env ⟨.sender, env.origin, saturatingMulU256 returned feeTokenRatio⟩
  let gasUsed := if Fork.amsterdam.activeAt env.fork then gasUsedPreRefund else gasSpent
  return (ledger, ⟨gasUsed, gasSpent⟩)

/-- `delete_self_destruct_accounts`: the balances; they stay from Amsterdam on. -/
def deleteSelfDestructAccounts (outcome : Outcome) (balances : Balances) : Balances :=
  if Fork.amsterdam.activeAt env.fork then balances
  else fun address => if address ∈ outcome.selfDestructs then 0 else balances address

/-! The steps of `apply_finalize_mutations`, each with the choice that it starts with. -/

def settleL1Fee (config : FeeConfig) (gasToPay : Nat) (ledger : Ledger) : Except HookError Ledger :=
  match config.l1FeeConfig with
  | none => .ok ledger
  | some l1 => payToL1FeeVault env gasToPay l1 ledger

def settleRefund (tx : Transaction) (outcome : Outcome) (feeTokenRatio actualGasUsed : Nat)
    (ledger : Ledger) : Except HookError (Ledger × ReportedGas) :=
  if env.feeToken.isSome then
    refundSenderFeeToken env actualGasUsed outcome.gasUsed.val feeTokenRatio ledger
  else refundSender env tx outcome actualGasUsed ledger

def settleBaseFee (config : FeeConfig) (gasToPay : Nat) (ledger : Ledger) :
    Except HookError Ledger :=
  match config.baseFeeVault with
  | some vault => payBaseFeeVault env gasToPay vault ledger
  | none => if env.feeToken.isSome then payBaseFeeVault env gasToPay 0 ledger else .ok ledger

def settleOperatorFee (config : FeeConfig) (gasToPay : Nat) (ledger : Ledger) :
    Except HookError Ledger :=
  match config.operatorFeeConfig with
  | none => .ok ledger
  | some operator => payOperatorFee env gasToPay operator ledger

def applyFinalizeMutations (config : FeeConfig) (tx : Transaction) (outcome : Outcome)
    (feeTokenRatio l1Gas executionGas actualGasUsed : Nat) (balances : Balances) :
    Except HookError (Ledger × ReportedGas) := do
  let ledger ← settleL1Fee env config (saturatingMulU64 l1Gas feeTokenRatio)
    ⟨deleteSelfDestructAccounts env outcome balances, []⟩
  let refunded ← settleRefund env tx outcome feeTokenRatio actualGasUsed ledger
  let toPay := saturatingMulU64 executionGas feeTokenRatio
  let ledger ← payCoinbaseL2 env toPay config.operatorFeeConfig refunded.1
  let ledger ← settleBaseFee env config toPay ledger
  let ledger ← settleOperatorFee env config toPay ledger
  return (ledger, refunded.2)

/-- The recipient gives the value back; a creation has none. -/
def takeBackValue (tx : Transaction) (balances : Balances) : Except HookError Balances :=
  match tx.recipient with
  | none => .ok balances
  | some recipient => balances.decrease recipient tx.value.val

def undoValueTransfer (tx : Transaction) (balances : Balances) : Except HookError Balances := do
  let balances ← takeBackValue tx balances
  balances.increase env.origin tx.value.val

/-- The gas of the execution after the refund: `compute_actual_gas_used` with the refund capped. -/
def executionGas (tx : Transaction) (outcome : Outcome) (executionGasPreRefund : Nat) : Nat :=
  let refunded := min outcome.refundedGas.val (executionGasPreRefund / maxRefundQuotient)
  if Fork.prague.activeAt env.fork then
    max (executionGasPreRefund - refunded) tx.minGasUsed.val
  else executionGasPreRefund - refunded

def settlementRatio (cachedFeeTokenRatio : Option U256) : Except HookError Nat :=
  match cachedFeeTokenRatio with
  | some cached => if cached.val < 2 ^ 64 then .ok cached.val else .error .feeTokenRatio
  | none => if env.feeToken.isSome then .error .feeTokenRatio else .ok 1

/-- The balances that the settlement finds: after a failure the value is back with the sender. -/
def openingBalances (tx : Transaction) (prepared : Prepared) (outcome : Outcome) :
    Except HookError Balances :=
  if outcome.success then .ok outcome.balances else undoValueTransfer env tx prepared.balances

def finalizeNonPrivilegedExecution (config : FeeConfig) (tx : Transaction) (prepared : Prepared)
    (outcome : Outcome) : Except HookError (Ledger × ReportedGas) := do
  let balances ← openingBalances env tx prepared outcome
  let l1Gas ← calculateL1FeeGas env tx config.l1FeeConfig
  let preRefund ← okOr .underflow (checkedSubU256 outcome.gasUsed.val l1Gas)
  let executionGas := executionGas env tx outcome preRefund
  if 2 ^ 64 ≤ executionGas + l1Gas then .error .overflow
  else
    let feeTokenRatio ← settlementRatio env prepared.cachedFeeTokenRatio
    applyFinalizeMutations env config tx outcome feeTokenRatio l1Gas executionGas
      (executionGas + l1Gas) balances

end Ethrex.L2
