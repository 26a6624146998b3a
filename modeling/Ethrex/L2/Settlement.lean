import Ethrex.L2.FeeHook

/-!
# What the settlement pays out

In ETH the payments add up to what was taken as long as no balance overflows. In token mode the gas
of each part is scaled in 64 bits, with saturation, the fee and the refund in 256 bits.
-/

namespace Ethrex.L2

open Levm List

section Except

variable {α β : Type}

theorem mapError_eq_ok {x : Except HookError α} {f : HookError → HookError} {a : α} :
    x.mapError f = .ok a ↔ x = .ok a := by
  cases x with
  | error e => exact ⟨nofun, nofun⟩
  | ok a' => exact Iff.rfl

variable {a b c : Nat}

variable {f : Nat → Except HookError α} {r : α}

theorem bind_checkedMulU256 :
    (okOr .overflow (checkedMulU256 a b) >>= f) = .ok r ↔ a * b < 2 ^ 256 ∧ f (a * b) = .ok r := by
  rw [checkedMulU256]
  split
  · rename_i h
    exact (and_iff_right h).symm
  · rename_i h
    exact ⟨fun hr => (by cases hr), fun hr => absurd hr.1 h⟩

theorem bind_checkedSubU256 :
    (okOr .underflow (checkedSubU256 a b) >>= f) = .ok r ↔ b ≤ a ∧ f (a - b) = .ok r := by
  rw [checkedSubU256]
  split
  · rename_i h
    exact (and_iff_right h).symm
  · rename_i h
    exact ⟨nofun, fun hr => absurd hr.1 h⟩

theorem checkedSubU256_eq_ok {e : HookError} :
    okOr e (checkedSubU256 a b) = .ok c ↔ b ≤ a ∧ c = a - b := by
  rw [okOr_eq_ok, checkedSubU256]
  split_ifs with h
  · rw [Option.some.injEq, eq_comm, and_iff_right h]
  · exact ⟨nofun, fun hc => absurd hc.1 h⟩

end Except

def credited (payments : List Payment) (address : Address) : Nat :=
  (payments.map fun p => if p.receiver = address then p.amount else 0).sum

def received (payments : List Payment) (role : Role) : Nat :=
  (payments.map fun p => if p.role = role then p.amount else 0).sum

@[simp] theorem received_nil (role : Role) : received [] role = 0 := rfl

@[simp] theorem received_cons (p : Payment) (payments : List Payment) (role : Role) :
    received (p :: payments) role = (if p.role = role then p.amount else 0) + received payments role :=
  rfl

@[simp] theorem received_append (payments payments' : List Payment) (role : Role) :
    received (payments ++ payments') role = received payments role + received payments' role := by
  simp [received]

variable (env : Environment)

def Ledger.payAll (payments : List Payment) (ledger : Ledger) : Except HookError Ledger :=
  payments.foldlM (fun ledger p => ledger.pay env p) ledger

variable {env}
variable {p : Payment} {ledger ledger' : Ledger} {balances balances' : Balances} {address : Address}
  {amount : Nat}

theorem payAll_cons {payments : List Payment} :
    ledger.payAll env (p :: payments) = .ok ledger' ↔
      ∃ next, ledger.pay env p = .ok next ∧ next.payAll env payments = .ok ledger' := by
  rw [Ledger.payAll, foldlM_cons, bind_eq_ok]
  rfl

theorem payAll_append {payments payments' : List Payment} :
    ledger.payAll env (payments ++ payments') = .ok ledger' ↔
      ∃ next, ledger.payAll env payments = .ok next ∧ next.payAll env payments' = .ok ledger' := by
  rw [Ledger.payAll, foldlM_append, bind_eq_ok]
  rfl

theorem payAll_singleton :
    ledger.payAll env [p] = .ok ledger' ↔ ledger.pay env p = .ok ledger' := by
  rw [payAll_cons]
  constructor
  · rintro ⟨next, hpay, hrest⟩
    rw [hpay]
    exact hrest
  · exact fun h => ⟨ledger', h, rfl⟩

theorem increase_eq_ok :
    balances.increase address amount = .ok balances' ↔
      ∀ a, (balances' a).val = (balances a).val + if address = a then amount else 0 := by
  rw [Balances.increase]
  split
  · rename_i h
    rw [Except.ok.injEq]
    constructor
    · rintro rfl a
      by_cases ha : address = a
      · subst ha
        simp
      · simp [Function.update_of_ne (Ne.symm ha), ha]
    · intro hall
      funext a
      apply Fin.ext
      rw [hall a]
      by_cases ha : address = a
      · subst ha
        simp
      · simp [Function.update_of_ne (Ne.symm ha), ha]
  · rename_i h
    constructor
    · exact fun h => by cases h
    intro hall
    have hvalue := hall address
    rw [if_pos rfl] at hvalue
    exact absurd (hvalue ▸ (balances' address).isLt) h

theorem payAll_eth (heth : env.feeToken = none) (payments : List Payment) :
    ∀ ledger ledger' : Ledger, ledger.payAll env payments = .ok ledger' ↔
      (∀ a, (ledger'.balances a).val = (ledger.balances a).val + credited payments a) ∧
        ledger'.payments = ledger.payments ++ payments := by
  induction payments with
  | nil =>
    intro ledger ledger'
    constructor
    · intro h
      cases h
      exact ⟨fun a => rfl, (append_nil _).symm⟩
    rintro ⟨hbalances, hpayments⟩
    have hsame : ledger = ledger' := by
      obtain ⟨balances, made⟩ := ledger
      obtain ⟨balances', made'⟩ := ledger'
      have hb : balances = balances' := funext fun a => Fin.ext (hbalances a).symm
      have hp : made = made' := by simpa using hpayments.symm
      rw [hb, hp]
    rw [hsame]
    rfl
  | cons p payments ih =>
    intro ledger ledger'
    have hpay : ∀ next, ledger.pay env p = .ok next ↔
        (∀ a, (next.balances a).val = (ledger.balances a).val +
          if p.receiver = a then p.amount else 0) ∧ next.payments = ledger.payments ++ [p] := by
      intro next
      simp only [Ledger.pay, heth, Option.isSome_none, Bool.false_eq_true, if_false]
      rw [bind_eq_ok]
      constructor
      · rintro ⟨balances, hincrease, hnext⟩
        cases hnext
        exact ⟨increase_eq_ok.1 hincrease, rfl⟩
      rintro ⟨hbalances, hpayments⟩
      refine ⟨next.balances, increase_eq_ok.2 hbalances, ?_⟩
      rw [← hpayments]
      rfl
    rw [payAll_cons]
    constructor
    · rintro ⟨next, hnext, hrest⟩
      obtain ⟨hbalances, hpayments⟩ := (hpay next).1 hnext
      obtain ⟨hbalances', hpayments'⟩ := (ih next ledger').1 hrest
      refine ⟨fun a => ?_, by rw [hpayments', hpayments, append_assoc]; rfl⟩
      rw [hbalances' a, hbalances a, credited, credited, map_cons, sum_cons, Nat.add_assoc]
    · rintro ⟨hbalances, hpayments⟩
      have hcons : ∀ a, credited (p :: payments) a =
          (if p.receiver = a then p.amount else 0) + credited payments a := fun a => rfl
      have hfits : ∀ a, (ledger.balances a).val + (if p.receiver = a then p.amount else 0) <
          2 ^ 256 := by
        intro a
        have hvalue := hbalances a
        have hlt := (ledger'.balances a).isLt
        rw [hcons a] at hvalue
        omega
      refine ⟨⟨fun a => ⟨_, hfits a⟩, ledger.payments ++ [p]⟩, (hpay _).2 ⟨fun a => rfl, rfl⟩, ?_⟩
      rw [ih]
      refine ⟨fun a => ?_, by rw [hpayments, append_assoc]; rfl⟩
      show _ = (ledger.balances a).val + (if p.receiver = a then p.amount else 0) + _
      rw [hbalances a, hcons a, Nat.add_assoc]

theorem payAll_token (htoken : env.feeToken.isSome) (payments : List Payment) :
    ∀ ledger : Ledger, ledger.payAll env payments =
      .ok { ledger with payments := ledger.payments ++ payments } := by
  induction payments with
  | nil =>
    intro ledger
    rw [append_nil]
    rfl
  | cons p payments ih =>
    intro ledger
    have hpay : ledger.pay env p = .ok { ledger with payments := ledger.payments ++ [p] } := by
      rw [Ledger.pay, if_pos htoken]
    rw [payAll_cons]
    refine ⟨_, hpay, ?_⟩
    rw [ih, append_assoc]
    rfl

/-! ### The payments of a settlement -/

section Plan

variable (env) (config : FeeConfig) (tx : Transaction) (outcome : Outcome)

def l1Payments (gasToPay : Nat) : List Payment :=
  config.l1FeeConfig.toList.map fun l1 =>
    ⟨.l1FeeVault, l1.l1FeeVault, gasToPay * env.gasPrice.val⟩

def refund (feeTokenRatio gasSpent : Nat) : Nat :=
  if env.feeToken.isSome then
    saturatingMulU256 (env.gasPrice.val * (env.gasLimit.val - gasSpent)) feeTokenRatio
  else env.gasPrice.val * (env.gasLimit.val - gasSpent)

def priorityFeePerGas : Nat := env.gasPrice.val - env.baseFeePerGas.val - config.operatorFee

/-- Without a vault the base fee goes to the zero address in the token, and nowhere in ETH. -/
def basePayments (gasToPay : Nat) : List Payment :=
  (config.baseFeeVault.or (if env.feeToken.isSome then some 0 else none)).toList.map fun vault =>
    ⟨.baseFeeVault, vault, gasToPay * env.baseFeePerGas.val⟩

def operatorPayments (gasToPay : Nat) : List Payment :=
  config.operatorFeeConfig.toList.map fun operator =>
    ⟨.operatorFeeVault, operator.operatorFeeVault, gasToPay * operator.operatorFeePerGas.val⟩

def settlementPayments (feeTokenRatio l1Gas executionGas : Nat) : List Payment :=
  l1Payments env config (saturatingMulU64 l1Gas feeTokenRatio) ++
    ([⟨.sender, env.origin, refund env feeTokenRatio (executionGas + l1Gas)⟩] ++
      ([⟨.coinbase, env.coinbase,
          saturatingMulU64 executionGas feeTokenRatio * priorityFeePerGas env config⟩] ++
        (basePayments env config (saturatingMulU64 executionGas feeTokenRatio) ++
          operatorPayments config (saturatingMulU64 executionGas feeTokenRatio))))

def StateGasFits : Prop :=
  env.feeToken = none → Fork.amsterdam.activeAt env.fork →
    regularGas env tx outcome + outcome.stateGasUsed.toNat < 2 ^ 64

end Plan

section Steps

variable {config : FeeConfig} {tx : Transaction} {outcome : Outcome} {ledger ledger' : Ledger}
  {gasToPay : Nat}

theorem settleL1Fee_eq_ok :
    settleL1Fee env config gasToPay ledger = .ok ledger' ↔
      (config.l1FeeConfig.isSome → gasToPay * env.gasPrice.val < 2 ^ 256) ∧
        ledger.payAll env (l1Payments env config gasToPay) = .ok ledger' := by
  rw [settleL1Fee, l1Payments]
  cases config.l1FeeConfig with
  | none => simp [Ledger.payAll, pure, Except.pure]
  | some l1 =>
    simp only [payToL1FeeVault, Option.toList_some, map_cons, map_nil, bind_checkedMulU256,
      mapError_eq_ok, payAll_singleton, Option.isSome_some, forall_const]

theorem payBaseFeeVault_eq_ok {vault : Address} :
    payBaseFeeVault env gasToPay vault ledger = .ok ledger' ↔
      gasToPay * env.baseFeePerGas.val < 2 ^ 256 ∧ ledger.payAll env
        [⟨.baseFeeVault, vault, gasToPay * env.baseFeePerGas.val⟩] = .ok ledger' := by
  simp only [payBaseFeeVault, bind_checkedMulU256, payAll_singleton]

theorem settleBaseFee_eq_ok :
    settleBaseFee env config gasToPay ledger = .ok ledger' ↔
      (config.baseFeeVault.isSome ∨ env.feeToken.isSome →
        gasToPay * env.baseFeePerGas.val < 2 ^ 256) ∧
        ledger.payAll env (basePayments env config gasToPay) = .ok ledger' := by
  rw [settleBaseFee, basePayments]
  cases config.baseFeeVault with
  | none =>
    by_cases htoken : env.feeToken.isSome
    · simp only [htoken, if_true, payBaseFeeVault_eq_ok]
      simp
    · simp [htoken, Ledger.payAll, pure, Except.pure]
  | some vault =>
    simp only [payBaseFeeVault_eq_ok]
    simp

theorem settleOperatorFee_eq_ok :
    settleOperatorFee env config gasToPay ledger = .ok ledger' ↔
      (config.operatorFeeConfig.isSome → gasToPay * config.operatorFee < 2 ^ 256) ∧
        ledger.payAll env (operatorPayments config gasToPay) = .ok ledger' := by
  rw [settleOperatorFee, operatorPayments, FeeConfig.operatorFee]
  cases config.operatorFeeConfig with
  | none => simp [Ledger.payAll, pure, Except.pure]
  | some operator =>
    simp only [payOperatorFee, Option.toList_some, map_cons, map_nil, bind_checkedMulU256,
      payAll_singleton, Option.isSome_some, forall_const, Option.elim_some]

theorem computePriorityFeePerGas_eq_ok {fee : Nat} :
    computePriorityFeePerGas env config.operatorFeeConfig = .ok fee ↔
      env.baseFeePerGas.val + config.operatorFee ≤ env.gasPrice.val ∧
        fee = priorityFeePerGas env config := by
  rw [computePriorityFeePerGas, priorityFeePerGas, FeeConfig.operatorFee, bind_checkedSubU256]
  cases config.operatorFeeConfig with
  | none =>
    simp only [Option.elim_none, Except.ok.injEq]
    omega
  | some operator =>
    simp only [Option.elim_some, checkedSubU256_eq_ok]
    omega

theorem payCoinbaseL2_eq_ok :
    payCoinbaseL2 env gasToPay config.operatorFeeConfig ledger = .ok ledger' ↔
      env.baseFeePerGas.val + config.operatorFee ≤ env.gasPrice.val ∧
        gasToPay * priorityFeePerGas env config < 2 ^ 256 ∧
        ledger.payAll env
          [⟨.coinbase, env.coinbase, gasToPay * priorityFeePerGas env config⟩] = .ok ledger' := by
  rw [payCoinbaseL2, bind_eq_ok]
  simp only [computePriorityFeePerGas_eq_ok, bind_checkedMulU256, payAll_singleton]
  constructor
  · rintro ⟨_, ⟨hpriced, rfl⟩, hpay⟩
    exact ⟨hpriced, hpay⟩
  · rintro ⟨hpriced, hpay⟩
    exact ⟨_, ⟨hpriced, rfl⟩, hpay⟩

variable {gasSpent feeTokenRatio : Nat}

theorem blockGasUsed_eq_ok :
    (∃ gasUsed, blockGasUsed env tx outcome gasSpent = .ok gasUsed) ↔
      (Fork.amsterdam.activeAt env.fork →
        regularGas env tx outcome + outcome.stateGasUsed.toNat < 2 ^ 64) := by
  rw [blockGasUsed]
  by_cases hamsterdam : Fork.amsterdam.activeAt env.fork
  · rw [if_pos hamsterdam]
    split
    · rename_i h
      exact ⟨fun _ _ => h, fun _ => ⟨_, rfl⟩⟩
    rename_i h
    constructor
    · rintro ⟨_, heq⟩
      cases heq
    · exact fun hfits => absurd (hfits hamsterdam) h
  · rw [if_neg hamsterdam]
    exact ⟨fun _ h => absurd h hamsterdam, fun _ => ⟨_, rfl⟩⟩

theorem settleRefund_eq_ok {gasSpent' : Nat} :
    (∃ gasUsed, settleRefund env tx outcome feeTokenRatio gasSpent ledger =
        .ok (ledger', ⟨gasUsed, gasSpent'⟩)) ↔
      gasSpent' = gasSpent ∧ StateGasFits env tx outcome ∧ gasSpent ≤ env.gasLimit.val ∧
        env.gasPrice.val * (env.gasLimit.val - gasSpent) < 2 ^ 256 ∧
        ledger.payAll env [⟨.sender, env.origin, refund env feeTokenRatio gasSpent⟩] =
          .ok ledger' := by
  rw [settleRefund, refund]
  cases htoken : env.feeToken with
  | some token =>
    simp only [Option.isSome_some, if_true, refundSenderFeeToken]
    simp only [↓bind_checkedSubU256, ↓bind_checkedMulU256, bind_eq_ok, payAll_singleton]
    constructor
    · rintro ⟨gasUsed, hle, hfits, ledger₁, hpay, heq⟩
      cases heq
      exact ⟨rfl, fun h => by simp [htoken] at h, hle, hfits, hpay⟩
    · rintro ⟨rfl, -, hle, hfits, hpay⟩
      exact ⟨_, hle, hfits, ledger', hpay, rfl⟩
  | none =>
    simp only [Option.isSome_none, Bool.false_eq_true, if_false, refundSender]
    simp only [↓bind_checkedSubU256, ↓bind_checkedMulU256, bind_eq_ok, payAll_singleton]
    constructor
    · rintro ⟨gasUsed, gasUsed', hused, hle, hfits, ledger₁, hpay, heq⟩
      cases heq
      exact ⟨rfl, fun _ => blockGasUsed_eq_ok.1 ⟨_, hused⟩, hle, hfits, hpay⟩
    · rintro ⟨rfl, hstate, hle, hfits, hpay⟩
      obtain ⟨gasUsed, hused⟩ := blockGasUsed_eq_ok.2 (hstate htoken)
      exact ⟨_, _, hused, hle, hfits, ledger', hpay, rfl⟩

/-- The products that the payments are made of fit 256 bits. -/
structure ProductsFit (env : Environment) (config : FeeConfig)
    (feeTokenRatio l1Gas executionGas : Nat) : Prop where
  l1 : config.l1FeeConfig.isSome →
    saturatingMulU64 l1Gas feeTokenRatio * env.gasPrice.val < 2 ^ 256
  refund : env.gasPrice.val * (env.gasLimit.val - (executionGas + l1Gas)) < 2 ^ 256
  coinbase : saturatingMulU64 executionGas feeTokenRatio * priorityFeePerGas env config < 2 ^ 256
  base : config.baseFeeVault.isSome ∨ env.feeToken.isSome →
    saturatingMulU64 executionGas feeTokenRatio * env.baseFeePerGas.val < 2 ^ 256
  operator : config.operatorFeeConfig.isSome →
    saturatingMulU64 executionGas feeTokenRatio * config.operatorFee < 2 ^ 256

theorem applyFinalizeMutations_eq_ok {l1Gas executionGas : Nat} {balances : Balances} :
    (∃ gasUsed, applyFinalizeMutations env config tx outcome feeTokenRatio l1Gas executionGas
        (executionGas + l1Gas) balances = .ok (ledger, ⟨gasUsed, gasSpent⟩)) ↔
      gasSpent = executionGas + l1Gas ∧ StateGasFits env tx outcome ∧
        executionGas + l1Gas ≤ env.gasLimit.val ∧
        env.baseFeePerGas.val + config.operatorFee ≤ env.gasPrice.val ∧
        ProductsFit env config feeTokenRatio l1Gas executionGas ∧
        Ledger.payAll env (settlementPayments env config feeTokenRatio l1Gas executionGas)
          ⟨deleteSelfDestructAccounts env outcome balances, []⟩ = .ok ledger := by
  simp only [applyFinalizeMutations, settlementPayments, payAll_append, bind_eq_ok]
  constructor
  · rintro ⟨gasUsed, ledger₁, hl1, ⟨ledger₂, gas⟩, hrefund, ledger₃, hcoinbase, ledger₄, hbase, ledger₅,
      hoperator, heq⟩
    cases heq
    obtain ⟨hl1Fits, hpay₁⟩ := settleL1Fee_eq_ok.1 hl1
    obtain ⟨hspent, hstate, hle, hrefundFits, hpay₂⟩ := settleRefund_eq_ok.1 ⟨gasUsed, hrefund⟩
    obtain ⟨hpriced, hcoinbaseFits, hpay₃⟩ := payCoinbaseL2_eq_ok.1 hcoinbase
    obtain ⟨hbaseFits, hpay₄⟩ := settleBaseFee_eq_ok.1 hbase
    obtain ⟨hoperatorFits, hpay₅⟩ := settleOperatorFee_eq_ok.1 hoperator
    exact ⟨hspent, hstate, hle, hpriced, ⟨hl1Fits, hrefundFits, hcoinbaseFits, hbaseFits, hoperatorFits⟩,
      ledger₁, hpay₁, ledger₂, hpay₂, ledger₃, hpay₃, ledger₄, hpay₄, hpay₅⟩
  · rintro ⟨rfl, hstate, hle, hpriced, hfits, ledger₁, hpay₁, ledger₂, hpay₂, ledger₃, hpay₃, ledger₄,
      hpay₄, hpay₅⟩
    obtain ⟨gasUsed, hrefund⟩ := settleRefund_eq_ok.2 ⟨rfl, hstate, hle, hfits.refund, hpay₂⟩
    exact ⟨gasUsed, ledger₁, settleL1Fee_eq_ok.2 ⟨hfits.l1, hpay₁⟩, _, hrefund, ledger₃,
      payCoinbaseL2_eq_ok.2 ⟨hpriced, hfits.coinbase, hpay₃⟩, ledger₄,
      settleBaseFee_eq_ok.2 ⟨hfits.base, hpay₄⟩, ledger,
      settleOperatorFee_eq_ok.2 ⟨hfits.operator, hpay₅⟩, rfl⟩

end Steps

/-! ### What the preparation ensures -/

theorem decrease_eq_ok (h : balances.decrease address amount = .ok balances') (a : Address) :
    (balances' a).val + (if address = a then amount else 0) = (balances a).val := by
  rw [Balances.decrease] at h
  split at h
  · rename_i hle
    cases h
    by_cases ha : address = a
    · subst ha
      simp [hle]
    · simp [Function.update_of_ne (Ne.symm ha), ha]
  · cases h

theorem exists_decrease (h : amount ≤ (balances address).val) :
    ∃ balances', balances.decrease address amount = .ok balances' := by
  rw [Balances.decrease, if_pos h]
  exact ⟨_, rfl⟩

theorem exists_increase (h : (balances address).val + amount < 2 ^ 256) :
    ∃ balances', balances.increase address amount = .ok balances' := by
  rw [Balances.increase, dif_pos h]
  exact ⟨_, rfl⟩

variable {tx : Transaction}

theorem exists_undoValueTransfer {fee : Nat} {debited : Balances}
    (hdebit : balances.decrease env.origin (tx.value.val + fee) = .ok debited)
    (htransfer : transferValue tx debited = .ok balances') :
    ∃ opening, undoValueTransfer env tx balances' = .ok opening := by
  have horigin : (debited env.origin).val + tx.value.val < 2 ^ 256 := by
    have hvalue := decrease_eq_ok hdebit env.origin
    rw [if_pos rfl] at hvalue
    have hlt := (balances env.origin).isLt
    omega
  rw [transferValue] at htransfer
  simp only [undoValueTransfer, bind_eq_ok, takeBackValue]
  cases hrecipient : tx.recipient with
  | none =>
    rw [hrecipient] at htransfer
    cases htransfer
    obtain ⟨opening, hopening⟩ := exists_increase horigin
    exact ⟨opening, _, rfl, hopening⟩
  | some recipient =>
    simp only [hrecipient] at htransfer
    have hincreased := increase_eq_ok.1 htransfer
    obtain ⟨returned, hreturned⟩ : ∃ returned,
        balances'.decrease recipient tx.value.val = .ok returned := by
      apply exists_decrease
      rw [hincreased recipient, if_pos rfl]
      omega
    have hsame : (returned env.origin).val = (debited env.origin).val := by
      have hdown := decrease_eq_ok hreturned env.origin
      rw [hincreased env.origin] at hdown
      omega
    obtain ⟨opening, hopening⟩ := exists_increase (hsame ▸ horigin)
    exact ⟨opening, returned, hreturned, hopening⟩

theorem reserveL1Gas_eq_ok {config : Option L1FeeConfig} {gasRemaining gasRemaining' : Int}
    (h : reserveL1Gas env tx config gasRemaining = .ok gasRemaining') :
    ∃ l1Gas, calculateL1FeeGas env tx config = .ok l1Gas ∧
      (Fork.prague.activeAt env.fork → tx.minGasUsed.val + l1Gas ≤ env.gasLimit.val) ∧
      increaseConsumedGas gasRemaining l1Gas = some gasRemaining' := by
  rw [reserveL1Gas] at h
  obtain ⟨l1Gas, hl1, h⟩ := bind_eq_ok.1 h
  refine ⟨l1Gas, hl1, ?_⟩
  split at h
  · cases h
  split at h
  · cases h
  rename_i hfloor
  refine ⟨fun hprague => ?_, ?_⟩
  · by_contra hlt
    exact hfloor ⟨hprague, by omega⟩
  split at h
  · cases h
  · rename_i hcharged
    cases h
    exact hcharged

structure Preparation (config : FeeConfig) (env : Environment) (tx : Transaction) (ratio : U256)
    (prepared : Prepared) (l1Gas : Nat) : Prop where
  product : env.gasPrice.val * env.gasLimit.val < 2 ^ 256
  upFront : prepared.upFront =
    if env.feeToken.isSome then saturatingMulU256 (env.gasPrice.val * env.gasLimit.val) ratio.val
    else env.gasPrice.val * env.gasLimit.val
  cached : prepared.cachedFeeTokenRatio = if env.feeToken.isSome then some ratio else none
  l1 : calculateL1FeeGas env tx config.l1FeeConfig = .ok l1Gas
  floor : Fork.prague.activeAt env.fork → tx.minGasUsed.val + l1Gas ≤ env.gasLimit.val
  undone : ∃ opening, undoValueTransfer env tx prepared.balances = .ok opening
  covered : env.baseFeePerGas.val + config.operatorFee ≤ (env.txMaxFeePerGas.getD env.gasPrice).val
  charged : ∃ gasRemaining,
    increaseConsumedGas (asI64 env.gasLimit.val) tx.intrinsicGas.val = some gasRemaining ∧
      increaseConsumedGas gasRemaining l1Gas = some prepared.gasRemaining

theorem preparation_of_ok {config : FeeConfig} {ratio : U256} {prepared : Prepared}
    (h : prepareExecution config env tx ratio balances = .ok prepared) :
    ∃ l1Gas, Preparation config env tx ratio prepared l1Gas := by
  simp only [prepareExecution] at h
  split at h
  · cases h
  rename_i hproduct
  obtain ⟨debited, hdebit, h⟩ := bind_eq_ok.1 h
  obtain ⟨_, -, h⟩ := bind_eq_ok.1 h
  split at h
  · cases h
  rename_i gasBefore hintrinsic
  split at h
  · cases h
  obtain ⟨transferred, htransfer, h⟩ := bind_eq_ok.1 h
  obtain ⟨_, hcovered, h⟩ := bind_eq_ok.1 h
  obtain ⟨gasRemaining, hreserve, h⟩ := bind_eq_ok.1 h
  cases h
  obtain ⟨l1Gas, hl1, hfloor, hcharged⟩ := reserveL1Gas_eq_ok hreserve
  refine ⟨l1Gas, by omega, rfl, rfl, hl1, hfloor,
    exists_undoValueTransfer (mapError_eq_ok.1 hdebit) htransfer, ?_, gasBefore, hintrinsic,
    hcharged⟩
  rw [validateSufficientMaxFeePerGas] at hcovered
  split at hcovered
  · cases hcovered
  · omega

end Ethrex.L2
