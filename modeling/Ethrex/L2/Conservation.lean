import Ethrex.L2.Settlement

/-!
# Conservation of fees

The fee taken up front is what the sender gets back and what the vaults, the coinbase and the burn
receive, exactly when no check of the settlement fails and no product of gas and ratio saturates
(`conserves_iff`).
-/

namespace Ethrex.L2

open Levm

variable {config : FeeConfig} {env : Environment} {tx : Transaction} {outcome : Outcome}

theorem executionGas_add_le {l1Gas : Nat} (hreserved : l1Gas ≤ outcome.gasUsed.val)
    (hused : outcome.gasUsed.val ≤ env.gasLimit.val)
    (hfloor : Fork.prague.activeAt env.fork → tx.minGasUsed.val + l1Gas ≤ env.gasLimit.val) :
    executionGas env tx outcome (outcome.gasUsed.val - l1Gas) + l1Gas ≤ env.gasLimit.val := by
  have hrefunded : outcome.gasUsed.val - l1Gas - min outcome.refundedGas.val
      ((outcome.gasUsed.val - l1Gas) / maxRefundQuotient) ≤ outcome.gasUsed.val - l1Gas :=
    Nat.sub_le _ _
  simp only [executionGas]
  split
  · rename_i hprague
    have hle := hfloor hprague
    rw [← Nat.le_sub_iff_add_le (by omega), max_le_iff]
    omega
  · omega

theorem saturatingMulU64_le (a b : Nat) : saturatingMulU64 a b ≤ a * b := Nat.min_le_left _ _

variable {a b : Nat}

theorem saturatingMulU64_of_lt (h : a * b < 2 ^ 64) : saturatingMulU64 a b = a * b :=
  Nat.min_eq_left (by omega)

theorem saturatingMulU256_of_lt (h : a * b < 2 ^ 256) : saturatingMulU256 a b = a * b :=
  Nat.min_eq_left (by omega)

theorem saturatingMulU64_eq_iff : saturatingMulU64 a b = a * b ↔ a * b < 2 ^ 64 := by
  rw [saturatingMulU64]
  omega

/-! ### What each role receives -/

theorem received_optional {α : Type} (part : Option α) (role role' : Role) (receiver : α → Address)
    (amount : α → Nat) :
    received (part.toList.map fun x => ⟨role', receiver x, amount x⟩) role =
      if role' = role then part.elim 0 amount else 0 := by
  cases part with
  | none => simp
  | some x => simp

/-- The base fee that leaves circulation: in ETH, without a vault. -/
def burned (config : FeeConfig) (env : Environment) (executionGas : Nat) : Nat :=
  if config.baseFeeVault = none ∧ env.feeToken = none then executionGas * env.baseFeePerGas.val else 0

section Received

variable {feeTokenRatio l1Gas executionGas : Nat}

theorem received_sender :
    received (settlementPayments env config feeTokenRatio l1Gas executionGas) .sender =
      refund env feeTokenRatio (executionGas + l1Gas) := by
  simp [settlementPayments, l1Payments, basePayments, operatorPayments, received_optional]

theorem received_fees (hl1 : config.l1FeeConfig = none → l1Gas = 0)
    (hpriced : env.baseFeePerGas.val + config.operatorFee ≤ env.gasPrice.val)
    (hratio : env.feeToken = none → saturatingMulU64 executionGas feeTokenRatio = executionGas) :
    let payments := settlementPayments env config feeTokenRatio l1Gas executionGas
    received payments .l1FeeVault + received payments .coinbase +
        (received payments .baseFeeVault + burned config env executionGas) +
        received payments .operatorFeeVault =
      (saturatingMulU64 l1Gas feeTokenRatio + saturatingMulU64 executionGas feeTokenRatio) *
        env.gasPrice.val := by
  have hl1Fee : (config.l1FeeConfig.elim 0 fun _ =>
      saturatingMulU64 l1Gas feeTokenRatio * env.gasPrice.val) =
      saturatingMulU64 l1Gas feeTokenRatio * env.gasPrice.val := by
    cases hconfig : config.l1FeeConfig with
    | none => simp [hl1 hconfig, saturatingMulU64]
    | some _ => rfl
  have hbase : ((config.baseFeeVault.or (if env.feeToken.isSome then some 0 else none)).elim 0
      fun _ => saturatingMulU64 executionGas feeTokenRatio * env.baseFeePerGas.val) +
        burned config env executionGas =
      saturatingMulU64 executionGas feeTokenRatio * env.baseFeePerGas.val := by
    rw [burned]
    cases hvault : config.baseFeeVault with
    | some vault => simp
    | none =>
      cases htoken : env.feeToken with
      | some token => simp
      | none => simp [hratio htoken]
  have hoperator : (config.operatorFeeConfig.elim 0 fun operator =>
      saturatingMulU64 executionGas feeTokenRatio * operator.operatorFeePerGas.val) =
      saturatingMulU64 executionGas feeTokenRatio * config.operatorFee := by
    rw [FeeConfig.operatorFee]
    cases config.operatorFeeConfig with
    | none => simp
    | some _ => rfl
  obtain ⟨priority, hpriority⟩ := Nat.exists_eq_add_of_le hpriced
  have hprice : priorityFeePerGas env config = priority := by
    rw [priorityFeePerGas]
    omega
  simp only [settlementPayments, l1Payments, basePayments, operatorPayments, received_append,
    received_optional, received_cons, received_nil, reduceCtorEq, if_true, if_false, Nat.add_zero,
    Nat.zero_add, hl1Fee, hbase, hoperator, hprice]
  rw [hpriority]
  ring

end Received

/-! ### When the settlement conserves -/

/-- The L1 part of the gas; zero when it cannot be computed, which the preparation excludes. -/
def l1FeeGas (config : FeeConfig) (env : Environment) (tx : Transaction) : Nat :=
  match calculateL1FeeGas env tx config.l1FeeConfig with
  | .ok l1Gas => l1Gas
  | .error _ => 0

def settledGas (config : FeeConfig) (env : Environment) (tx : Transaction) (outcome : Outcome) : Nat :=
  executionGas env tx outcome (outcome.gasUsed.val - l1FeeGas config env tx)

/-- The settlement succeeds, charges at most the gas limit, and what was taken minus the refund is
what the L1-fee vault, the coinbase, the base-fee vault or the burn, and the operator vault receive.
In ETH, every balance grows by what it is paid. -/
def Conserves (config : FeeConfig) (env : Environment) (tx : Transaction) (prepared : Prepared)
    (outcome : Outcome) : Prop :=
  ∃ ledger gas opening,
    finalizeNonPrivilegedExecution env config tx prepared outcome = .ok (ledger, gas) ∧
    openingBalances env tx prepared outcome = .ok opening ∧
    gas.gasSpent ≤ env.gasLimit.val ∧
    prepared.upFront = received ledger.payments .sender +
      (received ledger.payments .l1FeeVault + received ledger.payments .coinbase +
        (received ledger.payments .baseFeeVault +
          burned config env (gas.gasSpent - l1FeeGas config env tx)) +
        received ledger.payments .operatorFeeVault) ∧
    (env.feeToken = none → ∀ a, (ledger.balances a).val =
      (deleteSelfDestructAccounts env outcome opening a).val + credited ledger.payments a)

structure SettlementFits (config : FeeConfig) (env : Environment) (tx : Transaction) (ratio : U256)
    (prepared : Prepared) (outcome : Outcome) : Prop where
  /-- The gas price covers the base fee and the operator fee. -/
  priced : env.baseFeePerGas.val + config.operatorFee ≤ env.gasPrice.val
  /-- The gas of the L1 fee is part of the gas that was used. -/
  reserved : l1FeeGas config env tx ≤ outcome.gasUsed.val
  /-- The ratio and its products with both parts of the gas fit 64 bits. -/
  scaled : env.feeToken.isSome → ratio.val < 2 ^ 64 ∧
    settledGas config env tx outcome * ratio.val < 2 ^ 64 ∧
    l1FeeGas config env tx * ratio.val < 2 ^ 64
  /-- No balance overflows. -/
  balances : env.feeToken = none → ∀ opening, openingBalances env tx prepared outcome = .ok opening →
    ∀ a, (deleteSelfDestructAccounts env outcome opening a).val +
      credited (settlementPayments env config 1 (l1FeeGas config env tx)
        (settledGas config env tx outcome)) a < 2 ^ 256
  stateGas : StateGasFits env tx outcome

section Conservation

variable {ratio : U256} {prepared : Prepared} {l1Gas : Nat}
  (hprepared : Preparation config env tx ratio prepared l1Gas)

include hprepared

theorem Preparation.l1FeeGas_eq : l1FeeGas config env tx = l1Gas := by
  rw [l1FeeGas, hprepared.l1]

theorem Preparation.l1Gas_eq_zero (h : config.l1FeeConfig = none) : l1Gas = 0 := by
  have hl1 := hprepared.l1
  rw [h] at hl1
  exact (Except.ok.inj hl1).symm

variable {feeTokenRatio : Nat}

theorem Preparation.settlementRatio_eq_ok :
    settlementRatio env prepared.cachedFeeTokenRatio = .ok feeTokenRatio ↔
      if env.feeToken.isSome then ratio.val < 2 ^ 64 ∧ feeTokenRatio = ratio.val
      else feeTokenRatio = 1 := by
  rw [hprepared.cached]
  by_cases htoken : env.feeToken.isSome
  · rw [if_pos htoken, if_pos htoken, settlementRatio]
    split
    · rename_i hfits
      rw [Except.ok.injEq]
      exact ⟨fun heq => ⟨hfits, heq.symm⟩, fun heq => heq.2.symm⟩
    rename_i hlarge
    constructor
    · intro heq
      cases heq
    · exact fun heq => absurd heq.1 hlarge
  · rw [if_neg htoken, if_neg htoken, settlementRatio, if_neg htoken, Except.ok.injEq]
    exact eq_comm

theorem Preparation.finalize_eq_ok {ledger : Ledger} {gasSpent : Nat} :
    (∃ gasUsed, finalizeNonPrivilegedExecution env config tx prepared outcome =
        .ok (ledger, ⟨gasUsed, gasSpent⟩)) ↔
      l1Gas ≤ outcome.gasUsed.val ∧ settledGas config env tx outcome + l1Gas < 2 ^ 64 ∧
      ∃ opening feeTokenRatio, openingBalances env tx prepared outcome = .ok opening ∧
        settlementRatio env prepared.cachedFeeTokenRatio = .ok feeTokenRatio ∧
        ∃ gasUsed, applyFinalizeMutations env config tx outcome feeTokenRatio l1Gas
          (settledGas config env tx outcome) (settledGas config env tx outcome + l1Gas) opening =
            .ok (ledger, ⟨gasUsed, gasSpent⟩) := by
  simp only [finalizeNonPrivilegedExecution, bind_eq_ok, checkedSubU256_eq_ok, settledGas,
    hprepared.l1FeeGas_eq]
  constructor
  · rintro ⟨gasUsed, opening, hopening, l1Gas', hl1, _, ⟨hreserved, rfl⟩, h⟩
    obtain rfl : l1Gas = l1Gas' := Except.ok.inj (hprepared.l1.symm.trans hl1)
    split at h
    · cases h
    · rename_i hfits
      obtain ⟨feeTokenRatio, hratio, h⟩ := bind_eq_ok.1 h
      exact ⟨hreserved, by omega, opening, feeTokenRatio, hopening, hratio, gasUsed, h⟩
  · rintro ⟨hreserved, hfits, opening, feeTokenRatio, hopening, hratio, gasUsed, h⟩
    refine ⟨gasUsed, opening, hopening, l1Gas, hprepared.l1, _, ⟨hreserved, rfl⟩, ?_⟩
    rw [if_neg (by omega)]
    exact bind_eq_ok.2 ⟨feeTokenRatio, hratio, h⟩

omit hprepared in
theorem price_split_iff {price limit spent scale paid : Nat} (hle : spent ≤ limit) (hprice : 0 < price) :
    price * limit * scale = price * (limit - spent) * scale + paid * price ↔ paid = spent * scale := by
  obtain ⟨rest, rfl⟩ := Nat.exists_eq_add_of_le hle
  rw [Nat.add_sub_cancel_left]
  have hsplit : price * (spent + rest) * scale = price * rest * scale + spent * scale * price := by ring
  rw [hsplit, Nat.add_right_inj]
  exact ⟨fun h => (Nat.eq_of_mul_eq_mul_right hprice h).symm, fun h => by rw [h]⟩

theorem Preparation.upFront_eq_iff
    (hpriced : env.baseFeePerGas.val + config.operatorFee ≤ env.gasPrice.val)
    (hprice : 0 < env.gasPrice.val)
    (hbound : env.gasPrice.val * env.gasLimit.val * ratio.val < 2 ^ 256 ∨ env.feeToken = none)
    (hratio : if env.feeToken.isSome then feeTokenRatio = ratio.val else feeTokenRatio = 1)
    (hle : settledGas config env tx outcome + l1Gas ≤ env.gasLimit.val) :
    let payments := settlementPayments env config feeTokenRatio l1Gas
      (settledGas config env tx outcome)
    prepared.upFront = received payments .sender +
        (received payments .l1FeeVault + received payments .coinbase +
          (received payments .baseFeeVault + burned config env (settledGas config env tx outcome)) +
          received payments .operatorFeeVault) ↔
      saturatingMulU64 l1Gas feeTokenRatio +
          saturatingMulU64 (settledGas config env tx outcome) feeTokenRatio =
        (settledGas config env tx outcome + l1Gas) * feeTokenRatio := by
  have hsmall : settledGas config env tx outcome < 2 ^ 64 := by
    have := env.gasLimit.isLt
    omega
  intro payments
  rw [received_fees (fun h => hprepared.l1Gas_eq_zero h) hpriced, received_sender, hprepared.upFront,
    refund]
  · by_cases htoken : env.feeToken.isSome
    · rw [if_pos htoken] at hratio
      subst hratio
      have hfull : env.gasPrice.val * env.gasLimit.val * ratio.val < 2 ^ 256 := by
        rcases hbound with h | h
        · exact h
        · simp [h] at htoken
      have hrest : env.gasPrice.val * (env.gasLimit.val - (settledGas config env tx outcome + l1Gas)) *
          ratio.val < 2 ^ 256 := by
        refine Nat.lt_of_le_of_lt ?_ hfull
        gcongr
        omega
      rw [if_pos htoken, if_pos htoken, saturatingMulU256_of_lt hfull, saturatingMulU256_of_lt hrest]
      exact price_split_iff hle hprice
    · rw [if_neg htoken] at hratio
      subst hratio
      rw [if_neg htoken, if_neg htoken]
      have hsplit := @price_split_iff _ _ _ 1 (saturatingMulU64 l1Gas 1 +
        saturatingMulU64 (settledGas config env tx outcome) 1) hle hprice
      simpa only [Nat.mul_one] using hsplit
  · intro heth
    simp only [heth, Option.isSome_none, Bool.false_eq_true, if_false] at hratio
    rw [hratio, saturatingMulU64_of_lt (by omega), Nat.mul_one]

omit hprepared in
theorem productsFit_of_le {executionGas : Nat} (hle : executionGas + l1Gas ≤ env.gasLimit.val)
    (hpriced : env.baseFeePerGas.val + config.operatorFee ≤ env.gasPrice.val)
    (hproduct : env.gasPrice.val * env.gasLimit.val < 2 ^ 256)
    (hbound : env.gasPrice.val * env.gasLimit.val * feeTokenRatio < 2 ^ 256) :
    ProductsFit env config feeTokenRatio l1Gas executionGas := by
  have hscaled : ∀ gas rate, gas ≤ env.gasLimit.val → rate ≤ env.gasPrice.val →
      saturatingMulU64 gas feeTokenRatio * rate < 2 ^ 256 := by
    intro gas rate hgas hrate
    calc saturatingMulU64 gas feeTokenRatio * rate
        ≤ gas * feeTokenRatio * rate := Nat.mul_le_mul_right _ (saturatingMulU64_le _ _)
      _ ≤ env.gasLimit.val * feeTokenRatio * env.gasPrice.val := by gcongr
      _ = env.gasPrice.val * env.gasLimit.val * feeTokenRatio := by ring
      _ < 2 ^ 256 := hbound
  refine ⟨fun _ => hscaled _ _ (by omega) le_rfl, ?_, hscaled _ _ (by omega) ?_,
    fun _ => hscaled _ _ (by omega) (by omega), fun _ => hscaled _ _ (by omega) (by omega)⟩
  · refine Nat.lt_of_le_of_lt ?_ hproduct
    gcongr
    omega
  · rw [priorityFeePerGas]
    omega

variable (outcome) in
theorem Preparation.exists_opening :
    ∃ opening, openingBalances env tx prepared outcome = .ok opening := by
  rw [openingBalances]
  split
  · exact ⟨_, rfl⟩
  · exact hprepared.undone

/-- When the settlement fits, its ratio is exact and all its payments can be made. -/
theorem Preparation.exists_payments (hfits : SettlementFits config env tx ratio prepared outcome)
    (hle : settledGas config env tx outcome + l1Gas ≤ env.gasLimit.val) {opening : Balances}
    (hopening : openingBalances env tx prepared outcome = .ok opening) :
    ∃ feeTokenRatio, settlementRatio env prepared.cachedFeeTokenRatio = .ok feeTokenRatio ∧
      (if env.feeToken.isSome then feeTokenRatio = ratio.val else feeTokenRatio = 1) ∧
      saturatingMulU64 l1Gas feeTokenRatio +
          saturatingMulU64 (settledGas config env tx outcome) feeTokenRatio =
        (settledGas config env tx outcome + l1Gas) * feeTokenRatio ∧
      ∃ ledger, Ledger.payAll env
        (settlementPayments env config feeTokenRatio l1Gas (settledGas config env tx outcome))
        ⟨deleteSelfDestructAccounts env outcome opening, []⟩ = .ok ledger := by
  have hlimit := env.gasLimit.isLt
  by_cases htoken : env.feeToken.isSome
  · obtain ⟨hsmall, hgas, hl1Gas⟩ := hfits.scaled htoken
    rw [hprepared.l1FeeGas_eq] at hl1Gas
    refine ⟨ratio.val, ?_, by rw [if_pos htoken], ?_, _, payAll_token htoken _ _⟩
    · rw [hprepared.settlementRatio_eq_ok, if_pos htoken]
      exact ⟨hsmall, rfl⟩
    · rw [saturatingMulU64_of_lt hgas, saturatingMulU64_of_lt hl1Gas]
      ring
  · have heth : env.feeToken = none := by simpa using htoken
    have hroom := hfits.balances heth opening hopening
    rw [hprepared.l1FeeGas_eq] at hroom
    refine ⟨1, ?_, by rw [if_neg htoken], ?_,
      ⟨fun a => ⟨_, hroom a⟩,
        settlementPayments env config 1 l1Gas (settledGas config env tx outcome)⟩, ?_⟩
    · rw [hprepared.settlementRatio_eq_ok, if_neg htoken]
    · rw [saturatingMulU64_of_lt (by omega), saturatingMulU64_of_lt (by omega)]
      ring
    · exact (payAll_eth heth _ _ _).2 ⟨fun a => rfl, rfl⟩

end Conservation

/-- The settlement of a prepared transaction conserves the fee exactly when it fits. -/
theorem conserves_iff {ratio : U256} {balances : Balances} {prepared : Prepared}
    (hprepare : prepareExecution config env tx ratio balances = .ok prepared)
    (hprice : 0 < env.gasPrice.val)
    (hratio : env.feeToken.isSome → env.gasLimit.val * env.gasPrice.val * ratio.val < 2 ^ 256)
    (hused : outcome.gasUsed.val ≤ env.gasLimit.val) :
    Conserves config env tx prepared outcome ↔
      SettlementFits config env tx ratio prepared outcome := by
  obtain ⟨l1Gas, hprepared⟩ := preparation_of_ok hprepare
  have hl1 := hprepared.l1FeeGas_eq
  have hbound : env.gasPrice.val * env.gasLimit.val * ratio.val < 2 ^ 256 ∨ env.feeToken = none := by
    cases htoken : env.feeToken with
    | none => exact .inr rfl
    | some token =>
      left
      rw [Nat.mul_comm env.gasPrice.val]
      exact hratio (by simp [htoken])
  constructor
  · rintro ⟨ledger, ⟨gasUsed, gasSpent⟩, opening, hfinalize, hopening, hle, hsum, hbalances⟩
    obtain ⟨hreserved, -, opening', feeTokenRatio, hopening', hfeeRatio, happly⟩ :=
      hprepared.finalize_eq_ok.1 ⟨gasUsed, hfinalize⟩
    obtain rfl : opening = opening' := Except.ok.inj (hopening.symm.trans hopening')
    obtain ⟨rfl, hstate, hspent, hpriced, -, hpay⟩ := applyFinalizeMutations_eq_ok.1 happly
    rw [hprepared.settlementRatio_eq_ok] at hfeeRatio
    refine ⟨hpriced, hl1.symm ▸ hreserved, fun htoken => ?_, fun heth => ?_, hstate⟩
    · rw [if_pos htoken] at hfeeRatio
      obtain ⟨hsmall, rfl⟩ := hfeeRatio
      rw [payAll_token htoken, Except.ok.injEq] at hpay
      subst hpay
      rw [hl1] at hsum ⊢
      rw [Nat.add_sub_cancel] at hsum
      have hfull := (hprepared.upFront_eq_iff hpriced hprice hbound (by rw [if_pos htoken]) hspent).1 hsum
      have hl1Le := saturatingMulU64_le l1Gas ratio.val
      have hgasLe := saturatingMulU64_le (settledGas config env tx outcome) ratio.val
      rw [Nat.add_mul] at hfull
      exact ⟨hsmall, saturatingMulU64_eq_iff.1 (by omega), saturatingMulU64_eq_iff.1 (by omega)⟩
    · intro opening'' hopening'' a
      obtain rfl : opening = opening'' := Except.ok.inj (hopening.symm.trans hopening'')
      simp only [heth, Option.isSome_none, Bool.false_eq_true, if_false] at hfeeRatio
      subst hfeeRatio
      have hvalue := ((payAll_eth heth _ _ _).1 hpay).1 a
      rw [hl1, ← hvalue]
      exact (ledger.balances a).isLt
  · intro hfits
    have hreserved : l1Gas ≤ outcome.gasUsed.val := hl1 ▸ hfits.reserved
    have hle : settledGas config env tx outcome + l1Gas ≤ env.gasLimit.val := by
      rw [settledGas, hl1]
      exact executionGas_add_le hreserved hused hprepared.floor
    obtain ⟨opening, hopening⟩ := hprepared.exists_opening outcome
    obtain ⟨feeTokenRatio, hfeeRatio, hscale, hexact, ledger, hpay⟩ :=
      hprepared.exists_payments hfits hle hopening
    have hproducts : ProductsFit env config feeTokenRatio l1Gas (settledGas config env tx outcome) := by
      refine productsFit_of_le hle hfits.priced hprepared.product ?_
      by_cases htoken : env.feeToken.isSome
      · rw [if_pos htoken] at hscale
        rw [hscale, Nat.mul_comm env.gasPrice.val]
        exact hratio htoken
      · rw [if_neg htoken] at hscale
        rw [hscale, Nat.mul_one]
        exact hprepared.product
    obtain ⟨gasUsed, hfinalize⟩ := hprepared.finalize_eq_ok.2
      ⟨hreserved, by have := env.gasLimit.isLt; omega, opening, feeTokenRatio, hopening, hfeeRatio,
        applyFinalizeMutations_eq_ok.2 ⟨rfl, hfits.stateGas, hle, hfits.priced, hproducts, hpay⟩⟩
    have hpayments : ledger.payments = settlementPayments env config feeTokenRatio l1Gas
        (settledGas config env tx outcome) := by
      by_cases htoken : env.feeToken.isSome
      · rw [payAll_token htoken, Except.ok.injEq] at hpay
        rw [← hpay]
        rfl
      · exact ((payAll_eth (by simpa using htoken) _ _ _).1 hpay).2
    refine ⟨ledger, _, opening, hfinalize, hopening, hle, ?_, fun heth a => ?_⟩
    · rw [hl1, Nat.add_sub_cancel, hpayments]
      exact (hprepared.upFront_eq_iff hfits.priced hprice hbound hscale hle).2 hexact
    · rw [hpayments]
      exact ((payAll_eth heth _ _ _).1 hpay).1 a

/-! ### What a chain ensures -/

variable {ratio : U256} {balances : Balances} {prepared : Prepared}

/-- Additions of the fees that do not wrap around leave a price that covers them. -/
theorem priced_of_setupEnv {fork : Fork} {coinbase origin : Address} {baseFeePerGas : U64}
    (hsetup : setupEnv fork coinbase origin baseFeePerGas config tx = .ok env)
    (hprepare : prepareExecution config env tx ratio balances = .ok prepared)
    (hwrap : ∀ maxPriorityFee maxFee, tx.fees = .dynamic maxPriorityFee maxFee →
      maxPriorityFee.val + (baseFeePerGas.val + config.operatorFee) < 2 ^ 64) :
    env.baseFeePerGas.val + config.operatorFee ≤ env.gasPrice.val := by
  obtain ⟨_, hprepared⟩ := preparation_of_ok hprepare
  have hcovered := hprepared.covered
  obtain ⟨gasPrice, hgasPrice, hsetup⟩ := bind_eq_ok.1 hsetup
  cases hsetup
  cases hfees : tx.fees with
  | fixed price => simpa [hfees] using hcovered
  | dynamic maxPriorityFee maxFee =>
    have hsum := hwrap maxPriorityFee maxFee hfees
    have hfee : ((config.operatorFeeConfig.elim baseFeePerGas fun operator =>
        baseFeePerGas + operator.operatorFeePerGas) : U64).val =
        baseFeePerGas.val + config.operatorFee := by
      rw [FeeConfig.operatorFee] at hsum ⊢
      cases hconfig : config.operatorFeeConfig with
      | none => simp
      | some operator =>
        simp only [hconfig, Option.elim_some] at hsum ⊢
        exact Fin.val_add_eq_of_add_lt (by omega)
    simp only [calculateGasPriceForTx, hfees] at hgasPrice
    split at hgasPrice
    · cases hgasPrice
    rename_i hmaxFee
    cases hgasPrice
    rw [not_lt, Fin.le_def, hfee] at hmaxFee
    show (U256.ofU64 baseFeePerGas).val + config.operatorFee ≤ (U256.ofU64 (min _ maxFee)).val
    rw [U256.val_ofU64, U256.val_ofU64, ← hfee, ← Fin.le_def, le_min_iff, Fin.le_def, Fin.le_def,
      Fin.val_add_eq_of_add_lt (by omega), hfee]
    exact ⟨Nat.le_add_left _ _, hmaxFee⟩

theorem reserved_of_consumed
    (hprepare : prepareExecution config env tx ratio balances = .ok prepared)
    (hlimit : env.gasLimit.val < 2 ^ 63) (hintrinsic : tx.intrinsicGas.val < 2 ^ 63)
    (hl1 : l1FeeGas config env tx < 2 ^ 63)
    (hconsumed : env.gasLimit.val ≤ outcome.gasUsed.val + prepared.gasRemaining.toNat) :
    l1FeeGas config env tx ≤ outcome.gasUsed.val := by
  obtain ⟨l1Gas, hprepared⟩ := preparation_of_ok hprepare
  rw [hprepared.l1FeeGas_eq] at hl1 ⊢
  obtain ⟨gasBefore, hbefore, hafter⟩ := hprepared.charged
  rw [asI64_of_lt hlimit] at hbefore
  obtain ⟨hbefore, hnonneg⟩ := increaseConsumedGas_eq_some hlimit hintrinsic hbefore
  obtain ⟨gasBefore, rfl⟩ := Int.eq_ofNat_of_zero_le hnonneg
  obtain ⟨hafter, hnonneg'⟩ := increaseConsumedGas_eq_some (by omega) hl1 hafter
  omega

/-- Where neither the fee sums nor the gas counters wrap around, a settlement in the token fits
exactly when the scaled gas does. -/
theorem settlementFits_iff_token {fork : Fork} {coinbase origin : Address} {baseFeePerGas : U64}
    (hsetup : setupEnv fork coinbase origin baseFeePerGas config tx = .ok env)
    (hprepare : prepareExecution config env tx ratio balances = .ok prepared)
    (hwrap : ∀ maxPriorityFee maxFee, tx.fees = .dynamic maxPriorityFee maxFee →
      maxPriorityFee.val + (baseFeePerGas.val + config.operatorFee) < 2 ^ 64)
    (hlimit : env.gasLimit.val < 2 ^ 63) (hintrinsic : tx.intrinsicGas.val < 2 ^ 63)
    (hl1 : l1FeeGas config env tx < 2 ^ 63)
    (hconsumed : env.gasLimit.val ≤ outcome.gasUsed.val + prepared.gasRemaining.toNat)
    (htoken : env.feeToken.isSome) :
    SettlementFits config env tx ratio prepared outcome ↔
      (ratio.val < 2 ^ 64 ∧ settledGas config env tx outcome * ratio.val < 2 ^ 64 ∧
        l1FeeGas config env tx * ratio.val < 2 ^ 64) ∧ StateGasFits env tx outcome := by
  refine ⟨fun hfits => ⟨hfits.scaled htoken, hfits.stateGas⟩, fun h => ?_⟩
  refine ⟨priced_of_setupEnv hsetup hprepare hwrap,
    reserved_of_consumed hprepare hlimit hintrinsic hl1 hconsumed, fun _ => h.1, fun heth => ?_, h.2⟩
  rw [heth] at htoken
  cases htoken

/-! ### A token with a large ratio -/

def plainConfig : FeeConfig := ⟨none, none, none⟩

def tokenTx : Transaction where
  fees := .dynamic 1 10
  gasLimit := 2100000
  recipient := some 5
  value := 0
  feeToken := some 77
  length := 200
  minGasUsed := 21000
  intrinsicGas := 21000

def tokenEnv : Environment where
  fork := .prague
  origin := 1
  coinbase := 2
  gasLimit := 2100000
  gasPrice := 8
  baseFeePerGas := 7
  txMaxPriorityFeePerGas := some 1
  txMaxFeePerGas := some 10
  feeToken := some 77

/-- It uses its whole limit. -/
def tokenOutcome : Outcome where
  success := true
  gasUsed := 2100000
  refundedGas := 0
  balances := fun _ => 0
  selfDestructs := []
  gasRemaining := 0
  stateGasUsed := 0
  intrinsicStateGas := 0
  stateGasReservoirInitial := 0
  stateGasSpill := 0

/-- The coinbase and the burn together get the price of 2 ^ 64 - 1 units of gas, and the sender paid
for 2100000 * 10 ^ 13. -/
theorem tokenTx_not_conserved :
    setupEnv .prague 2 1 7 plainConfig tokenTx = .ok tokenEnv ∧
    ∃ prepared, prepareExecution plainConfig tokenEnv tokenTx 10000000000000 (fun _ => 0) =
        .ok prepared ∧
      0 < tokenEnv.gasPrice.val ∧
      tokenEnv.gasLimit.val * tokenEnv.gasPrice.val * 10000000000000 < 2 ^ 256 ∧
      tokenOutcome.gasUsed.val ≤ tokenEnv.gasLimit.val ∧
      ¬ Conserves plainConfig tokenEnv tokenTx prepared tokenOutcome := by
  refine ⟨rfl, _, rfl, by decide +kernel, by decide +kernel, by decide +kernel, ?_⟩
  rintro ⟨ledger, gas, opening, hfinalize, -, -, hsum, -⟩
  cases hfinalize
  revert hsum
  decide +kernel

theorem conserves_iff_tokenTx :
    ∃ prepared, prepareExecution plainConfig tokenEnv tokenTx 3 (fun _ => 0) = .ok prepared ∧
      (Conserves plainConfig tokenEnv tokenTx prepared tokenOutcome ↔
        SettlementFits plainConfig tokenEnv tokenTx 3 prepared tokenOutcome) := by
  obtain ⟨prepared, hprepare⟩ : ∃ prepared,
      prepareExecution plainConfig tokenEnv tokenTx 3 (fun _ => 0) = .ok prepared := ⟨_, rfl⟩
  refine ⟨prepared, hprepare, conserves_iff hprepare ?_ (fun _ => ?_) ?_⟩
  all_goals decide +kernel

end Ethrex.L2
