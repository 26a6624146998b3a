import Ethrex.Block.FrameChecks
import Ethrex.L2.FeeHook

/-!
# Settlement of frame transactions

The end of `VM::execute_frame_tx`: the gas of all frames is added up, the storage refund and the
calldata floor are applied, and what was charged too much goes back to the payer.
-/

namespace Ethrex.Levm

open List

open FrameTransaction (saturatingAdd saturatingMul)

/-- The errors of the settlement, with the halt of `APPROVE`. -/
inductive FrameTxError where
  | invalidOpcode
  | overflow
  | underflow
  deriving DecidableEq, Repr

def blobGasPerBlob : Nat := 131072

/-- The fields of the environment that the settlement reads. -/
structure FrameEnv where
  gasPrice : U256
  baseFeePerGas : U256
  baseBlobFeePerGas : U256

structure FrameSettlement where
  gasUsed : Nat
  charged : Nat
  blobBurn : Nat
  owed : Nat
  refundAmount : Nat
  coinbaseFee : Nat
  deriving DecidableEq, Repr

/-- `compute_tx_max_cost`: what `APPROVE` collects from the payer. -/
def computeTxMaxCost (tx : FrameTransaction) (blobBaseFee : U256) : Except FrameTxError Nat := do
  let gasCost ← okOr .invalidOpcode (checkedMulU256 tx.maxFeePerGas.val tx.maxGas)
  let blobGas ← okOr .invalidOpcode (checkedMulU256 tx.blobVersionedHashes.length 131072)
  let blobCost ← okOr .invalidOpcode (checkedMulU256 blobGas blobBaseFee.val)
  okOr .invalidOpcode (checkedAddU256 gasCost blobCost)

/-- The gas of all blobs; zero when it is not a `u64`. -/
def blobGasUsed (tx : FrameTransaction) : Nat :=
  if tx.blobVersionedHashes.length * blobGasPerBlob < 2 ^ 64 then
    tx.blobVersionedHashes.length * blobGasPerBlob
  else 0

/-- `calculate_blob_gas_cost`.  The number of hashes is always a `u64`. -/
def calculateBlobGasCost (tx : FrameTransaction) (baseBlobFeePerGas : U256) :
    Except FrameTxError Nat :=
  okOr .overflow (checkedMulU256 (blobGasUsed tx) baseBlobFeePerGas.val)

def intrinsicGas (tx : FrameTransaction) : Nat := saturatingAdd tx.mandatoryGas tx.dataCost

/-- `total_gas_used` behind the frames; a skipped frame used no gas. -/
def chargeFrames (total : Nat) (frameGasUsed : List Nat) : Except FrameTxError Nat :=
  frameGasUsed.foldlM (fun total gas => okOr .overflow (checkedAddU64 total gas)) total

/-- The gas that is paid for: the refund is at most a fifth, and the data costs at least its floor. -/
def settledGas (tx : FrameTransaction) (refundedGas totalGasUsed : Nat) : Nat :=
  let appliedRefund := min refundedGas (totalGasUsed / maxRefundQuotient)
  let dataAndExecution := totalGasUsed - appliedRefund - tx.mandatoryGas
  saturatingAdd tx.mandatoryGas (max dataAndExecution tx.calldataFloorGas)

def settleAmounts (env : FrameEnv) (tx : FrameTransaction) (gasUsed : Nat) :
    Except FrameTxError FrameSettlement := do
  let charged ← (computeTxMaxCost tx env.baseBlobFeePerGas).mapError fun _ => .overflow
  let blobBurn ← calculateBlobGasCost tx env.baseBlobFeePerGas
  let gasOwed ← okOr .overflow (checkedMulU256 env.gasPrice.val gasUsed)
  let owed ← okOr .overflow (checkedAddU256 gasOwed blobBurn)
  let refundAmount ← okOr .underflow (checkedSubU256 charged owed)
  let priorityFee := env.gasPrice.val - env.baseFeePerGas.val
  let coinbaseFee ← okOr .overflow (checkedMulU256 priorityFee gasUsed)
  return { gasUsed, charged, blobBurn, owed, refundAmount, coinbaseFee }

/-- The settlement of a frame transaction whose frames used the given gas. -/
def settle (env : FrameEnv) (tx : FrameTransaction) (refundedGas : Nat) (frameGasUsed : List Nat) :
    Except FrameTxError FrameSettlement := do
  let totalGasUsed ← chargeFrames (intrinsicGas tx) frameGasUsed
  settleAmounts env tx (settledGas tx refundedGas totalGasUsed)

/-- `setup_env_with_config`, for the fields that the settlement reads. -/
def setupFrameEnv (tx : FrameTransaction) (baseFeePerGas : U64) (baseBlobFeePerGas : U256)
    (config : L2.FeeConfig) : Except L2.HookError FrameEnv := do
  let gasPrice ← L2.calculateGasPriceForTx (.dynamic tx.maxPriorityFeePerGas tx.maxFeePerGas)
    baseFeePerGas config
  return { gasPrice, baseFeePerGas := L2.U256.ofU64 baseFeePerGas, baseBlobFeePerGas }

/-- The errors of the checks of the fees. -/
inductive FrameFeeError where
  | priorityGreaterThanMaxFeePerGas
  | insufficientMaxFeePerGas
  | insufficientMaxFeePerBlobGas
  deriving DecidableEq, Repr

/-- The checks of the fees in `execute_frame_tx`, before any frame runs. -/
def checkFrameFees (env : FrameEnv) (tx : FrameTransaction) : Except FrameFeeError Unit :=
  if tx.maxPriorityFeePerGas > tx.maxFeePerGas then .error .priorityGreaterThanMaxFeePerGas
  else if tx.maxFeePerGas.val < env.baseFeePerGas.val then .error .insufficientMaxFeePerGas
  else if !tx.blobVersionedHashes.isEmpty ∧ tx.maxFeePerBlobGas < env.baseBlobFeePerGas then
    .error .insufficientMaxFeePerBlobGas
  else .ok ()

variable {env : FrameEnv} {tx : FrameTransaction} {frameGasUsed : List Nat}
  {refundedGas gasUsed total charged : Nat}

section Saturating

variable {a b : Nat}

theorem le_saturatingAdd (h : a < 2 ^ 64) : a ≤ saturatingAdd a b := by
  rw [saturatingAdd]
  omega

theorem saturatingAdd_lt (a b : Nat) : saturatingAdd a b < 2 ^ 64 := by
  rw [saturatingAdd]
  omega

theorem foldl_saturatingAdd (frames : List Frame) (h : a < 2 ^ 64) :
    frames.foldl (fun acc frame => saturatingAdd acc frame.gasLimit.val) a =
      min (a + (frames.map fun frame => frame.gasLimit.val).sum) (2 ^ 64 - 1) := by
  induction frames generalizing a with
  | nil =>
    rw [foldl_nil, map_nil, sum_nil]
    omega
  | cons frame frames ih =>
    rw [foldl_cons, ih (saturatingAdd_lt _ _), map_cons, sum_cons, saturatingAdd]
    omega

end Saturating

theorem mandatoryGas_lt (tx : FrameTransaction) : tx.mandatoryGas < 2 ^ 64 := saturatingAdd_lt _ _

theorem mandatoryGas_pos (tx : FrameTransaction) : 0 < tx.mandatoryGas := by
  have hframes : 15000 ≤ saturatingAdd 15000 (saturatingMul tx.frames.length 475) :=
    le_saturatingAdd (by omega)
  have hsignatures : saturatingAdd 15000 (saturatingMul tx.frames.length 475) ≤ tx.mandatoryGas :=
    le_saturatingAdd (saturatingAdd_lt _ _)
  omega

/-- The running total of the gas is a `u64`. -/
def GasFits (tx : FrameTransaction) (frameGasUsed : List Nat) : Prop :=
  intrinsicGas tx + frameGasUsed.sum < 2 ^ 64

instance (tx : FrameTransaction) (frameGasUsed : List Nat) : Decidable (GasFits tx frameGasUsed) :=
  inferInstanceAs (Decidable (_ < _))

theorem chargeFrames_eq_ok (hstart : total < 2 ^ 64) {final : Nat} :
    chargeFrames total frameGasUsed = .ok final ↔
      total + frameGasUsed.sum < 2 ^ 64 ∧ final = total + frameGasUsed.sum := by
  induction frameGasUsed generalizing total with
  | nil =>
    rw [sum_nil]
    exact ⟨fun h => ⟨by omega, (Except.ok.inj h).symm⟩, fun h => congrArg _ h.2.symm⟩
  | cons gas frameGasUsed ih =>
    rw [chargeFrames, foldlM_cons, sum_cons, bind_eq_ok]
    constructor
    · rintro ⟨next, hnext, h⟩
      rw [okOr_eq_ok, checkedAddU64] at hnext
      split_ifs at hnext with hfits
      cases hnext
      obtain ⟨hsum, rfl⟩ := (ih hfits).1 h
      exact ⟨by omega, by omega⟩
    · rintro ⟨hsum, rfl⟩
      have hfits : total + gas < 2 ^ 64 := by omega
      refine ⟨total + gas, okOr_eq_ok.2 (checkedAddU64_of_lt hfits), (ih hfits).2 ?_⟩
      exact ⟨by omega, by omega⟩

theorem sum_frameGasUsed_le {frames : List Frame}
    (hused : List.Forall₂ (fun gas frame => gas ≤ frame.gasLimit.val) frameGasUsed frames) :
    frameGasUsed.sum ≤ (frames.map fun frame => frame.gasLimit.val).sum := by
  induction hused with
  | nil => rfl
  | cons hgas _ ih =>
    rw [sum_cons, map_cons, sum_cons]
    omega

/-- The intrinsic gas of an accepted transaction, from the number of its signatures and the length
of its data. -/
theorem intrinsicGas_le (haccepted : tx.validateStaticConstraints = .ok ()) :
    intrinsicGas tx ≤
      45400 + 6700 * tx.signatures.length + 16 * tx.dataFields.flatten.length := by
  have hframes : saturatingMul tx.frames.length 475 ≤ 30400 :=
    (Nat.min_le_left _ _).trans (by have := FrameTransaction.length_frames_le haccepted; omega)
  have hsignatures : tx.signatureVerificationCost ≤ 6700 * tx.signatures.length := by
    rw [FrameTransaction.signatureVerificationCost]
    refine (List.sum_le_card_nsmul _ 6700 fun cost hcost => ?_).trans ?_
    · obtain ⟨sig, -, rfl⟩ := mem_map.1 hcost
      split_ifs <;> omega
    · rw [length_map, smul_eq_mul, Nat.mul_comm]
  have hdata (bytes : Bytes) (cost : Nat) : bytes.foldl
      (fun acc byte => saturatingAdd acc (if byte = 0 then 4 else 16)) cost ≤
        cost + 16 * bytes.length := by
    induction bytes generalizing cost with
    | nil => exact Nat.le_refl _
    | cons byte bytes ih =>
      have hrest := ih (saturatingAdd cost (if byte = 0 then 4 else 16))
      have hstep : saturatingAdd cost (if byte = 0 then 4 else 16) ≤ cost + 16 :=
        (Nat.min_le_left _ _).trans (by split_ifs <;> omega)
      rw [foldl_cons, length_cons]
      omega
  have hcost : tx.dataCost ≤ 0 + 16 * tx.dataFields.flatten.length := hdata _ 0
  have hmandatory : tx.mandatoryGas ≤ 15000 + saturatingMul tx.frames.length 475 +
      tx.signatureVerificationCost :=
    (Nat.min_le_left _ _).trans (Nat.add_le_add_right (Nat.min_le_left _ _) _)
  have hsum : intrinsicGas tx ≤ tx.mandatoryGas + tx.dataCost := Nat.min_le_left _ _
  omega

/-- The checked additions of the frame loop succeed for every accepted transaction whose data and
signatures are of a size that can be held in memory, whatever gas its frames use. -/
theorem chargeFrames_of_accepted (haccepted : tx.validateStaticConstraints = .ok ())
    (hsignatures : tx.signatures.length ≤ 2 ^ 48) (hdata : tx.dataFields.flatten.length ≤ 2 ^ 58)
    (hused : List.Forall₂ (fun gas frame => gas ≤ frame.gasLimit.val) frameGasUsed tx.frames) :
    chargeFrames (intrinsicGas tx) frameGasUsed = .ok (intrinsicGas tx + frameGasUsed.sum) := by
  have hframes := sum_frameGasUsed_le hused
  have hlimits := FrameTransaction.sum_gasLimit_le haccepted
  have hintrinsic := intrinsicGas_le haccepted
  have hstart : intrinsicGas tx < 2 ^ 64 := saturatingAdd_lt _ _
  exact (chargeFrames_eq_ok hstart).2 ⟨by omega, rfl⟩

theorem mandatoryGas_le_settledGas (tx : FrameTransaction) (refundedGas total : Nat) :
    tx.mandatoryGas ≤ settledGas tx refundedGas total :=
  le_saturatingAdd (mandatoryGas_lt tx)

theorem settledGas_le_maxGas (hfits : GasFits tx frameGasUsed)
    (hused : List.Forall₂ (fun gas frame => gas ≤ frame.gasLimit.val) frameGasUsed tx.frames)
    (refundedGas : Nat) :
    settledGas tx refundedGas (intrinsicGas tx + frameGasUsed.sum) ≤ tx.maxGas := by
  have hframes := sum_frameGasUsed_le hused
  have hmandatory : tx.mandatoryGas ≤ intrinsicGas tx := le_saturatingAdd (mandatoryGas_lt tx)
  -- the two sides of the maximum are bounded by the two sides of `max_gas`
  have hexecution : intrinsicGas tx + frameGasUsed.sum ≤ tx.standardGasLimit := by
    rw [FrameTransaction.standardGasLimit, ← intrinsicGas, foldl_saturatingAdd _ (by omega),
      saturatingAdd]
    rw [GasFits] at hfits
    omega
  rw [FrameTransaction.maxGas, settledGas]
  generalize min refundedGas ((intrinsicGas tx + frameGasUsed.sum) / maxRefundQuotient) = refund
  rcases le_total (intrinsicGas tx + frameGasUsed.sum - refund - tx.mandatoryGas)
    tx.calldataFloorGas with hfloor | hfloor
  · rw [max_eq_right hfloor]
    exact le_max_right _ _
  · rw [max_eq_left hfloor]
    refine le_trans (Nat.min_le_left _ _) (le_trans ?_ (le_max_left _ _))
    omega

/-- What is paid to nobody: the base fee of the gas, and the blobs. -/
def FrameSettlement.burned (s : FrameSettlement) (env : FrameEnv) : Nat :=
  env.baseFeePerGas.val * s.gasUsed + s.blobBurn

/-- The settlement lies within what was reserved and charged, and divides up what was charged. -/
structure Settled (env : FrameEnv) (tx : FrameTransaction) (charged : Nat) (s : FrameSettlement) :
    Prop where
  mandatory : tx.mandatoryGas ≤ s.gasUsed
  reserved : s.gasUsed ≤ tx.maxGas
  owed : s.owed = env.gasPrice.val * s.gasUsed + s.blobBurn
  covered : s.owed ≤ charged
  conserved : s.refundAmount + s.coinbaseFee + s.burned env = charged

def SettlesExactly (env : FrameEnv) (tx : FrameTransaction) (refundedGas : Nat)
    (frameGasUsed : List Nat) (charged : Nat) : Prop :=
  ∃ s, settle env tx refundedGas frameGasUsed = .ok s ∧ Settled env tx charged s

theorem computeTxMaxCost_eq_ok {blobBaseFee : U256}
    (h : computeTxMaxCost tx blobBaseFee = .ok charged) :
    charged = tx.maxFeePerGas.val * tx.maxGas +
      tx.blobVersionedHashes.length * 131072 * blobBaseFee.val ∧ charged < 2 ^ 256 := by
  obtain ⟨gasCost, hgasCost, h⟩ := bind_eq_ok.1 h
  obtain ⟨blobGas, hblobGas, h⟩ := bind_eq_ok.1 h
  obtain ⟨blobCost, hblobCost, h⟩ := bind_eq_ok.1 h
  obtain ⟨rfl, -⟩ := checkedMulU256_eq_some (okOr_eq_ok.1 hgasCost)
  obtain ⟨rfl, -⟩ := checkedMulU256_eq_some (okOr_eq_ok.1 hblobGas)
  obtain ⟨rfl, -⟩ := checkedMulU256_eq_some (okOr_eq_ok.1 hblobCost)
  exact checkedAddU256_eq_some (okOr_eq_ok.1 h)

theorem blobGasUsed_le (tx : FrameTransaction) :
    blobGasUsed tx ≤ tx.blobVersionedHashes.length * 131072 := by
  rw [blobGasUsed, blobGasPerBlob]
  split_ifs
  · exact Nat.le_refl _
  · exact Nat.zero_le _

variable (hcharged : computeTxMaxCost tx env.baseBlobFeePerGas = .ok charged)
  (hprice : env.gasPrice.val ≤ tx.maxFeePerGas.val)

include hcharged hprice

/-- Within the reserved gas and the highest price nothing overflows and the charge covers all. -/
theorem settleAmounts_eq (hgas : gasUsed ≤ tx.maxGas) :
    env.gasPrice.val * gasUsed + blobGasUsed tx * env.baseBlobFeePerGas.val ≤ charged ∧
    settleAmounts env tx gasUsed = .ok {
      gasUsed, charged
      blobBurn := blobGasUsed tx * env.baseBlobFeePerGas.val
      owed := env.gasPrice.val * gasUsed + blobGasUsed tx * env.baseBlobFeePerGas.val
      refundAmount := charged -
        (env.gasPrice.val * gasUsed + blobGasUsed tx * env.baseBlobFeePerGas.val)
      coinbaseFee := (env.gasPrice.val - env.baseFeePerGas.val) * gasUsed } := by
  obtain ⟨hsum, hbound⟩ := computeTxMaxCost_eq_ok hcharged
  have hgasCost := Nat.mul_le_mul hprice hgas
  have hblobCost := Nat.mul_le_mul_right env.baseBlobFeePerGas.val (blobGasUsed_le tx)
  have hcoinbase := Nat.mul_le_mul_right gasUsed
    (Nat.sub_le env.gasPrice.val env.baseFeePerGas.val)
  have hcovered : env.gasPrice.val * gasUsed + blobGasUsed tx * env.baseBlobFeePerGas.val ≤
      charged := by omega
  refine ⟨hcovered, ?_⟩
  refine bind_eq_ok.2 ⟨charged, by rw [hcharged]; rfl, ?_⟩
  refine bind_eq_ok.2 ⟨_, okOr_eq_ok.2 (checkedMulU256_of_lt (by omega)), ?_⟩
  refine bind_eq_ok.2 ⟨_, okOr_eq_ok.2 (checkedMulU256_of_lt (by omega)), ?_⟩
  refine bind_eq_ok.2 ⟨_, okOr_eq_ok.2 (checkedAddU256_of_lt (by omega)), ?_⟩
  refine bind_eq_ok.2 ⟨_, okOr_eq_ok.2 (checkedSubU256_of_le hcovered), ?_⟩
  exact bind_eq_ok.2 ⟨_, okOr_eq_ok.2 (checkedMulU256_of_lt (by omega)), rfl⟩

/-- With the price at most its maximum, the settlement is exact if and only if the gas fits and the
price covers the base fee. -/
theorem settlesExactly_iff_price
    (hused : List.Forall₂ (fun gas frame => gas ≤ frame.gasLimit.val) frameGasUsed tx.frames) :
    SettlesExactly env tx refundedGas frameGasUsed charged ↔
      GasFits tx frameGasUsed ∧ env.baseFeePerGas.val ≤ env.gasPrice.val := by
  have hstart : intrinsicGas tx < 2 ^ 64 := saturatingAdd_lt _ _
  constructor
  · rintro ⟨s, hsettle, hsettled⟩
    obtain ⟨total, htotal, hsettle⟩ := bind_eq_ok.1 hsettle
    obtain ⟨hfits, rfl⟩ := (chargeFrames_eq_ok hstart).1 htotal
    refine ⟨hfits, ?_⟩
    obtain ⟨hcovered, hamounts⟩ := settleAmounts_eq hcharged hprice
      (settledGas_le_maxGas hfits hused refundedGas)
    obtain rfl := Except.ok.inj (hamounts.symm.trans hsettle)
    have hconserved := hsettled.conserved
    have hpositive := Nat.lt_of_lt_of_le (mandatoryGas_pos tx) hsettled.mandatory
    simp only [FrameSettlement.burned] at hconserved hpositive
    -- a price below the base fee pays the burned fees less than once
    by_contra hlow
    have hzero : env.gasPrice.val - env.baseFeePerGas.val = 0 := by omega
    rw [hzero, Nat.zero_mul] at hconserved
    have := Nat.mul_lt_mul_of_pos_right (not_le.1 hlow) hpositive
    omega
  · rintro ⟨hfits, hbase⟩
    have hreserved := settledGas_le_maxGas hfits hused refundedGas
    obtain ⟨hcovered, hamounts⟩ := settleAmounts_eq hcharged hprice hreserved
    refine ⟨_, bind_eq_ok.2 ⟨_, (chargeFrames_eq_ok hstart).2 ⟨hfits, rfl⟩, hamounts⟩, ?_⟩
    refine ⟨mandatoryGas_le_settledGas _ _ _, hreserved, rfl, hcovered, ?_⟩
    simp only [FrameSettlement.burned]
    have hsplit := Nat.mul_le_mul_right
      (settledGas tx refundedGas (intrinsicGas tx + frameGasUsed.sum)) hbase
    rw [Nat.sub_mul]
    omega

omit hcharged hprice

/-- The fees per gas that the price is made of, as a sum of `u64` values. -/
def feeSum (tx : FrameTransaction) (baseFeePerGas : U64) (config : L2.FeeConfig) : U64 :=
  tx.maxPriorityFeePerGas + config.operatorFeeConfig.elim baseFeePerGas fun operator =>
    baseFeePerGas + operator.operatorFeePerGas

variable {baseFeePerGas : U64} {config : L2.FeeConfig}

theorem baseFee_le_feeSum_iff (hconfig : config.operatorFeeConfig = none) :
    baseFeePerGas ≤ feeSum tx baseFeePerGas config ↔
      tx.maxPriorityFeePerGas.val + baseFeePerGas.val < 2 ^ 64 := by
  rw [feeSum, hconfig, Option.elim_none, Fin.le_def, Fin.val_add]
  have := tx.maxPriorityFeePerGas.isLt
  have := baseFeePerGas.isLt
  omega

theorem setupFrameEnv_eq_ok {baseBlobFeePerGas : U256}
    (h : setupFrameEnv tx baseFeePerGas baseBlobFeePerGas config = .ok env) :
    env = ⟨L2.U256.ofU64 (min (feeSum tx baseFeePerGas config) tx.maxFeePerGas),
      L2.U256.ofU64 baseFeePerGas, baseBlobFeePerGas⟩ := by
  obtain ⟨gasPrice, hgasPrice, h⟩ := bind_eq_ok.1 h
  cases h
  simp only [L2.calculateGasPriceForTx] at hgasPrice
  split_ifs at hgasPrice
  cases hgasPrice
  rfl

theorem gasPrice_covers {baseBlobFeePerGas : U256}
    (henv : setupFrameEnv tx baseFeePerGas baseBlobFeePerGas config = .ok env)
    (hfees : checkFrameFees env tx = .ok ()) :
    env.gasPrice.val ≤ tx.maxFeePerGas.val ∧
      (env.baseFeePerGas.val ≤ env.gasPrice.val ↔
        baseFeePerGas ≤ feeSum tx baseFeePerGas config) := by
  obtain rfl := setupFrameEnv_eq_ok henv
  have hmaxFee : baseFeePerGas ≤ tx.maxFeePerGas := by
    rw [checkFrameFees] at hfees
    split_ifs at hfees with _ hbase
    rw [L2.U256.val_ofU64] at hbase
    exact not_lt.1 hbase
  rw [L2.U256.val_ofU64, L2.U256.val_ofU64, ← Fin.le_def, ← Fin.le_def, le_min_iff,
    and_iff_left hmaxFee]
  exact ⟨min_le_right _ _, Iff.rfl⟩

/-- A frame transaction is settled exactly if and only if its gas fits a `u64` and the `u64` sum of
its fees covers the base fee. -/
theorem settlesExactly_iff {baseFeePerGas : U64} {baseBlobFeePerGas : U256} {config : L2.FeeConfig}
    (henv : setupFrameEnv tx baseFeePerGas baseBlobFeePerGas config = .ok env)
    (hfees : checkFrameFees env tx = .ok ())
    (hcharged : computeTxMaxCost tx env.baseBlobFeePerGas = .ok charged)
    (hused : List.Forall₂ (fun gas frame => gas ≤ frame.gasLimit.val) frameGasUsed tx.frames) :
    SettlesExactly env tx refundedGas frameGasUsed charged ↔
      GasFits tx frameGasUsed ∧ baseFeePerGas ≤ feeSum tx baseFeePerGas config := by
  obtain ⟨hprice, hcovers⟩ := gasPrice_covers henv hfees
  rw [settlesExactly_iff_price hcharged hprice hused, hcovers]

/-- Without an operator fee the sum covers the base fee exactly when it does not wrap around. -/
theorem settlesExactly_iff_no_wrap {baseFeePerGas : U64} {baseBlobFeePerGas : U256}
    {config : L2.FeeConfig}
    (henv : setupFrameEnv tx baseFeePerGas baseBlobFeePerGas config = .ok env)
    (hconfig : config.operatorFeeConfig = none) (hfees : checkFrameFees env tx = .ok ())
    (hcharged : computeTxMaxCost tx env.baseBlobFeePerGas = .ok charged)
    (hused : List.Forall₂ (fun gas frame => gas ≤ frame.gasLimit.val) frameGasUsed tx.frames) :
    SettlesExactly env tx refundedGas frameGasUsed charged ↔
      GasFits tx frameGasUsed ∧ tx.maxPriorityFeePerGas.val + baseFeePerGas.val < 2 ^ 64 := by
  obtain ⟨hprice, hcovers⟩ := gasPrice_covers henv hfees
  rw [settlesExactly_iff_price hcharged hprice hused, hcovers, baseFee_le_feeSum_iff hconfig]

/-- One `VERIFY` frame of an account that pays for itself, with the given fees. -/
def selfPaid (maxPriorityFeePerGas maxFeePerGas : U64) : FrameTransaction where
  chainId := 1
  nonce := 0
  sender := 1
  frames := [⟨1, 3, none, 100000, 0, []⟩]
  signatures := []
  maxPriorityFeePerGas := maxPriorityFeePerGas
  maxFeePerGas := maxFeePerGas
  maxFeePerBlobGas := 0
  blobVersionedHashes := []

/-- The same with a second frame that carries data, a signature and a blob. -/
def selfPaidCall : FrameTransaction :=
  { selfPaid 2 10 with
    frames := [⟨1, 3, none, 100000, 0, []⟩, ⟨2, 0, some 0xb0b, 200000, 0, [1, 2, 0, 0]⟩]
    signatures := [⟨1, some 1, [], List.replicate 65 7⟩]
    maxFeePerBlobGas := 3
    blobVersionedHashes := [.repeatByte 1] }

theorem chargeFrames_selfPaidCall :
    chargeFrames (intrinsicGas selfPaidCall) [20000, 150000] = .ok 189922 := by
  have htotal : intrinsicGas selfPaidCall + [20000, 150000].sum = 189922 := by decide +kernel
  rw [← htotal]
  exact chargeFrames_of_accepted (by decide +kernel) (by decide +kernel) (by decide +kernel)
    (.cons (by decide) (.cons (by decide) .nil))

/-- Of the refund of 40000 a fifth of the gas is paid back. -/
theorem settlesExactly_selfPaidCall :
    settledGas selfPaidCall 40000 189922 = 151938 ∧
    SettlesExactly ⟨9, 7, 1⟩ selfPaidCall 40000 [20000, 150000] 3330292 := by
  have henv : setupFrameEnv selfPaidCall 7 1 ⟨none, none, none⟩ = .ok ⟨9, 7, 1⟩ := rfl
  refine ⟨by decide +kernel,
    (settlesExactly_iff henv (by decide +kernel) (by decide +kernel) ?_).2 ?_⟩
  · exact .cons (by decide) (.cons (by decide) .nil)
  · exact ⟨by decide +kernel, by decide +kernel⟩

/-- With the highest fees the sum wraps around: the price is below the base fee, and the parts
exceed the charge. -/
theorem highest_fees_not_exact :
    (selfPaid (2 ^ 64 - 1) (2 ^ 64 - 1)).validateStaticConstraints = .ok () ∧
    setupFrameEnv (selfPaid (2 ^ 64 - 1) (2 ^ 64 - 1)) 7 1 ⟨none, none, none⟩ = .ok ⟨6, 7, 1⟩ ∧
    checkFrameFees ⟨6, 7, 1⟩ (selfPaid (2 ^ 64 - 1) (2 ^ 64 - 1)) = .ok () ∧
    GasFits (selfPaid (2 ^ 64 - 1) (2 ^ 64 - 1)) [20000] ∧
    computeTxMaxCost (selfPaid (2 ^ 64 - 1) (2 ^ 64 - 1)) 1 = .ok ((2 ^ 64 - 1) * 115475) ∧
    settle ⟨6, 7, 1⟩ (selfPaid (2 ^ 64 - 1) (2 ^ 64 - 1)) 0 [20000] =
      .ok ⟨35475, (2 ^ 64 - 1) * 115475, 0, 212850, (2 ^ 64 - 1) * 115475 - 212850, 0⟩ ∧
    ¬ SettlesExactly ⟨6, 7, 1⟩ (selfPaid (2 ^ 64 - 1) (2 ^ 64 - 1)) 0 [20000]
      ((2 ^ 64 - 1) * 115475) := by
  have hsettle : settle ⟨6, 7, 1⟩ (selfPaid (2 ^ 64 - 1) (2 ^ 64 - 1)) 0 [20000] =
      .ok ⟨35475, (2 ^ 64 - 1) * 115475, 0, 212850, (2 ^ 64 - 1) * 115475 - 212850, 0⟩ := by
    decide +kernel
  refine ⟨by decide +kernel, by rfl, by decide +kernel, by decide +kernel, by decide +kernel,
    hsettle, ?_⟩
  rintro ⟨s, h, hsettled⟩
  obtain rfl := Except.ok.inj (hsettle.symm.trans h)
  have := hsettled.conserved
  revert this
  decide +kernel

end Ethrex.Levm
