import Ethrex.Payload.Build

/-!
# Messages out of the L2

The messages that the bridge leaves in the logs of a block, and the balance diffs that settle the
messages between L2s.
-/

namespace Ethrex.Rollup

open Payload (Log Receipt)

def messengerAddress : Address := 0xfffe

def bridgeAddress : Address := 0xffff

def crosschainMintErc20Selector : Bytes := [0xf0, 0x26, 0x31, 0x95]

/-- A panic: an addition of `U256` that overflows. Those of `u64` and `usize` wrap around. -/
inductive Panic
  | arithmeticOverflow
  deriving DecidableEq, Repr

def slice (bytes : Bytes) (start stop : Nat) : Option Bytes :=
  if start ≤ stop ∧ stop ≤ bytes.length then some ((bytes.drop start).take (stop - start)) else none

def addressFromSlice (bytes : Bytes) : Address := Fin.ofNat (2 ^ 160) (Rlp.fromBeBytes bytes)

def u256FromBigEndian (bytes : Bytes) : U256 := Fin.ofNat (2 ^ 256) (Rlp.fromBeBytes bytes)

def addU256 (a b : U256) : Except Panic U256 :=
  if h : a.val + b.val < 2 ^ 256 then .ok ⟨a.val + b.val, h⟩ else .error .arithmeticOverflow

theorem addU256_eq_ok {a b c : U256} : addU256 a b = .ok c ↔ a.val + b.val = c.val := by
  rw [addU256]
  split_ifs with h
  · rw [Except.ok.injEq, Fin.ext_iff]
  constructor
  · intro heq
    cases heq
  · intro heq
    exact absurd (heq ▸ c.isLt) h

/-! ### Messages to the L1 -/

structure L1Message where
  /-- `from`. -/
  origin : Address
  dataHash : H256
  messageId : U256

def L1Message.encode (m : L1Message) : Bytes :=
  fixedBeBytes 20 m.origin ++ m.dataHash.bytes ++ fixedBeBytes 32 m.messageId

variable (keccak256 : Bytes → H256)

def getL1MessageHash (m : L1Message) : H256 := keccak256 m.encode

def l1MessageEventSelector : H256 :=
  keccak256 "L1Message(address,bytes32,uint256)".toUTF8.toList

def L1Message.fromLog (log : Log) : Option L1Message := do
  let origin ← log.topics[1]?
  let dataHash ← log.topics[2]?
  let messageId ← log.topics[3]?
  return {
    origin := addressFromSlice (origin.bytes.drop 12)
    dataHash := dataHash
    messageId := u256FromBigEndian messageId.bytes }

def getBlockL1Messages (receipts : List Receipt) : List L1Message :=
  receipts.flatMap fun receipt =>
    (receipt.logs.filter fun log =>
      log.address = messengerAddress ∧ l1MessageEventSelector keccak256 ∈ log.topics).filterMap
        L1Message.fromLog

/-! ### Messages to other L2s -/

structure L2Message where
  destChainId : U256
  sourceChainId : U64
  /-- `from`. -/
  origin : Address
  /-- `to`. -/
  recipient : Address
  value : U256
  gasLimit : U256
  txId : U256
  data : Bytes

def L2Message.encode (m : L2Message) : Bytes :=
  fixedBeBytes 32 m.sourceChainId ++ fixedBeBytes 20 m.origin ++ fixedBeBytes 20 m.recipient ++
    fixedBeBytes 32 m.txId ++ fixedBeBytes 32 m.value ++ fixedBeBytes 32 m.gasLimit ++
    (keccak256 m.data).bytes

def getL2MessageHash (m : L2Message) : H256 :=
  keccak256 (m.encode keccak256)

def l2MessageEventSelector : H256 :=
  keccak256
    "L2Message(uint256,address,address,uint256,uint256,uint256,bytes)".toUTF8.toList

/-- `224 + usize::try_from(calldata_len)`: the end of the data, when the length is a `usize`. -/
def calldataEnd (calldataLen : U256) : Option Nat :=
  if calldataLen.val < 2 ^ 64 then some ((224 + calldataLen.val) % 2 ^ 64) else none

/-- The words of a log in front of its data. -/
structure L2MessageWords where
  destChainId : H256
  origin : Bytes
  recipient : Bytes
  value : Bytes
  gasLimit : Bytes
  txId : Bytes
  calldataLen : Bytes

/-- The reads of `L2Message::from_log` up to the length of the data. -/
def L2MessageWords.fromLog (log : Log) : Option L2MessageWords := do
  let destChainId ← log.topics[1]?
  let origin ← slice log.data 0 32
  let recipient ← slice log.data 32 64
  let value ← slice log.data 64 96
  let gasLimit ← slice log.data 96 128
  let txId ← slice log.data 128 160
  -- 160 to 192 is the offset of the data
  let calldataLen ← slice log.data 192 224
  return { destChainId, origin, recipient, value, gasLimit, txId, calldataLen }

def L2MessageWords.message (words : L2MessageWords) (sourceChainId : U64) (calldata : Bytes) :
    L2Message :=
  { destChainId := u256FromBigEndian words.destChainId.bytes
    sourceChainId := sourceChainId
    origin := addressFromSlice (words.origin.drop 12)
    recipient := addressFromSlice (words.recipient.drop 12)
    value := u256FromBigEndian words.value
    gasLimit := u256FromBigEndian words.gasLimit
    txId := u256FromBigEndian words.txId
    data := calldata }

def L2Message.fromLog (log : Log) (sourceChainId : U64) : Option L2Message := do
  let words ← L2MessageWords.fromLog log
  let stop ← calldataEnd (u256FromBigEndian words.calldataLen)
  let calldata ← slice log.data 224 stop
  return words.message sourceChainId calldata

def getBlockL2OutMessages (receipts : List Receipt)
    (sourceChainId : U64) : List L2Message :=
  receipts.flatMap fun receipt =>
    (receipt.logs.filter fun log =>
      log.address = messengerAddress ∧
        log.topics.head? = some (l2MessageEventSelector keccak256) ∧
          2 ≤ log.topics.length).filterMap (L2Message.fromLog · sourceChainId)

structure AssetDiff where
  tokenL1 : Address
  tokenSrcL2 : Address
  tokenDstL2 : Address
  value : U256
  deriving DecidableEq, Repr

structure BalanceDiff where
  chainId : U256
  value : U256
  valuePerToken : List AssetDiff
  messageHashes : List H256
  deriving DecidableEq, Repr

/-- The reads of `get_balance_diffs` behind the selector: the tokens and the amount. -/
def decodeCrosschainMint (data : Bytes) : Option AssetDiff := do
  let tokenL1 ← slice data (4 + 12) (4 + 32)
  let tokenSrcL2 ← slice data (36 + 12) (36 + 32)
  let tokenDstL2 ← slice data (68 + 12) (68 + 32)
  let value ← slice data 132 (132 + 32)
  return {
    tokenL1 := addressFromSlice tokenL1
    tokenSrcL2 := addressFromSlice tokenSrcL2
    tokenDstL2 := addressFromSlice tokenDstL2
    value := u256FromBigEndian value }

/-- The data starts with the selector of `crosschainMintERC20`. -/
def IsCrosschainMint (data : Bytes) : Prop := slice data 0 4 = some crosschainMintErc20Selector

instance decidableIsCrosschainMint (data : Bytes) : Decidable (IsCrosschainMint data) :=
  inferInstanceAs (Decidable (_ = _))

/-- The ETH and the tokens that a message is counted for; none when it is skipped. -/
def decodeMessage (m : L2Message) : Option (U256 × Option AssetDiff) :=
  if IsCrosschainMint m.data then
    (decodeCrosschainMint m.data).map fun asset => (0, some asset)
  else if m.recipient = bridgeAddress ∧ m.origin = bridgeAddress then some (0, none)
  else some (m.value, none)

def AssetDiff.SameTokens (a b : AssetDiff) : Prop :=
  a.tokenL1 = b.tokenL1 ∧ a.tokenSrcL2 = b.tokenSrcL2 ∧ a.tokenDstL2 = b.tokenDstL2

instance decidableSameTokens (a b : AssetDiff) : Decidable (a.SameTokens b) :=
  inferInstanceAs (Decidable (_ ∧ _ ∧ _))

/-- The diff of the tokens with the amount added, at the first diff that is about them. -/
def addAsset (asset : AssetDiff) : List AssetDiff → Except Panic (List AssetDiff)
  | [] => .ok [asset]
  | existing :: rest =>
    if existing.SameTokens asset then
      (addU256 existing.value asset.value).map fun value => { existing with value } :: rest
    else (addAsset asset rest).map (existing :: ·)

def addAssets (assets : List AssetDiff) : Option AssetDiff → Except Panic (List AssetDiff)
  | some asset => addAsset asset assets
  | none => .ok assets

def BalanceDiff.add (entry : BalanceDiff) (m : L2Message) (value : U256)
    (asset : Option AssetDiff) : Except Panic BalanceDiff := do
  let valuePerToken ← addAssets entry.valuePerToken asset
  let value ← addU256 entry.value value
  return { entry with
    value, valuePerToken, messageHashes := entry.messageHashes ++ [getL2MessageHash keccak256 m] }

abbrev DiffMap := Std.ExtTreeMap U256 BalanceDiff

def DiffMap.entry (diffs : DiffMap) (chainId : U256) : BalanceDiff :=
  (diffs[chainId]?).getD { chainId, value := 0, valuePerToken := [], messageHashes := [] }

/-- The body of the loop of `get_balance_diffs`. -/
def DiffMap.add (keccak256 : Bytes → H256) (diffs : DiffMap) (m : L2Message) :
    Except Panic DiffMap :=
  match decodeMessage m with
  | none => .ok diffs
  | some (value, asset) =>
    ((diffs.entry m.destChainId).add keccak256 m value asset).map
      (diffs.insert m.destChainId ·)

def DiffMap.addAll (keccak256 : Bytes → H256) (diffs : DiffMap) :
    List L2Message → Except Panic DiffMap
  | [] => .ok diffs
  | m :: messages => do
    let diffs ← diffs.add keccak256 m
    diffs.addAll keccak256 messages

def getBalanceDiffs (messages : List L2Message) :
    Except Panic (List BalanceDiff) :=
  (DiffMap.addAll keccak256 ∅ messages).map fun diffs => diffs.toList.map (·.2)

end Ethrex.Rollup
