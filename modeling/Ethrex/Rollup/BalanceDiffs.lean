import Ethrex.Rollup.Messages
import Ethrex.Rlp.Unique

/-!
# Balance diffs and what the bridge took

`get_balance_diffs` reads from the data of a message whether it moves tokens, and users choose their
data. The diffs match what the bridge took exactly when no user chose the selector of token messages
for one that is worth something or too short.
-/

namespace Ethrex.Rollup

open List

variable {keccak256 : Bytes → H256}

/-! ### What the bridge sends -/

/-- The tokens of a transfer: on the L1, on the source and on the destination. -/
structure Tokens where
  l1 : Address
  srcL2 : Address
  dstL2 : Address
  deriving DecidableEq, Repr

def addressWord (address : Address) : Bytes := List.replicate 12 0 ++ fixedBeBytes 20 address

/-- The selector of `mintETH(address)`. -/
def mintEthSelector : Bytes := [0xb0, 0xf4, 0xd3, 0x95]

/-- The call data of `crosschainMintERC20`. -/
def crosschainMintErc20Data (tokens : Tokens) (recipient : Address) (amount : U256) : Bytes :=
  crosschainMintErc20Selector ++ addressWord tokens.l1 ++ addressWord tokens.srcL2 ++
    addressWord tokens.dstL2 ++ addressWord recipient ++ fixedBeBytes 32 amount

/-- A call that makes the bridge send a message to another L2. -/
inductive Sent
  /-- The first message of `sendToL2` when it is called with ETH. -/
  | mintEth (destChainId : U256) (sourceChainId : U64) (gasLimit txId value : U256)
      (sender : Address)
  /-- The message of `transferERC20`. -/
  | crosschainMintErc20 (destChainId : U256) (sourceChainId : U64) (gasLimit txId : U256)
      (tokens : Tokens) (recipient : Address) (amount : U256)
  /-- The message that `sendToL2` sends for its caller. -/
  | user (message : L2Message) (notBridge : message.origin ≠ bridgeAddress)

def Sent.message : Sent → L2Message
  | .mintEth destChainId sourceChainId gasLimit txId value sender =>
    { destChainId, sourceChainId, gasLimit, txId, value
      origin := bridgeAddress
      recipient := bridgeAddress
      data := mintEthSelector ++ addressWord sender }
  | .crosschainMintErc20 destChainId sourceChainId gasLimit txId tokens recipient amount =>
    { destChainId, sourceChainId, gasLimit, txId
      value := 0
      origin := bridgeAddress
      recipient := bridgeAddress
      data := crosschainMintErc20Data tokens recipient amount }
  | .user message _ => message

def Sent.eth : Sent → Nat
  | .user message _ => message.value
  | _ => 0

def Sent.amount (tokens : Tokens) : Sent → Nat
  | .crosschainMintErc20 _ _ _ _ tokens' _ amount => if tokens' = tokens then amount else 0
  | _ => 0

def totalTo {α : Type} (dest : α → U256) (amount : α → Nat) (chainId : U256) (xs : List α) : Nat :=
  (xs.map fun x => if dest x = chainId then amount x else 0).sum

def Sent.dest (sent : Sent) : U256 := sent.message.destChainId

def AssetDiff.tokens (asset : AssetDiff) : Tokens :=
  ⟨asset.tokenL1, asset.tokenSrcL2, asset.tokenDstL2⟩

def valueOf (tokens : Tokens) (assets : List AssetDiff) : Nat :=
  (assets.map fun asset => if asset.tokens = tokens then asset.value.val else 0).sum

/-- The diffs say what the bridge took: one for each chain with a message, in order, with the ETH,
the amounts of all tokens, and the hashes of all messages. -/
structure MatchesBridge (keccak256 : Bytes → H256) (sent : List Sent) (diffs : List BalanceDiff) :
    Prop where
  sorted : (diffs.map (·.chainId)).Pairwise (· < ·)
  chains : ∀ chainId, chainId ∈ diffs.map (·.chainId) ↔ chainId ∈ sent.map Sent.dest
  eth : ∀ diff ∈ diffs, diff.value.val = totalTo Sent.dest Sent.eth diff.chainId sent
  distinct : ∀ diff ∈ diffs, (diff.valuePerToken.map AssetDiff.tokens).Nodup
  tokens : ∀ diff ∈ diffs, ∀ tokens, valueOf tokens diff.valuePerToken =
    totalTo Sent.dest (Sent.amount tokens) diff.chainId sent
  hashes : ∀ diff ∈ diffs, diff.messageHashes =
    ((sent.map Sent.message).filter fun m => m.destChainId = diff.chainId).map
      (getL2MessageHash keccak256)

/-- A user's message with the selector of token messages is as long as one and worth nothing. -/
def Harmless : Sent → Prop
  | .user m _ => IsCrosschainMint m.data →
    164 ≤ m.data.length ∧ m.value = 0 ∧ u256FromBigEndian ((m.data.drop 132).take 32) = 0
  | _ => True

section Total

variable {α β : Type} {dest : α → U256} {f g : α → Nat} {chainId : U256} {xs ys : List α}

theorem totalTo_append : totalTo dest f chainId (xs ++ ys) =
    totalTo dest f chainId xs + totalTo dest f chainId ys := by
  rw [totalTo, map_append, sum_append]
  rfl

theorem totalTo_singleton (x : α) :
    totalTo dest f chainId [x] = if dest x = chainId then f x else 0 := by
  rw [totalTo, map_singleton, sum_singleton]

theorem totalTo_map {h : β → α} {ys : List β} {f : α → Nat} :
    totalTo dest f chainId (ys.map h) =
      totalTo (fun y => dest (h y)) (fun y => f (h y)) chainId ys := by
  rw [totalTo, map_map]
  rfl

theorem totalTo_congr (h : ∀ x ∈ xs, f x = g x) :
    totalTo dest f chainId xs = totalTo dest g chainId xs := by
  rw [totalTo, totalTo]
  congr 1
  apply map_congr_left
  intro x hx
  rw [h x hx]

theorem eq_of_totalTo_eq (hle : ∀ x ∈ xs, f x ≤ g x)
    (heq : totalTo dest f chainId xs = totalTo dest g chainId xs) :
    ∀ x ∈ xs, dest x = chainId → f x = g x := by
  have hmono (ys : List α) (hle : ∀ y ∈ ys, f y ≤ g y) :
      totalTo dest f chainId ys ≤ totalTo dest g chainId ys := by
    apply sum_le_sum
    intro y hy
    split_ifs
    · exact hle y hy
    · exact Nat.le_refl 0
  induction xs with
  | nil => exact fun x hx => absurd hx not_mem_nil
  | cons y ys ih =>
    have hy := hle y mem_cons_self
    have hys := hmono ys fun x hx => hle x (mem_cons_of_mem y hx)
    rw [← singleton_append, totalTo_append, totalTo_append, totalTo_singleton,
      totalTo_singleton] at heq
    have hrest : totalTo dest f chainId ys = totalTo dest g chainId ys := by
      split_ifs at heq <;> omega
    intro x hx hdest
    rcases mem_cons.1 hx with rfl | hx
    · rw [if_pos hdest, if_pos hdest] at heq
      omega
    · exact ih (fun x hx => hle x (mem_cons_of_mem y hx)) hrest x hx hdest

end Total

section Assets

variable {asset : AssetDiff} {assets assets' : List AssetDiff} {tokens : Tokens}

theorem sameTokens_iff {a b : AssetDiff} : a.SameTokens b ↔ a.tokens = b.tokens := by
  rw [AssetDiff.SameTokens, AssetDiff.tokens, AssetDiff.tokens, Tokens.mk.injEq]

theorem valueOf_cons : valueOf tokens (asset :: assets) =
    (if asset.tokens = tokens then asset.value.val else 0) + valueOf tokens assets := by
  rw [valueOf, map_cons, sum_cons]
  rfl

theorem valueOf_singleton : valueOf tokens [asset] =
    if asset.tokens = tokens then asset.value.val else 0 := by
  rw [valueOf_cons]
  exact Nat.add_zero _

theorem exists_addU256 {a b : U256} (h : a.val + b.val < 2 ^ 256) : ∃ c, addU256 a b = .ok c :=
  ⟨_, dif_pos h⟩

variable (h : addAsset asset assets = .ok assets')

include h

theorem valueOf_addAsset :
    valueOf tokens assets' =
      valueOf tokens assets + if asset.tokens = tokens then asset.value.val else 0 := by
  induction assets generalizing assets' with
  | nil =>
    cases h
    rw [valueOf_cons, Nat.add_comm]
  | cons existing rest ih =>
    rw [addAsset] at h
    split_ifs at h with hsame
    · rw [sameTokens_iff] at hsame
      obtain ⟨value, hadd, rfl⟩ := map_eq_ok.1 h
      have hvalue := addU256_eq_ok.1 hadd
      rw [valueOf_cons, valueOf_cons, ← hsame]
      show (if existing.tokens = tokens then value.val else 0) + _ = _
      split_ifs <;> omega
    · obtain ⟨rest', hadd, rfl⟩ := map_eq_ok.1 h
      rw [valueOf_cons, valueOf_cons, ih hadd]
      omega

theorem tokens_addAsset :
    assets'.map AssetDiff.tokens = if asset.tokens ∈ assets.map AssetDiff.tokens
      then assets.map AssetDiff.tokens else assets.map AssetDiff.tokens ++ [asset.tokens] := by
  induction assets generalizing assets' with
  | nil =>
    cases h
    rfl
  | cons existing rest ih =>
    rw [addAsset] at h
    split_ifs at h with hsame
    · rw [sameTokens_iff] at hsame
      obtain ⟨value, -, rfl⟩ := map_eq_ok.1 h
      rw [map_cons, map_cons, ← hsame, if_pos mem_cons_self]
      rfl
    · rw [sameTokens_iff] at hsame
      obtain ⟨rest', hadd, rfl⟩ := map_eq_ok.1 h
      rw [map_cons, map_cons, ih hadd]
      by_cases hmem : asset.tokens ∈ rest.map AssetDiff.tokens
      · rw [if_pos hmem, if_pos (mem_cons_of_mem _ hmem)]
      · rw [if_neg hmem, if_neg fun h => hmem ((mem_cons.1 h).resolve_left (Ne.symm hsame))]
        rfl

theorem nodup_addAsset (hnodup : (assets.map AssetDiff.tokens).Nodup) :
    (assets'.map AssetDiff.tokens).Nodup := by
  rw [tokens_addAsset h]
  split_ifs with hmem
  · exact hnodup
  · rw [← concat_eq_append]
    exact hnodup.concat hmem

omit h

theorem exists_addAsset (h : valueOf asset.tokens assets + asset.value.val < 2 ^ 256) :
    ∃ assets', addAsset asset assets = .ok assets' := by
  induction assets with
  | nil => exact ⟨_, rfl⟩
  | cons existing rest ih =>
    rw [valueOf_cons] at h
    rw [addAsset]
    split_ifs with hsame
    · rw [if_pos (sameTokens_iff.1 hsame)] at h
      obtain ⟨value, hadd⟩ := exists_addU256 (a := existing.value) (b := asset.value) (by omega)
      rw [hadd]
      exact ⟨_, rfl⟩
    · obtain ⟨rest', hadd⟩ := ih (by omega)
      rw [hadd]
      exact ⟨_, rfl⟩

variable {asset : Option AssetDiff}

theorem valueOf_addAssets (h : addAssets assets asset = .ok assets') :
    valueOf tokens assets' = valueOf tokens assets + valueOf tokens asset.toList := by
  cases asset with
  | none =>
    cases h
    rfl
  | some asset =>
    rw [valueOf_addAsset h]
    rfl

theorem nodup_addAssets (h : addAssets assets asset = .ok assets')
    (hnodup : (assets.map AssetDiff.tokens).Nodup) : (assets'.map AssetDiff.tokens).Nodup := by
  cases asset with
  | none =>
    cases h
    exact hnodup
  | some asset => exact nodup_addAsset h hnodup

theorem exists_addAssets
    (h : ∀ tokens, valueOf tokens assets + valueOf tokens asset.toList < 2 ^ 256) :
    ∃ assets', addAssets assets asset = .ok assets' := by
  cases asset with
  | none => exact ⟨assets, rfl⟩
  | some asset =>
    apply exists_addAsset
    have hvalue := h asset.tokens
    rwa [Option.toList_some, valueOf_singleton, if_pos rfl] at hvalue

end Assets

/-! ### The run over the messages -/

def countedEth (m : L2Message) : Nat :=
  match decodeMessage m with
  | some (value, _) => value.val
  | none => 0

def countedAmount (tokens : Tokens) (m : L2Message) : Nat :=
  match decodeMessage m with
  | some (_, asset) => valueOf tokens asset.toList
  | none => 0

def Kept (m : L2Message) : Prop := (decodeMessage m).isSome

instance decidableKept (m : L2Message) : Decidable (Kept m) := inferInstanceAs (Decidable (_ = true))

/-- The diffs count the messages that were read. -/
structure Tallied (keccak256 : Bytes → H256) (ms : List L2Message) (diffs : DiffMap) : Prop where
  present : ∀ chainId, (diffs[chainId]?).isSome ↔ ∃ m ∈ ms, m.destChainId = chainId ∧ Kept m
  chainId : ∀ chainId, (diffs.entry chainId).chainId = chainId
  eth : ∀ chainId, (diffs.entry chainId).value.val =
    totalTo L2Message.destChainId countedEth chainId ms
  distinct : ∀ chainId, ((diffs.entry chainId).valuePerToken.map AssetDiff.tokens).Nodup
  tokens : ∀ chainId tokens, valueOf tokens (diffs.entry chainId).valuePerToken =
    totalTo L2Message.destChainId (countedAmount tokens) chainId ms
  hashes : ∀ chainId, (diffs.entry chainId).messageHashes =
    (ms.filter fun m => m.destChainId = chainId ∧ Kept m).map (getL2MessageHash keccak256)

theorem tallied_nil : Tallied keccak256 [] ∅ where
  present chainId := by simp
  chainId _ := rfl
  eth _ := rfl
  distinct _ := nodup_nil
  tokens _ _ := rfl
  hashes _ := rfl

theorem getElem?_insert (diffs : DiffMap) (k chainId : U256) (diff : BalanceDiff) :
    (diffs.insert k diff)[chainId]? = if k = chainId then some diff else diffs[chainId]? := by
  rw [Std.ExtTreeMap.getElem?_insert]
  by_cases h : k = chainId
  · rw [if_pos h, if_pos (by rw [compare_eq_iff_eq]; exact h)]
  · rw [if_neg h, if_neg (by rw [compare_eq_iff_eq]; exact h)]

theorem entry_insert (diffs : DiffMap) (k chainId : U256) (diff : BalanceDiff) :
    DiffMap.entry (diffs.insert k diff) chainId =
      if k = chainId then diff else diffs.entry chainId := by
  rw [DiffMap.entry, getElem?_insert]
  split_ifs <;> rfl

variable {m : L2Message}

theorem BalanceDiff.add_eq_ok {entry entry' : BalanceDiff} {value : U256} {asset : Option AssetDiff}
    (h : entry.add keccak256 m value asset = .ok entry') :
    ∃ assets total, addAssets entry.valuePerToken asset = .ok assets ∧
      addU256 entry.value value = .ok total ∧
      entry' = { entry with
        value := total
        valuePerToken := assets
        messageHashes := entry.messageHashes ++ [getL2MessageHash keccak256 m] } := by
  obtain ⟨assets, hassets, h⟩ := bind_eq_ok.1 h
  obtain ⟨total, htotal, h⟩ := bind_eq_ok.1 h
  cases h
  exact ⟨assets, total, hassets, htotal, rfl⟩

section Step

variable {ms : List L2Message} {m : L2Message} {diffs diffs' : DiffMap}

variable (h : Tallied keccak256 ms diffs)

include h

theorem Tallied.skip (hskip : decodeMessage m = none) :
    Tallied keccak256 (ms ++ [m]) diffs := by
  have hkept : ¬ Kept m := by
    rw [Kept, hskip]
    exact Bool.false_ne_true
  have heth : countedEth m = 0 := by rw [countedEth, hskip]
  have hamount (tokens) : countedAmount tokens m = 0 := by rw [countedAmount, hskip]
  refine { h with present := ?_, eth := ?_, tokens := ?_, hashes := ?_ }
  · intro chainId
    rw [h.present]
    simp [or_and_right, exists_or, hkept]
  · intro chainId
    rw [h.eth, totalTo_append, totalTo_singleton, heth, ite_self, Nat.add_zero]
  · intro chainId tokens
    rw [h.tokens, totalTo_append, totalTo_singleton, hamount, ite_self, Nat.add_zero]
  · intro chainId
    rw [h.hashes, filter_append, filter_cons_of_neg (by simp [hkept]), filter_nil,
      append_nil]

theorem Tallied.insert {value total : U256} {asset : Option AssetDiff} {assets : List AssetDiff}
    (hdecode : decodeMessage m = some (value, asset))
    (hassets : addAssets (diffs.entry m.destChainId).valuePerToken asset = .ok assets)
    (htotal : addU256 (diffs.entry m.destChainId).value value = .ok total) :
    Tallied keccak256 (ms ++ [m]) (diffs.insert m.destChainId
      { diffs.entry m.destChainId with
        value := total
        valuePerToken := assets
        messageHashes := (diffs.entry m.destChainId).messageHashes ++
          [getL2MessageHash keccak256 m] }) := by
  have hkept : Kept m := by
    rw [Kept, hdecode]
    rfl
  have heth : countedEth m = value.val := by rw [countedEth, hdecode]
  have hamount (tokens) : countedAmount tokens m = valueOf tokens asset.toList := by
    rw [countedAmount, hdecode]
  constructor
  · intro chainId
    rw [getElem?_insert]
    split_ifs with hchain
    · refine iff_of_true rfl ⟨m, ?_, hchain, hkept⟩
      exact mem_append.2 (Or.inr mem_cons_self)
    · rw [h.present]
      simp [or_and_right, exists_or, hchain]
  · intro chainId
    rw [entry_insert]
    split_ifs with hchain
    · rw [← hchain]
      exact h.chainId _
    · exact h.chainId chainId
  · intro chainId
    rw [entry_insert, totalTo_append, totalTo_singleton, heth, ← h.eth]
    split_ifs with hchain
    · rw [← hchain]
      exact (addU256_eq_ok.1 htotal).symm
    · rfl
  · intro chainId
    rw [entry_insert]
    split_ifs with hchain
    · exact nodup_addAssets hassets (h.distinct _)
    · exact h.distinct chainId
  · intro chainId tokens
    rw [entry_insert, totalTo_append, totalTo_singleton, hamount, ← h.tokens]
    split_ifs with hchain
    · rw [← hchain]
      exact valueOf_addAssets hassets
    · rfl
  · intro chainId
    rw [entry_insert, filter_append, map_append, ← h.hashes]
    split_ifs with hchain
    · rw [filter_cons_of_pos (by simp [hchain, hkept]), ← hchain]
      rfl
    · rw [filter_cons_of_neg (by simp [hchain])]
      exact (append_nil _).symm

theorem Tallied.add (hadd : diffs.add keccak256 m = .ok diffs') :
    Tallied keccak256 (ms ++ [m]) diffs' := by
  rw [DiffMap.add] at hadd
  cases hdecode : decodeMessage m with
  | none =>
    rw [hdecode] at hadd
    cases hadd
    exact h.skip hdecode
  | some counted =>
    obtain ⟨value, asset⟩ := counted
    rw [hdecode] at hadd
    obtain ⟨entry, hentry, rfl⟩ := map_eq_ok.1 hadd
    obtain ⟨assets, total, hassets, htotal, rfl⟩ := BalanceDiff.add_eq_ok hentry
    exact h.insert hdecode hassets htotal

theorem Tallied.exists_add
    (heth : ∀ chainId, totalTo L2Message.destChainId countedEth chainId (ms ++ [m]) < 2 ^ 256)
    (htokens : ∀ chainId tokens,
      totalTo L2Message.destChainId (countedAmount tokens) chainId (ms ++ [m]) < 2 ^ 256) :
    ∃ diffs', diffs.add keccak256 m = .ok diffs' := by
  rw [DiffMap.add]
  cases hdecode : decodeMessage m with
  | none => exact ⟨diffs, rfl⟩
  | some counted =>
    obtain ⟨value, asset⟩ := counted
    have hvalue := heth m.destChainId
    rw [totalTo_append, totalTo_singleton, if_pos rfl, ← h.eth, countedEth, hdecode] at hvalue
    obtain ⟨assets, hassets⟩ : ∃ assets,
        addAssets (diffs.entry m.destChainId).valuePerToken asset = .ok assets := by
      apply exists_addAssets
      intro tokens
      have hamount := htokens m.destChainId tokens
      rwa [totalTo_append, totalTo_singleton, if_pos rfl, ← h.tokens, countedAmount,
        hdecode] at hamount
    obtain ⟨total, htotal⟩ := exists_addU256 hvalue
    obtain ⟨entry, hentry⟩ : ∃ entry,
        (diffs.entry m.destChainId).add keccak256 m value asset = .ok entry := by
      rw [BalanceDiff.add, hassets, htotal]
      exact ⟨_, rfl⟩
    exact ⟨_, congrArg (Except.map _) hentry⟩

variable {rest : List L2Message}

theorem Tallied.addAll (hadd : diffs.addAll keccak256 rest = .ok diffs') :
    Tallied keccak256 (ms ++ rest) diffs' := by
  induction rest generalizing ms diffs with
  | nil =>
    cases hadd
    rwa [append_nil]
  | cons m rest ih =>
    obtain ⟨next, hstep, hadd⟩ := bind_eq_ok.1 hadd
    have := ih (h.add hstep) hadd
    rwa [append_assoc] at this

theorem Tallied.exists_addAll
    (heth : ∀ chainId, totalTo L2Message.destChainId countedEth chainId (ms ++ rest) < 2 ^ 256)
    (htokens : ∀ chainId tokens,
      totalTo L2Message.destChainId (countedAmount tokens) chainId (ms ++ rest) < 2 ^ 256) :
    ∃ diffs', diffs.addAll keccak256 rest = .ok diffs' := by
  induction rest generalizing ms diffs with
  | nil => exact ⟨diffs, rfl⟩
  | cons m rest ih =>
    rw [← singleton_append, ← append_assoc] at heth htokens
    obtain ⟨next, hstep⟩ := h.exists_add (m := m)
      (fun chainId => by
        have := heth chainId
        rw [totalTo_append] at this
        omega)
      (fun chainId tokens => by
        have := htokens chainId tokens
        rw [totalTo_append] at this
        omega)
    obtain ⟨diffs', hrest⟩ := ih (h.add hstep) heth htokens
    refine ⟨diffs', ?_⟩
    rw [DiffMap.addAll, hstep]
    exact hrest

end Step

/-! ### The messages of the bridge and of users -/

theorem slice_eq {bytes : Bytes} {start stop : Nat} (h : start ≤ stop ∧ stop ≤ bytes.length) :
    slice bytes start stop = some ((bytes.drop start).take (stop - start)) :=
  if_pos h

theorem decodeCrosschainMint_eq (data : Bytes) : decodeCrosschainMint data =
    if 164 ≤ data.length then
      some {
        tokenL1 := addressFromSlice ((data.drop 16).take 20)
        tokenSrcL2 := addressFromSlice ((data.drop 48).take 20)
        tokenDstL2 := addressFromSlice ((data.drop 80).take 20)
        value := u256FromBigEndian ((data.drop 132).take 32) }
    else none := by
  split_ifs with h
  · rw [decodeCrosschainMint, slice_eq (by omega), slice_eq (by omega), slice_eq (by omega),
      slice_eq (by omega)]
    rfl
  rw [decodeCrosschainMint]
  have hvalue : slice data 132 (132 + 32) = none := if_neg (by omega)
  rw [hvalue]
  cases slice data (4 + 12) (4 + 32) with
  | none => rfl
  | some tokenL1 =>
    cases slice data (36 + 12) (36 + 32) with
    | none => rfl
    | some tokenSrcL2 => cases slice data (68 + 12) (68 + 32) <;> rfl

theorem exists_decodeCrosschainMint {data : Bytes} (h : 164 ≤ data.length) :
    ∃ asset, decodeCrosschainMint data = some asset ∧
      asset.value = u256FromBigEndian ((data.drop 132).take 32) := by
  rw [decodeCrosschainMint_eq, if_pos h]
  exact ⟨_, rfl, rfl⟩

theorem addressFromSlice_fixedBeBytes (address : Address) :
    addressFromSlice (fixedBeBytes 20 address) = address := by
  apply Fin.ext
  show Rlp.fromBeBytes (fixedBeBytes 20 address) % 2 ^ 160 = address
  rw [Rlp.fromBeBytes_fixedBeBytes]
  have := address.isLt
  omega

theorem u256FromBigEndian_fixedBeBytes (n : U256) :
    u256FromBigEndian (fixedBeBytes 32 n) = n := by
  apply Fin.ext
  show Rlp.fromBeBytes (fixedBeBytes 32 n) % 2 ^ 256 = n
  rw [Rlp.fromBeBytes_fixedBeBytes]
  have := n.isLt
  omega

theorem decodeMessage_mintEth (destChainId : U256) (sourceChainId : U64)
    (gasLimit txId value : U256) (sender : Address) :
    decodeMessage (Sent.mintEth destChainId sourceChainId gasLimit txId value sender).message =
      some (0, none) := by
  have hdata : ¬ IsCrosschainMint
      (Sent.mintEth destChainId sourceChainId gasLimit txId value sender).message.data := by
    show ¬ slice (mintEthSelector ++ addressWord sender) 0 4 = _
    rw [slice_eq ⟨by omega, by simp [mintEthSelector]⟩]
    simp [mintEthSelector, crosschainMintErc20Selector]
  rw [decodeMessage, if_neg hdata, if_pos ⟨rfl, rfl⟩]

theorem length_addressWord (address : Address) : (addressWord address).length = 32 := by
  rw [addressWord, length_append, length_replicate, length_fixedBeBytes]

section MintData

variable (tokens : Tokens) (recipient : Address) (amount : U256)

theorem length_crosschainMintErc20Data :
    (crosschainMintErc20Data tokens recipient amount).length = 164 := by
  simp [crosschainMintErc20Data, length_addressWord, length_fixedBeBytes,
    crosschainMintErc20Selector]

theorem isCrosschainMint_crosschainMintErc20Data :
    IsCrosschainMint (crosschainMintErc20Data tokens recipient amount) := by
  have hlength := length_crosschainMintErc20Data tokens recipient amount
  rw [IsCrosschainMint, slice_eq (by omega), crosschainMintErc20Data]
  simp only [append_assoc, drop_zero]
  exact congrArg some (take_left' rfl)

theorem addressFromSlice_word {data : Bytes} {n : Nat} {address : Address} (before after : Bytes)
    (hdata : data = before ++ (addressWord address ++ after)) (hn : before.length + 12 = n) :
    addressFromSlice ((data.drop n).take 20) = address := by
  have hword : data = (before ++ List.replicate 12 0) ++ (fixedBeBytes 20 address ++ after) := by
    rw [hdata, addressWord]
    simp only [append_assoc]
  rw [hword, drop_left' (by simpa using hn), take_left' (length_fixedBeBytes _ _),
    addressFromSlice_fixedBeBytes]

theorem decodeCrosschainMint_crosschainMintErc20Data :
    decodeCrosschainMint (crosschainMintErc20Data tokens recipient amount) =
      some ⟨tokens.l1, tokens.srcL2, tokens.dstL2, amount⟩ := by
  have hlength := length_crosschainMintErc20Data tokens recipient amount
  have hselector : crosschainMintErc20Selector.length = 4 := rfl
  rw [decodeCrosschainMint_eq, if_pos (by omega), crosschainMintErc20Data]
  generalize crosschainMintErc20Selector = selector at hselector
  have hvalue : u256FromBigEndian (((selector ++ addressWord tokens.l1 ++
      addressWord tokens.srcL2 ++ addressWord tokens.dstL2 ++ addressWord recipient ++
      fixedBeBytes 32 amount).drop 132).take 32) = amount := by
    rw [drop_left' (by simp [length_addressWord, hselector]),
      take_of_length_le (by rw [length_fixedBeBytes]), u256FromBigEndian_fixedBeBytes]
  generalize hdata : selector ++ addressWord tokens.l1 ++ addressWord tokens.srcL2 ++
    addressWord tokens.dstL2 ++ addressWord recipient ++ fixedBeBytes 32 amount = data at hvalue
  have hl1 : addressFromSlice ((data.drop 16).take 20) = tokens.l1 := by
    refine addressFromSlice_word selector (addressWord tokens.srcL2 ++ (addressWord tokens.dstL2 ++
      (addressWord recipient ++ fixedBeBytes 32 amount))) ?_ (by omega)
    rw [← hdata]
    simp only [append_assoc]
  have hsrc : addressFromSlice ((data.drop 48).take 20) = tokens.srcL2 := by
    refine addressFromSlice_word (selector ++ addressWord tokens.l1) (addressWord tokens.dstL2 ++
      (addressWord recipient ++ fixedBeBytes 32 amount)) ?_ ?_
    · rw [← hdata]
      simp only [append_assoc]
    · rw [length_append, length_addressWord, hselector]
  have hdst : addressFromSlice ((data.drop 80).take 20) = tokens.dstL2 := by
    refine addressFromSlice_word (selector ++ addressWord tokens.l1 ++ addressWord tokens.srcL2)
      (addressWord recipient ++ fixedBeBytes 32 amount) ?_ ?_
    · rw [← hdata]
      simp only [append_assoc]
    · rw [length_append, length_append, length_addressWord, length_addressWord,
        hselector]
  rw [hl1, hsrc, hdst, hvalue]

end MintData

theorem decodeMessage_crosschainMintErc20 (destChainId : U256) (sourceChainId : U64)
    (gasLimit txId : U256) (tokens : Tokens) (recipient : Address) (amount : U256) :
    decodeMessage (Sent.crosschainMintErc20 destChainId sourceChainId gasLimit txId tokens
      recipient amount).message = some (0, some ⟨tokens.l1, tokens.srcL2, tokens.dstL2, amount⟩) := by
  have hdata : (Sent.crosschainMintErc20 destChainId sourceChainId gasLimit txId tokens
    recipient amount).message.data = crosschainMintErc20Data tokens recipient amount := rfl
  rw [decodeMessage, hdata, if_pos (isCrosschainMint_crosschainMintErc20Data _ _ _),
    decodeCrosschainMint_crosschainMintErc20Data]
  rfl

theorem decodeMessage_user (hm : m.origin ≠ bridgeAddress) :
    decodeMessage m =
      if IsCrosschainMint m.data then (decodeCrosschainMint m.data).map fun asset => (0, some asset)
      else some (m.value, none) := by
  rw [decodeMessage]
  split_ifs with _ hbridge
  · rfl
  · exact absurd hbridge.2 hm
  · rfl

theorem countedEth_le (sent : Sent) : countedEth sent.message ≤ sent.eth := by
  cases sent with
  | mintEth => rw [countedEth, decodeMessage_mintEth]; exact Nat.zero_le _
  | crosschainMintErc20 =>
    rw [countedEth, decodeMessage_crosschainMintErc20]
    exact Nat.zero_le _
  | user m hm =>
    show countedEth m ≤ m.value.val
    rw [countedEth, decodeMessage_user hm]
    split_ifs
    · cases decodeCrosschainMint m.data with
      | none => exact Nat.zero_le _
      | some asset => exact Nat.zero_le _
    · exact Nat.le_refl _

theorem amount_le_counted (tokens : Tokens) (sent : Sent) :
    sent.amount tokens ≤ countedAmount tokens sent.message := by
  cases sent with
  | mintEth => exact Nat.zero_le _
  | crosschainMintErc20 _ _ _ _ tokens' _ amount =>
    rw [countedAmount, decodeMessage_crosschainMintErc20]
    exact Nat.le_refl _
  | user => exact Nat.zero_le _

/-- The harmless messages are those that are counted for what was burned for them. -/
theorem harmless_iff (sent : Sent) : Harmless sent ↔ Kept sent.message ∧
    countedEth sent.message = sent.eth ∧
    ∀ tokens, countedAmount tokens sent.message = sent.amount tokens := by
  cases sent with
  | mintEth =>
    rw [Kept, countedEth]
    simp only [countedAmount, decodeMessage_mintEth]
    exact iff_of_true trivial ⟨rfl, rfl, fun _ => rfl⟩
  | crosschainMintErc20 =>
    rw [Kept, countedEth]
    simp only [countedAmount, decodeMessage_crosschainMintErc20]
    exact iff_of_true trivial ⟨rfl, rfl, fun _ => rfl⟩
  | user m hm =>
    show (IsCrosschainMint m.data → _) ↔ Kept m ∧ countedEth m = m.value.val ∧
      ∀ tokens, countedAmount tokens m = 0
    simp only [Kept, countedEth, countedAmount, decodeMessage_user hm]
    by_cases hmint : IsCrosschainMint m.data
    · simp only [if_pos hmint]
      by_cases hlength : 164 ≤ m.data.length
      · -- the message is counted for the tokens that its data names
        obtain ⟨asset, hasset, hvalue⟩ := exists_decodeCrosschainMint hlength
        rw [hasset, ← hvalue]
        show _ ↔ true = true ∧ 0 = m.value.val ∧ ∀ tokens, valueOf tokens [asset] = 0
        constructor
        · intro h
          obtain ⟨-, heth, hamount⟩ := h hmint
          refine ⟨rfl, by rw [heth]; rfl, fun tokens => ?_⟩
          rw [valueOf_singleton, hamount]
          exact ite_self 0
        · rintro ⟨-, heth, hamount⟩ -
          have hown := hamount asset.tokens
          rw [valueOf_singleton, if_pos rfl] at hown
          exact ⟨hlength, Fin.ext heth.symm, Fin.ext hown⟩
      · rw [decodeCrosschainMint_eq, if_neg hlength]
        constructor
        · intro h
          exact absurd (h hmint).1 hlength
        · rintro ⟨hkept, -⟩
          cases hkept
    · simp only [if_neg hmint]
      exact iff_of_true (fun h => absurd h hmint) ⟨rfl, trivial, fun _ => rfl⟩

/-! ### The diffs of a batch -/

section Result

variable {ms : List L2Message} {sent : List Sent} {diffs : DiffMap}

theorem length_filter_eq_totalTo (p : L2Message → Prop) [DecidablePred p] (chainId : U256) :
    (ms.filter fun m => m.destChainId = chainId ∧ p m).length =
      totalTo L2Message.destChainId (fun m => if p m then 1 else 0) chainId ms := by
  induction ms with
  | nil => rfl
  | cons m ms ih =>
    rw [← singleton_append, filter_append, length_append, totalTo_append, ih,
      totalTo_singleton]
    congr 1
    by_cases hchain : m.destChainId = chainId <;> by_cases hp : p m <;> simp [hchain, hp]

theorem Tallied.mem_values (h : Tallied keccak256 ms diffs) {diff : BalanceDiff} :
    diff ∈ diffs.toList.map (·.2) ↔
      (diffs[diff.chainId]?).isSome ∧ diffs.entry diff.chainId = diff := by
  rw [mem_map]
  constructor
  · rintro ⟨⟨chainId, diff'⟩, hmem, rfl⟩
    have hget := Std.ExtTreeMap.mem_toList_iff_getElem?_eq_some.1 hmem
    have hentry : diffs.entry chainId = diff' := by
      rw [DiffMap.entry, hget]
      rfl
    have hchain : diff'.chainId = chainId := by
      rw [← hentry]
      exact h.chainId chainId
    show (diffs[diff'.chainId]?).isSome ∧ diffs.entry diff'.chainId = diff'
    rw [hchain, hget]
    exact ⟨rfl, hentry⟩
  · rintro ⟨hsome, hentry⟩
    obtain ⟨diff', hget⟩ := Option.isSome_iff_exists.1 hsome
    refine ⟨(diff.chainId, diff'), Std.ExtTreeMap.mem_toList_iff_getElem?_eq_some.2 hget, ?_⟩
    rw [DiffMap.entry, hget] at hentry
    exact hentry

theorem Tallied.sorted (h : Tallied keccak256 ms diffs) :
    ((diffs.toList.map (·.2)).map (·.chainId)).Pairwise (· < ·) := by
  have hkeys : (diffs.toList.map (·.2)).map (·.chainId) = diffs.toList.map (·.1) := by
    rw [map_map]
    apply map_congr_left
    rintro ⟨chainId, diff⟩ hmem
    have hget := Std.ExtTreeMap.mem_toList_iff_getElem?_eq_some.1 hmem
    have hchain := h.chainId chainId
    rw [DiffMap.entry, hget] at hchain
    exact hchain
  rw [hkeys, pairwise_map]
  exact Std.ExtTreeMap.ordered_keys_toList.imp compare_lt_iff_lt.1

theorem totalTo_message {f : L2Message → Nat} {chainId : U256} :
    totalTo L2Message.destChainId f chainId (sent.map Sent.message) =
      totalTo Sent.dest (fun s => f s.message) chainId sent :=
  totalTo_map

theorem Tallied.matchesBridge (h : Tallied keccak256 (sent.map Sent.message) diffs)
    (hsent : ∀ s ∈ sent, Harmless s) : MatchesBridge keccak256 sent (diffs.toList.map (·.2)) := by
  have hcounted (s) (hs : s ∈ sent) := (harmless_iff s).1 (hsent s hs)
  have hkept (m) (hm : m ∈ sent.map Sent.message) : Kept m := by
    obtain ⟨s, hs, rfl⟩ := mem_map.1 hm
    exact (hcounted s hs).1
  constructor
  · exact h.sorted
  · intro chainId
    constructor
    · intro hmem
      obtain ⟨diff, hdiff, rfl⟩ := mem_map.1 hmem
      obtain ⟨m, hm, hdest, -⟩ := (h.present _).1 (h.mem_values.1 hdiff).1
      obtain ⟨s, hs, rfl⟩ := mem_map.1 hm
      exact mem_map.2 ⟨s, hs, hdest⟩
    · intro hmem
      obtain ⟨s, hs, rfl⟩ := mem_map.1 hmem
      have hsome := (h.present s.dest).2
        ⟨s.message, mem_map_of_mem hs, rfl, (hcounted s hs).1⟩
      refine mem_map.2 ⟨diffs.entry s.dest, h.mem_values.2 ?_, h.chainId _⟩
      rw [h.chainId]
      exact ⟨hsome, rfl⟩
  · intro diff hdiff
    rw [← (h.mem_values.1 hdiff).2, h.chainId, h.eth, totalTo_message]
    exact totalTo_congr fun s hs => (hcounted s hs).2.1
  · intro diff hdiff
    rw [← (h.mem_values.1 hdiff).2]
    exact h.distinct _
  · intro diff hdiff tokens
    rw [← (h.mem_values.1 hdiff).2, h.chainId, h.tokens, totalTo_message]
    exact totalTo_congr fun s hs => (hcounted s hs).2.2 tokens
  intro diff hdiff
  rw [← (h.mem_values.1 hdiff).2, h.chainId, h.hashes]
  congr 1
  apply filter_congr
  intro m hm
  simp [hkept m hm]

theorem Tallied.harmless (h : Tallied keccak256 (sent.map Sent.message) diffs)
    (hmatches : MatchesBridge keccak256 sent (diffs.toList.map (·.2))) :
    ∀ s ∈ sent, Harmless s := by
  intro s hs
  -- the diff of the chain that the message goes to
  obtain ⟨diff, hdiff, hchain⟩ :=
    mem_map.1 ((hmatches.chains s.dest).2 (mem_map_of_mem hs))
  have hentry := (h.mem_values.1 hdiff).2
  rw [hchain] at hentry
  have hlength : (diffs.entry s.dest).messageHashes.length = diff.messageHashes.length := by
    rw [hentry]
  rw [h.hashes, hmatches.hashes diff hdiff, length_map, length_map, hchain,
    length_filter_eq_totalTo, totalTo_message] at hlength
  refine (harmless_iff s).2 ⟨?_, ?_, fun tokens => ?_⟩
  · have hall : (fun m : L2Message => decide (m.destChainId = s.dest)) =
        fun m => decide (m.destChainId = s.dest ∧ True) := by
      simp only [and_true]
    rw [hall, length_filter_eq_totalTo, totalTo_message] at hlength
    have hone := eq_of_totalTo_eq (fun s _ => by split_ifs <;> simp) hlength s hs rfl
    by_contra hkept
    rw [if_neg hkept] at hone
    cases hone
  · have heth : totalTo Sent.dest (fun s => countedEth s.message) s.dest sent =
        totalTo Sent.dest Sent.eth s.dest sent := by
      rw [← totalTo_message, ← h.eth, hentry, hmatches.eth diff hdiff, hchain]
    exact eq_of_totalTo_eq (fun s _ => countedEth_le s) heth s hs rfl
  · have hamount : totalTo Sent.dest (Sent.amount tokens) s.dest sent =
        totalTo Sent.dest (fun s => countedAmount tokens s.message) s.dest sent := by
      rw [← totalTo_message, ← h.tokens, hentry, hmatches.tokens diff hdiff, hchain]
    exact (eq_of_totalTo_eq (fun s _ => amount_le_counted tokens s) hamount s hs rfl).symm

end Result

theorem balanceDiffs_iff (sent : List Sent)
    (heth : ∀ chainId, totalTo Sent.dest Sent.eth chainId sent < 2 ^ 256)
    (htokens : ∀ chainId tokens, totalTo Sent.dest (Sent.amount tokens) chainId sent < 2 ^ 256) :
    (∃ diffs, getBalanceDiffs keccak256 (sent.map Sent.message) = .ok diffs ∧
      MatchesBridge keccak256 sent diffs) ↔ ∀ s ∈ sent, Harmless s := by
  constructor
  · rintro ⟨diffs, hdiffs, hmatches⟩
    obtain ⟨map, hrun, rfl⟩ := map_eq_ok.1 hdiffs
    exact (tallied_nil.addAll hrun).harmless hmatches
  intro hsent
  have hcounted (s) (hs : s ∈ sent) := ((harmless_iff s).1 (hsent s hs)).2
  have hnil : Tallied keccak256 [] ∅ := tallied_nil
  have hboundEth (chainId) : totalTo L2Message.destChainId countedEth chainId
      ([] ++ sent.map Sent.message) < 2 ^ 256 := by
    rw [nil_append, totalTo_message, totalTo_congr fun s hs => (hcounted s hs).1]
    exact heth chainId
  have hboundTokens (chainId tokens) : totalTo L2Message.destChainId (countedAmount tokens)
      chainId ([] ++ sent.map Sent.message) < 2 ^ 256 := by
    rw [nil_append, totalTo_message, totalTo_congr fun s hs => (hcounted s hs).2 tokens]
    exact htokens chainId tokens
  obtain ⟨map, hrun⟩ := hnil.exists_addAll hboundEth hboundTokens
  refine ⟨map.toList.map (·.2), ?_, (tallied_nil.addAll hrun).matchesBridge hsent⟩
  rw [getBalanceDiffs, hrun]
  rfl

/-- A transfer of 7 ETH units to chain 9, as `sendToL2` sends it, with a transfer of tokens. -/
def transfers : List Sent :=
  [.mintEth 9 1 100 0 7 20,
    .user ⟨9, 1, 20, 30, 7, 100, 1, [1, 2, 3]⟩ (by decide),
    .crosschainMintErc20 9 1 100 2 ⟨40, 41, 42⟩ 20 5]

theorem balanceDiffs_transfers : ∃ diffs,
    getBalanceDiffs (fun _ => .ofNat 0) (transfers.map Sent.message) = .ok diffs ∧
      MatchesBridge (fun _ => .ofNat 0) transfers diffs := by
  refine (balanceDiffs_iff transfers (fun chainId => ?_) fun chainId tokens => ?_).2 ?_
  · rw [totalTo]
    simp only [transfers, map_cons, map_nil, sum_cons, sum_nil, Sent.eth]
    split_ifs <;> decide
  · rw [totalTo]
    simp only [transfers, map_cons, map_nil, sum_cons, sum_nil, Sent.amount]
    split_ifs <;> decide
  intro s hs
  simp only [transfers, mem_cons, not_mem_nil, or_false] at hs
  rcases hs with rfl | rfl | rfl
  · trivial
  · intro hmint
    exact absurd hmint (by decide)
  · trivial

def impostor : Sent :=
  .user ⟨9, 1, 20, 30, 7, 100, 0, crosschainMintErc20Data ⟨40, 41, 42⟩ 20 5⟩ (by decide)

theorem impostor_counted_as_mint :
    (∀ chainId, totalTo Sent.dest Sent.eth chainId [impostor] < 2 ^ 256) ∧
    (∀ chainId tokens, totalTo Sent.dest (Sent.amount tokens) chainId [impostor] < 2 ^ 256) ∧
    getBalanceDiffs (fun _ => .ofNat 0) [impostor.message] =
      .ok [⟨9, 0, [⟨40, 41, 42, 5⟩], [.ofNat 0]⟩] ∧
    ¬ ∃ diffs, getBalanceDiffs (fun _ => .ofNat 0) [impostor.message] = .ok diffs ∧
      MatchesBridge (fun _ => .ofNat 0) [impostor] diffs := by
  have hdiffs : getBalanceDiffs (fun _ => .ofNat 0) [impostor.message] =
      .ok [⟨9, 0, [⟨40, 41, 42, 5⟩], [.ofNat 0]⟩] := by
    decide +kernel
  refine ⟨fun chainId => ?_, fun chainId tokens => ?_, hdiffs, ?_⟩
  · rw [totalTo_singleton]
    split_ifs <;> decide
  · have hzero : Sent.amount tokens impostor = 0 := rfl
    rw [totalTo_singleton, hzero, ite_self]
    exact Nat.two_pow_pos 256
  · rintro ⟨diffs, hok, hmatches⟩
    obtain rfl := Except.ok.inj (hdiffs.symm.trans hok)
    exact absurd (hmatches.eth _ mem_cons_self) (by decide)

end Ethrex.Rollup
