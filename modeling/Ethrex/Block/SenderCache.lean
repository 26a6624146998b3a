import Ethrex.Block.Signing

/-!
# The cache of senders

`Transaction::sender` keeps the sender in a cell of the transaction and in a cache of the process
under the transaction's hash. A privileged creation has the zero hash. The cache is transparent
exactly when no other transaction with that hash has another sender.
-/

namespace Ethrex

open Rlp List Function

variable (keccak256 : Bytes → H256)

/-- The bytes under the hash of a privileged transaction; a creation has none. -/
def PrivilegedL2Transaction.hashPreimage (t : PrivilegedL2Transaction) :
    Option Bytes :=
  match t.recipient with
  | .call recipient =>
    some (fixedBeBytes 32 t.chainId ++ fixedBeBytes 20 t.origin ++ fixedBeBytes 20 recipient ++
      fixedBeBytes 32 t.nonce ++ fixedBeBytes 32 t.value ++ fixedBeBytes 32 t.gasLimit ++
      (keccak256 t.data).bytes)
  | .create => none

def PrivilegedL2Transaction.getPrivilegedHash
    (t : PrivilegedL2Transaction) : Option H256 :=
  (t.hashPreimage keccak256).map keccak256

namespace Transaction

def hashPreimage (keccak256 : Bytes → H256) (t : Transaction) : Option Bytes :=
  match t with
  | .privileged tx => tx.hashPreimage keccak256
  | _ => some t.encodeCanonical

def computeHash (t : Transaction) : H256 :=
  match t with
  | .privileged tx => (tx.getPrivilegedHash keccak256).getD (.repeatByte 0)
  | _ => keccak256 t.encodeCanonical

theorem computeHash_eq (t : Transaction) :
    t.computeHash keccak256 = ((t.hashPreimage keccak256).map keccak256).getD (.repeatByte 0) := by
  cases t <;> rfl

end Transaction

abbrev SignerCache := H256 → Option Address

/-- `Transaction::sender`, with the cell of the transaction and the cache before and after. -/
def Transaction.sender (crypto : Crypto) (t : Transaction) (cell : Option Address)
    (cache : SignerCache) : Except CryptoError Address × Option Address × SignerCache :=
  match t with
  | .frame tx => (.ok tx.sender, cell, cache)
  | _ =>
    match cell with
    | some address => (.ok address, cell, cache)
    | none =>
      let hash := t.computeHash crypto.keccak256
      match cache hash with
      | some address => (.ok address, some address, cache)
      | none =>
        match t.computeSender crypto with
        | .error err => (.error err, none, cache)
        | .ok address => (.ok address, some address, update cache hash (some address))

/-- What happens in the process: a call on one of the transactions, or the cache drops an entry. -/
inductive SenderEvent where
  | call (object : Nat)
  | evict (hash : H256)

/-- The cells of the transactions, and the cache. -/
structure SenderState where
  cells : Nat → Option Address
  cache : SignerCache

namespace SenderState

def new : SenderState := ⟨fun _ => none, fun _ => none⟩

/-- One event; a call also has its transaction and its result. -/
def step (crypto : Crypto) (txs : Nat → Transaction) (state : SenderState) :
    SenderEvent → SenderState × Option (Transaction × Except CryptoError Address)
  | .call object =>
    let (result, cell, cache) := (txs object).sender crypto (state.cells object) state.cache
    (⟨update state.cells object cell, cache⟩, some (txs object, result))
  | .evict hash => (⟨state.cells, update state.cache hash none⟩, none)

def run (crypto : Crypto) (txs : Nat → Transaction) (state : SenderState) :
    List SenderEvent → List (Transaction × Except CryptoError Address)
  | [] => []
  | event :: events =>
    let (next, result) := state.step crypto txs event
    result.toList ++ next.run crypto txs events

end SenderState

/-- Over transactions of the set, a call that succeeds returns what `compute_sender` returns. -/
def SenderTransparent (crypto : Crypto) (S : Set Transaction) : Prop :=
  ∀ (txs : Nat → Transaction) (events : List SenderEvent), (∀ object, txs object ∈ S) →
    ∀ t address, (t, .ok address) ∈ SenderState.new.run crypto txs events →
      t.computeSender crypto = .ok address

variable {keccak256 : Bytes → H256} {t : PrivilegedL2Transaction} {bytes : Bytes}

theorem PrivilegedL2Transaction.origin_of_hashPreimage {t' : PrivilegedL2Transaction}
    (h : t.hashPreimage keccak256 = some bytes) (h' : t'.hashPreimage keccak256 = some bytes) :
    t.origin = t'.origin := by
  have hshape (t : PrivilegedL2Transaction) (h : t.hashPreimage keccak256 = some bytes) :
      ∃ rest, bytes = fixedBeBytes 32 t.chainId ++ (fixedBeBytes 20 t.origin ++ rest) := by
    rw [hashPreimage] at h
    split at h
    · exact ⟨_, by simpa using h.symm⟩
    · cases h
  obtain ⟨rest, hbytes⟩ := hshape t h
  obtain ⟨rest', hbytes'⟩ := hshape t' h'
  have htail := append_inj_right (hbytes.symm.trans hbytes')
    (by rw [length_fixedBeBytes, length_fixedBeBytes])
  exact addressBytes_injective
    (append_inj_left htail (by rw [length_fixedBeBytes, length_fixedBeBytes]))

theorem PrivilegedL2Transaction.head_of_hashPreimage (h : t.hashPreimage keccak256 = some bytes) :
    bytes.head? = some 0 := by
  have hlt : t.chainId.val < 2 ^ 64 := t.chainId.isLt
  have hzero : UInt8.ofNat (t.chainId.val >>> (8 * (32 - 1 - 0))) = 0 := by
    rw [Nat.shiftRight_eq_div_pow, Nat.div_eq_of_lt (lt_trans hlt (by norm_num))]
    rfl
  rw [hashPreimage] at h
  split at h
  · obtain rfl := Option.some.inj h
    rw [fixedBeBytes, range_succ_eq_map, map_cons, hzero]
    rfl
  · cases h

namespace Transaction

variable {crypto : Crypto} {t t' : Transaction}

theorem head_encodeCanonical (h : t.encodeCanonical.length < 2 ^ 64) :
    t.encodeCanonical.head? ≠ some 0 := by
  obtain ⟨b, bs, heq, hb⟩ := encodeCanonical_head h
  rw [heq, head?_cons]
  intro hzero
  obtain rfl := Option.some.inj hzero
  rcases hb with ⟨-, hb⟩ | ⟨htype, hb⟩
  · exact absurd hb (by decide)
  · cases htype' : t.txType <;> rw [htype'] at hb htype <;> first | exact htype rfl | exact absurd hb (by decide)

theorem computeSender_eq_of_hashPreimage {bytes : Bytes}
    (hlen : t.encodeCanonical.length < 2 ^ 64) (hlen' : t'.encodeCanonical.length < 2 ^ 64)
    (h : t.hashPreimage crypto.keccak256 = some bytes)
    (h' : t'.hashPreimage crypto.keccak256 = some bytes) :
    t.computeSender crypto = t'.computeSender crypto := by
  have hcanonical (t : Transaction) (htype : t.txType ≠ .privileged)
      (h : t.hashPreimage crypto.keccak256 = some bytes) : t.encodeCanonical = bytes := by
    cases t <;> first | exact Option.some.inj h | exact absurd rfl htype
  have hprivileged (t : Transaction) (htype : t.txType = .privileged) : ∃ tx, t = .privileged tx := by
    cases t <;> first | exact ⟨_, rfl⟩ | cases htype
  by_cases htype : t.txType = .privileged <;> by_cases htype' : t'.txType = .privileged
  · obtain ⟨tx, rfl⟩ := hprivileged t htype
    obtain ⟨tx', rfl⟩ := hprivileged t' htype'
    exact congrArg Except.ok (PrivilegedL2Transaction.origin_of_hashPreimage h h')
  · obtain ⟨tx, rfl⟩ := hprivileged t htype
    have hhead := head_encodeCanonical hlen'
    rw [hcanonical t' htype' h'] at hhead
    exact absurd (PrivilegedL2Transaction.head_of_hashPreimage h) hhead
  · obtain ⟨tx', rfl⟩ := hprivileged t' htype'
    have hhead := head_encodeCanonical hlen
    rw [hcanonical t htype h] at hhead
    exact absurd (PrivilegedL2Transaction.head_of_hashPreimage h') hhead
  · rw [eq_of_encodeCanonical hlen ((hcanonical t htype h).trans (hcanonical t' htype' h').symm)]

theorem hashPreimage_eq_none {keccak256 : Bytes → H256} (h : t.hashPreimage keccak256 = none) :
    ∃ tx, t = .privileged tx ∧ tx.recipient = .create := by
  cases t with
  | privileged tx =>
    refine ⟨tx, rfl, ?_⟩
    change tx.hashPreimage keccak256 = none at h
    rw [PrivilegedL2Transaction.hashPreimage] at h
    split at h
    · cases h
    · assumption
  | _ => cases h

end Transaction

/-- A transaction with the zero hash has the sender of every privileged creation of the set. -/
def ZeroHashAgrees (crypto : Crypto) (S : Set Transaction) : Prop :=
  ∀ tx : PrivilegedL2Transaction, .privileged tx ∈ S → tx.recipient = .create →
    ∀ t ∈ S, t.txType ≠ .frame → t.computeHash crypto.keccak256 = .repeatByte 0 →
      t.computeSender crypto = .ok tx.origin

def CollisionFree (crypto : Crypto) (S : Set Transaction) : Prop :=
  Set.InjOn crypto.keccak256 {bytes | ∃ t ∈ S, t.hashPreimage crypto.keccak256 = some bytes}

section Runs

variable {crypto : Crypto} {S : Set Transaction} {txs : Nat → Transaction}
variable {t : Transaction} {state : SenderState}

theorem computeSender_eq_of_computeHash (hfree : CollisionFree crypto S)
    (hsize : ∀ t ∈ S, t.encodeCanonical.length < 2 ^ 64) (hzero : ZeroHashAgrees crypto S)
    {t' : Transaction} (ht : t ∈ S) (ht' : t' ∈ S) (htype : t.txType ≠ .frame)
    (htype' : t'.txType ≠ .frame)
    (h : t.computeHash crypto.keccak256 = t'.computeHash crypto.keccak256) :
    t.computeSender crypto = t'.computeSender crypto := by
  have hcreate {t t' : Transaction} (ht : t ∈ S) (ht' : t' ∈ S) (htype' : t'.txType ≠ .frame)
      (hnone : t.hashPreimage crypto.keccak256 = none)
      (h : t.computeHash crypto.keccak256 = t'.computeHash crypto.keccak256) :
      t.computeSender crypto = t'.computeSender crypto := by
    have hhash : t.computeHash crypto.keccak256 = .repeatByte 0 := by
      rw [Transaction.computeHash_eq, hnone]
      rfl
    obtain ⟨tx, rfl, hrecipient⟩ := Transaction.hashPreimage_eq_none hnone
    rw [hzero tx ht hrecipient t' ht' htype' (h.symm.trans hhash)]
    rfl
  cases hbytes : t.hashPreimage crypto.keccak256 with
  | none => exact hcreate ht ht' htype' hbytes h
  | some bytes =>
    cases hbytes' : t'.hashPreimage crypto.keccak256 with
    | none => exact (hcreate ht' ht htype hbytes' h.symm).symm
    | some bytes' =>
      have hkeccak : crypto.keccak256 bytes = crypto.keccak256 bytes' := by
        rw [Transaction.computeHash_eq, Transaction.computeHash_eq, hbytes, hbytes'] at h
        exact h
      obtain rfl := hfree ⟨t, ht, hbytes⟩ ⟨t', ht', hbytes'⟩ hkeccak
      exact Transaction.computeSender_eq_of_hashPreimage (hsize t ht) (hsize t' ht') hbytes hbytes'

theorem Transaction.sender_of_ne_frame (crypto : Crypto) (h : t.txType ≠ .frame)
    (cell : Option Address) (cache : SignerCache) :
    t.sender crypto cell cache =
      match cell with
      | some address => (.ok address, cell, cache)
      | none =>
        match cache (t.computeHash crypto.keccak256) with
        | some address => (.ok address, some address, cache)
        | none =>
          match t.computeSender crypto with
          | .error err => (.error err, none, cache)
          | .ok address =>
            (.ok address, some address,
              update cache (t.computeHash crypto.keccak256) (some address)) := by
  cases t <;> first | rfl | exact absurd rfl h

/-- What is kept is what `compute_sender` returns. -/
structure SenderState.Faithful (crypto : Crypto) (S : Set Transaction) (txs : Nat → Transaction)
    (state : SenderState) : Prop where
  cells : ∀ object address, state.cells object = some address →
    (txs object).computeSender crypto = .ok address
  cache : ∀ t ∈ S, t.txType ≠ .frame → ∀ address,
    state.cache (t.computeHash crypto.keccak256) = some address →
      t.computeSender crypto = .ok address

theorem SenderState.faithful_new : (new).Faithful crypto S txs :=
  ⟨nofun, nofun⟩

theorem SenderState.Faithful.call (hstate : state.Faithful crypto S txs)
    (hkey : ∀ t ∈ S, ∀ t' ∈ S, t.txType ≠ .frame → t'.txType ≠ .frame →
      t.computeHash crypto.keccak256 = t'.computeHash crypto.keccak256 →
      t.computeSender crypto = t'.computeSender crypto) (htxs : ∀ object, txs object ∈ S)
    (object : Nat) :
    (state.step crypto txs (.call object)).1.Faithful crypto S txs ∧
      ∀ address, ((txs object).sender crypto (state.cells object) state.cache).1 = .ok address →
        (txs object).computeSender crypto = .ok address := by
  -- a cell that is set, or set again to the same value
  have hcells {cell : Option Address}
      (hcell : ∀ address, cell = some address → (txs object).computeSender crypto = .ok address) :
      ∀ other address, update state.cells object cell other = some address →
        (txs other).computeSender crypto = .ok address := by
    intro other address h
    by_cases hother : other = object
    · subst hother
      rw [update_self] at h
      exact hcell address h
    · rw [update_of_ne hother] at h
      exact hstate.cells other address h
  by_cases htype : (txs object).txType = .frame
  · obtain ⟨tx, htx⟩ : ∃ tx, txs object = .frame tx := by
      cases htx : txs object <;> rw [htx] at htype <;> first | exact ⟨_, rfl⟩ | cases htype
    have hsender : (txs object).sender crypto (state.cells object) state.cache =
        (.ok tx.sender, state.cells object, state.cache) := by rw [htx]; rfl
    rw [step, hsender]
    refine ⟨⟨hcells (hstate.cells object), hstate.cache⟩, fun address h => ?_⟩
    rw [htx]
    exact h
  have hsender := Transaction.sender_of_ne_frame crypto htype (state.cells object) state.cache
  cases hcell : state.cells object with
  | some kept =>
    rw [hcell] at hsender
    rw [step, hcell, hsender]
    have hkept := hstate.cells object kept hcell
    refine ⟨⟨hcells fun address h => ?_, hstate.cache⟩, fun address h => ?_⟩
    · rw [hkept, Option.some.inj h]
    · rw [hkept]
      exact h
  | none =>
    rw [hcell] at hsender
    cases hcache : state.cache ((txs object).computeHash crypto.keccak256) with
    | some kept =>
      rw [hcache] at hsender
      rw [step, hcell, hsender]
      have hkept := hstate.cache _ (htxs object) htype kept hcache
      refine ⟨⟨hcells fun address h => ?_, hstate.cache⟩, fun address h => ?_⟩
      · rw [hkept, Option.some.inj h]
      · rw [hkept]
        exact h
    | none =>
      rw [hcache] at hsender
      cases hcompute : (txs object).computeSender crypto with
      | error err =>
        rw [hcompute] at hsender
        rw [step, hcell, hsender]
        exact ⟨⟨hcells nofun, hstate.cache⟩, nofun⟩
      | ok computed =>
        rw [hcompute] at hsender
        rw [step, hcell, hsender]
        refine ⟨⟨hcells fun address h => ?_, fun t ht htype' address h => ?_⟩, fun address h => h⟩
        · rw [hcompute, Option.some.inj h]
        by_cases hhash : t.computeHash crypto.keccak256 =
            (txs object).computeHash crypto.keccak256
        · simp only [hhash, update_self] at h
          rw [hkey t ht _ (htxs object) htype' htype hhash, hcompute, Option.some.inj h]
        · simp only [update_of_ne hhash] at h
          exact hstate.cache t ht htype' address h

theorem SenderState.Faithful.evict (hstate : state.Faithful crypto S txs) (hash : H256) :
    (state.step crypto txs (.evict hash)).1.Faithful crypto S txs := by
  refine ⟨hstate.cells, fun t ht htype address h => ?_⟩
  by_cases hhash : t.computeHash crypto.keccak256 = hash
  · simp only [step, hhash, update_self] at h
    cases h
  · simp only [step, update_of_ne hhash] at h
    exact hstate.cache t ht htype address h

theorem SenderState.Faithful.run (hstate : state.Faithful crypto S txs)
    (hkey : ∀ t ∈ S, ∀ t' ∈ S, t.txType ≠ .frame → t'.txType ≠ .frame →
      t.computeHash crypto.keccak256 = t'.computeHash crypto.keccak256 →
      t.computeSender crypto = t'.computeSender crypto) (htxs : ∀ object, txs object ∈ S)
    (events : List SenderEvent) {address : Address}
    (h : (t, .ok address) ∈ state.run crypto txs events) :
    t.computeSender crypto = .ok address := by
  induction events generalizing state with
  | nil => cases h
  | cons event events ih =>
    cases event with
    | evict hash => exact ih (hstate.evict hash) h
    | call object =>
      obtain ⟨hnext, hresult⟩ := hstate.call hkey htxs object
      rcases mem_cons.1 h with heq | h
      · obtain ⟨rfl, hok⟩ := Prod.mk.inj heq
        exact hresult address hok.symm
      · exact ih hnext h

end Runs

/-- Without hash collisions, calls return the computed senders in every run exactly when the
transactions with the zero hash agree with the privileged creations. -/
theorem senderTransparent_iff {crypto : Crypto} {S : Set Transaction}
    (hfree : CollisionFree crypto S) (hsize : ∀ t ∈ S, t.encodeCanonical.length < 2 ^ 64) :
    SenderTransparent crypto S ↔ ZeroHashAgrees crypto S := by
  constructor
  · intro h tx htx hrecipient t ht htype hhash
    let txs : Nat → Transaction := fun object => if object = 0 then .privileged tx else t
    have htxs (object : Nat) : txs object ∈ S := by
      simp only [txs]
      split
      · exact htx
      · exact ht
    have hcreate : (Transaction.privileged tx).computeHash crypto.keccak256 = .repeatByte 0 := by
      simp [Transaction.computeHash, PrivilegedL2Transaction.getPrivilegedHash,
        PrivilegedL2Transaction.hashPreimage, hrecipient]
    -- the first call fills the cache under the zero hash, the second one reads it
    have hfirst : (Transaction.privileged tx).sender crypto none (fun _ => none) =
        (.ok tx.origin, some tx.origin,
          update (fun _ => none) (.repeatByte 0) (some tx.origin)) := by
      rw [Transaction.sender_of_ne_frame crypto (by rw [Transaction.txType]; decide), hcreate]
      rfl
    have hsecond : t.sender crypto none
        (update (fun _ => none) (.repeatByte 0) (some tx.origin)) =
        (.ok tx.origin, some tx.origin,
          update (fun _ => none) (.repeatByte 0) (some tx.origin)) := by
      rw [Transaction.sender_of_ne_frame crypto htype, hhash, update_self]
    apply h txs [.call 0, .call 1] htxs
    have hrun : SenderState.new.run crypto txs [.call 0, .call 1] =
        [(.privileged tx, .ok tx.origin), (t, .ok tx.origin)] := by
      simp [SenderState.run, SenderState.step, SenderState.new, txs, hfirst, hsecond]
    rw [hrun]
    simp
  · intro hzero txs events htxs t address h
    exact SenderState.faithful_new.run (fun t ht t' ht' htype htype' hhash =>
      computeSender_eq_of_computeHash hfree hsize hzero ht ht' htype htype' hhash) htxs events h

def privilegedCreate (origin : Address) : PrivilegedL2Transaction where
  chainId := 1729
  nonce := 0
  maxPriorityFeePerGas := 0
  maxFeePerGas := 0
  gasLimit := 100000
  recipient := .create
  value := 0
  data := []
  accessList := []
  origin

def constantCrypto : Crypto := ⟨fun _ => .repeatByte 1, fun _ _ => .error .recoveryFailed⟩

def protectedTransfer : LegacyTransaction where
  nonce := 7
  gasPrice := 10
  gas := 21000
  recipient := .call 0xb0b
  value := 1
  data := []
  v := 3493
  r := 1
  s := 1

def dynamicFeeCall : EIP1559Transaction where
  chainId := 1729
  nonce := 8
  maxPriorityFeePerGas := 1
  maxFeePerGas := 20
  gasLimit := 50000
  recipient := .call 0xb0b
  value := 0
  data := [1, 2, 3, 4]
  accessList := []
  signatureYParity := true
  signatureR := 2
  signatureS := 3

def privilegedCall (origin : Address) : PrivilegedL2Transaction :=
  { privilegedCreate origin with recipient := .call 0xb0b }

/-- A table of hashes for the payloads and the preimages of the three transactions above. -/
def senderTable : List (Bytes × H256) :=
  [([], .repeatByte 1),
    (protectedTransfer.encodeUnsigned, .repeatByte 2),
    ((Transaction.legacy protectedTransfer).encodeCanonical, .repeatByte 3),
    (2 :: dynamicFeeCall.encodeUnsigned, .repeatByte 4),
    ((Transaction.eip1559 dynamicFeeCall).encodeCanonical, .repeatByte 5),
    (((privilegedCall 0xc).hashPreimage fun _ => .repeatByte 1).getD [], .repeatByte 6)]

def tableCrypto : Crypto where
  keccak256 := keccakTable senderTable
  recoverSigner _ hash :=
    if hash = .repeatByte 2 then .ok 0xa
    else if hash = .repeatByte 4 then .ok 0xb
    else .error .recoveryFailed

/-- Two signed transactions, a privileged call and a privileged creation. -/
def mixedTransactions : Set Transaction :=
  {.legacy protectedTransfer, .eip1559 dynamicFeeCall, .privileged (privilegedCall 0xc),
    .privileged (privilegedCreate 0xd)}

theorem senderTransparent_mixed :
    SenderTransparent tableCrypto mixedTransactions ∧
    (Transaction.legacy protectedTransfer).computeSender tableCrypto = .ok 0xa ∧
    (Transaction.eip1559 dynamicFeeCall).computeSender tableCrypto = .ok 0xb := by
  refine ⟨(senderTransparent_iff ?_ ?_).2 ?_, by decide +kernel, by decide +kernel⟩
  · -- the preimages are keys of the table, and its hashes differ
    refine (@keccakTable_injOn senderTable (by decide +kernel)).mono ?_
    rintro bytes ⟨t, rfl | rfl | rfl | rfl, hbytes⟩ <;>
      first | obtain rfl := Option.some.inj hbytes; decide +kernel | cases hbytes
  · rintro t (rfl | rfl | rfl | rfl) <;> decide +kernel
  · rintro tx htx hrecipient t ht _ hhash
    have htx : tx = privilegedCreate 0xd := by
      rcases htx with h | h | h | h
      · cases h
      · cases h
      · rw [Transaction.privileged.inj h] at hrecipient
        cases hrecipient
      · exact Transaction.privileged.inj h
    rcases ht with rfl | rfl | rfl | rfl
    · exact absurd hhash (by decide +kernel)
    · exact absurd hhash (by decide +kernel)
    · exact absurd hhash (by decide +kernel)
    · rw [htx]
      rfl

/-- Of two privileged creations, the second gets the sender of the first. -/
theorem privilegedCreate_wrong_sender :
    CollisionFree constantCrypto
      {.privileged (privilegedCreate 0xa), .privileged (privilegedCreate 0xb)} ∧
    SenderState.new.run constantCrypto
        (fun object => .privileged (privilegedCreate (if object = 0 then 0xa else 0xb)))
        [.call 0, .call 1] =
      [(.privileged (privilegedCreate 0xa), .ok 0xa), (.privileged (privilegedCreate 0xb), .ok 0xa)] ∧
    (Transaction.privileged (privilegedCreate 0xb)).computeSender constantCrypto = .ok 0xb := by
  refine ⟨?_, rfl, rfl⟩
  rintro bytes ⟨t, rfl | rfl, hbytes⟩
  · cases hbytes
  · cases hbytes

end Ethrex
