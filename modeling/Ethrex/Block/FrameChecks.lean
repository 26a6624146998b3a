import Ethrex.Block.Transaction

/-!
# Static checks of frame transactions

What a frame transaction has to satisfy before any state is read, with the text of each error.
-/

namespace Ethrex

def frameTxMaxFrames : Nat := 64

def frameTxExpiryDataLength : Nat := 8

namespace Frame

def isAtomicBatch (f : Frame) : Bool := (f.flags >>> 2) &&& 1 = 1

def errorAt (i : Nat) (message : String) : String := "Frame " ++ toString i ++ ": " ++ message

end Frame

def formatHexByte (byte : UInt8) : String :=
  let digits := Nat.toDigits 16 byte.toNat
  "0x" ++ String.ofList (List.replicate (2 - digits.length) '0' ++ digits)

namespace FrameTransaction

variable (t : FrameTransaction)

def checkBlobHash (item : H256 × Nat) : Except String Unit :=
  if item.1.bytes.head? = some 1 then .ok ()
  else .error ("Blob versioned hash " ++ toString item.2 ++ ": wrong version byte")

def checkScheme (sig : FrameSignature) (i : Nat) : Except String Unit :=
  if sig.scheme = 0 then
    if sig.signer.isSome then
      .error ("Signature " ++ toString i ++ ": ARBITRARY signatures must not name a signer")
    else .ok ()
  else if sig.scheme = 1 ∨ sig.scheme = 2 then .ok ()
  else .error ("Signature " ++ toString i ++ ": unsupported scheme " ++ toString sig.scheme.toNat)

/-- The message of a signature: none, or a digest that is not zero. -/
def checkMsg (sig : FrameSignature) (i : Nat) : Except String Unit :=
  if sig.msg.length = 0 then .ok ()
  else if sig.msg.length = 32 then
    if sig.msg.all (· = 0) then
      .error ("Signature " ++ toString i ++ ": explicit msg must not be zero digest")
    else .ok ()
  else
    .error ("Signature " ++ toString i ++ ": msg must be empty or 32 bytes, got " ++
      toString sig.msg.length)

def checkSignature (item : FrameSignature × Nat) : Except String Unit := do
  checkScheme item.1 item.2
  checkMsg item.1 item.2

variable (frame : Frame)

/-- The expiry verifier: at most one, without flags, with a deadline.  The number of those so far. -/
def checkExpiry (i count : Nat) : Except String Nat :=
  if !frame.isExpiryVerifier then .ok count
  else if count + 1 > 1 then .error (Frame.errorAt i "more than one expiry verifier frame")
  else if frame.flags ≠ 0 then
    .error (Frame.errorAt i "expiry verifier frame must have flags == 0")
  else if frame.data.length ≠ frameTxExpiryDataLength then
    .error (Frame.errorAt i "expiry verifier frame data must be 8 bytes")
  else .ok (count + 1)

/-- A batch goes on to a next frame, and no frame of it is a `VERIFY` frame. -/
def checkBatch (i : Nat) : Except String Unit :=
  if !frame.isAtomicBatch then .ok ()
  else if frame.mode = 1 then .error (Frame.errorAt i "atomic batch flag on a VERIFY frame")
  else
    match t.frames[i + 1]? with
    | none => .error (Frame.errorAt i "atomic batch flag on last frame")
    | some next =>
      if next.mode = 1 then
        .error (Frame.errorAt i "atomic batch flag followed by a VERIFY frame")
      else .ok ()

def checkShape (i : Nat) : Except String Unit :=
  if frame.mode ≥ 3 then
    .error (Frame.errorAt i ("reserved execution mode " ++ toString frame.mode.toNat))
  else if frame.flags ≥ 8 then
    .error (Frame.errorAt i ("reserved flag bits must be zero (flags=" ++
      formatHexByte frame.flags ++ ")"))
  else .ok ()

/-- Only a `SENDER` frame has a value. -/
def checkValue (i : Nat) : Except String Unit :=
  if frame.mode ≠ 2 ∧ frame.value ≠ 0 then
    .error (Frame.errorAt i ("non-zero value only allowed in SENDER mode (mode=" ++
      toString frame.mode.toNat ++ ", value=" ++ toString frame.value.val ++ ")"))
  else .ok ()

def checkGas (i totalFrameGas : Nat) : Except String Nat :=
  if frame.gasLimit.val > 2 ^ 63 - 1 then
    .error (Frame.errorAt i ("gas_limit " ++ toString frame.gasLimit.val ++ " exceeds 2**63-1"))
  else if totalFrameGas + frame.gasLimit.val ≥ 2 ^ 128 then
    .error (Frame.errorAt i "cumulative gas_limit overflow")
  else if totalFrameGas + frame.gasLimit.val > 2 ^ 63 - 1 then
    .error (Frame.errorAt i ("cumulative frame gas_limit " ++
      toString (totalFrameGas + frame.gasLimit.val) ++ " exceeds 2**63-1"))
  else .ok (totalFrameGas + frame.gasLimit.val)

def checkApproval (i : Nat) : Except String Unit :=
  if frame.flags &&& 2 ≠ 0 ∧ frame.target.any (· ≠ t.sender) then
    .error (Frame.errorAt i "APPROVE_EXECUTION requires an empty target or tx.sender")
  else .ok ()

/-- The body of the loop over the frames: the gas limits and expiry verifiers with those of one more
frame. -/
def checkFrame (acc : Nat × Nat) (item : Frame × Nat) : Except String (Nat × Nat) := do
  checkShape item.1 item.2
  let expiryFrameCount ← checkExpiry item.1 item.2 acc.2
  checkValue item.1 item.2
  let totalFrameGas ← checkGas item.1 item.2 acc.1
  t.checkApproval item.1 item.2
  t.checkBatch item.1 item.2
  return (totalFrameGas, expiryFrameCount)

def checkHead : Except String Unit :=
  if t.sender = 0 then .error "tx.sender must not be zero address"
  else if t.frames.isEmpty ∨ t.frames.length > frameTxMaxFrames then
    .error "Frame count must be between 1 and 64"
  else .ok ()

def checkBlobFee : Except String Unit :=
  if t.blobVersionedHashes.isEmpty ∧ t.maxFeePerBlobGas ≠ 0 then
    .error "max_fee_per_blob_gas must be zero when the transaction carries no blobs"
  else .ok ()

def validateStaticConstraints : Except String Unit := do
  t.checkHead
  t.blobVersionedHashes.zipIdx.forM checkBlobHash
  t.checkBlobFee
  t.signatures.zipIdx.forM checkSignature
  let _ ← t.frames.zipIdx.foldlM t.checkFrame (0, 0)
  return ()

variable {t}

/-! ### What accepted transactions satisfy -/

theorem checkGas_eq_ok {frame : Frame} {i total total' : Nat}
    (h : checkGas frame i total = .ok total') :
    total' = total + frame.gasLimit.val ∧ total' ≤ 2 ^ 63 - 1 := by
  rw [checkGas] at h
  split_ifs at h
  cases h
  omega

variable {acc acc' : Nat × Nat}

theorem checkFrame_eq_ok {item : Frame × Nat} (h : t.checkFrame acc item = .ok acc') :
    acc'.1 = acc.1 + item.1.gasLimit.val ∧ acc'.1 ≤ 2 ^ 63 - 1 := by
  obtain ⟨-, -, h⟩ := bind_eq_ok.1 h
  obtain ⟨count, -, h⟩ := bind_eq_ok.1 h
  obtain ⟨-, -, h⟩ := bind_eq_ok.1 h
  obtain ⟨total, htotal, h⟩ := bind_eq_ok.1 h
  obtain ⟨-, -, h⟩ := bind_eq_ok.1 h
  obtain ⟨-, -, h⟩ := bind_eq_ok.1 h
  cases h
  exact checkGas_eq_ok htotal

theorem checkFrames_eq_ok {items : List (Frame × Nat)} (hacc : acc.1 ≤ 2 ^ 63 - 1)
    (h : items.foldlM t.checkFrame acc = .ok acc') :
    acc'.1 = acc.1 + (items.map fun item => item.1.gasLimit.val).sum ∧ acc'.1 ≤ 2 ^ 63 - 1 := by
  induction items generalizing acc with
  | nil =>
    cases h
    exact ⟨rfl, hacc⟩
  | cons item items ih =>
    rw [List.foldlM_cons] at h
    obtain ⟨next, hnext, h⟩ := bind_eq_ok.1 h
    obtain ⟨hsum, hbound⟩ := checkFrame_eq_ok hnext
    obtain ⟨hrest, hfinal⟩ := ih hbound h
    rw [List.map_cons, List.sum_cons]
    exact ⟨by omega, hfinal⟩

theorem sum_gasLimit_le (h : t.validateStaticConstraints = .ok ()) :
    (t.frames.map fun frame => frame.gasLimit.val).sum ≤ 2 ^ 63 - 1 := by
  obtain ⟨-, -, h⟩ := bind_eq_ok.1 h
  obtain ⟨-, -, h⟩ := bind_eq_ok.1 h
  obtain ⟨-, -, h⟩ := bind_eq_ok.1 h
  obtain ⟨-, -, h⟩ := bind_eq_ok.1 h
  obtain ⟨acc, hacc, -⟩ := bind_eq_ok.1 h
  obtain ⟨hsum, hbound⟩ := checkFrames_eq_ok (Nat.zero_le _) hacc
  have hframes : (t.frames.zipIdx.map fun item => item.1.gasLimit.val) =
      t.frames.map fun frame => frame.gasLimit.val := by
    rw [show (fun item : Frame × Nat => item.1.gasLimit.val) =
      (fun frame : Frame => frame.gasLimit.val) ∘ Prod.fst from rfl, ← List.map_map,
      List.zipIdx_map_fst]
  rw [hframes] at hsum
  omega

theorem length_frames_le (h : t.validateStaticConstraints = .ok ()) : t.frames.length ≤ 64 := by
  obtain ⟨_, hhead, -⟩ := bind_eq_ok.1 h
  rw [checkHead] at hhead
  split_ifs at hhead with _ hcount
  rw [frameTxMaxFrames] at hcount
  omega

end FrameTransaction

end Ethrex
