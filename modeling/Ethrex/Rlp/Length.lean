import Ethrex.Rlp.Fields

/-!
# Lengths of encodings

How many bytes an item takes: its payload and the bytes of its header.
-/

namespace Ethrex.Rlp

variable {m n k : Nat}

theorem length_toBeBytes_mono (h : m ≤ n) : (toBeBytes m).length ≤ (toBeBytes n).length :=
  toBeBytes_length_le.2 (lt_of_le_of_lt h (toBeBytes_length_le.1 le_rfl))

theorem length_toBeBytes (hlow : 256 ^ k ≤ n) (hhigh : n < 256 ^ (k + 1)) :
    (toBeBytes n).length = k + 1 := by
  have hle : (toBeBytes n).length ≤ k + 1 := toBeBytes_length_le.2 hhigh
  have hlt : ¬ (toBeBytes n).length ≤ k := fun h => by
    have := toBeBytes_length_le.1 h
    omega
  omega

/-- The number of bytes in the header of an item with a payload of `n` bytes. -/
def headerLength (n : Nat) : Nat := if n < 56 then 1 else 1 + (toBeBytes n).length

@[simp] theorem length_encodeHeader (shortBase longBase : UInt8) (n : Nat) :
    (encodeHeader shortBase longBase n).length = headerLength n := by
  rw [encodeHeader, headerLength]
  split
  · rfl
  · simp [Nat.add_comm]

theorem headerLength_mono (h : m ≤ n) : headerLength m ≤ headerLength n := by
  have := length_toBeBytes_mono h
  rw [headerLength, headerLength]
  split <;> split <;> omega

theorem headerLength_pos (n : Nat) : 1 ≤ headerLength n := by
  rw [headerLength]
  split <;> omega

theorem headerLength_le (h : n < 256 ^ k) : headerLength n ≤ k + 1 := by
  have := toBeBytes_length_le.2 h
  rw [headerLength]
  split <;> omega

theorem headerLength_of_lt (h : n < 56) : headerLength n = 1 := if_pos h

theorem headerLength_of_le (h : 56 ≤ n) (hlow : 256 ^ k ≤ n) (hhigh : n < 256 ^ (k + 1)) :
    headerLength n = k + 2 := by
  rw [headerLength, if_neg (by omega), length_toBeBytes hlow hhigh]
  omega

theorem length_encodeList (fields : Bytes) :
    (encodeList fields).length = headerLength fields.length + fields.length := by
  rw [encodeList, encodeLength, List.length_append, length_encodeHeader]

theorem length_encodeBytes {data : Bytes} (h : data.length ≠ 1) :
    (encodeBytes data).length = headerLength data.length + data.length := by
  match data with
  | [] => rfl
  | [_] => exact absurd rfl h
  | _ :: _ :: _ => rw [encodeBytes, List.length_append, length_encodeHeader]; simp

theorem length_encodeH256 (hash : H256) : (encodeBytes hash.bytes).length = 33 := by
  rw [length_encodeBytes (by rw [hash.size]; decide), hash.size]
  rfl

theorem header_append_inj (shortBase longBase : UInt8) {a b : Bytes}
    (h : encodeHeader shortBase longBase a.length ++ a =
      encodeHeader shortBase longBase b.length ++ b) : a = b := by
  have hlen := congrArg List.length h
  simp only [List.length_append, length_encodeHeader] at hlen
  have hab : a.length = b.length := by
    rcases Nat.lt_trichotomy a.length b.length with hlt | heq | hlt
    · have := headerLength_mono hlt.le
      omega
    · exact heq
    · have := headerLength_mono hlt.le
      omega
  exact List.append_inj_right h (by rw [hab])

theorem encodeList_injective : Function.Injective encodeList :=
  fun _ _ h => header_append_inj 0xc0 0xf7 h

end Ethrex.Rlp
