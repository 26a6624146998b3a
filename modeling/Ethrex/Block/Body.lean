import Ethrex.Block.Header
import Ethrex.Block.Transaction

/-!
# Blocks

`Block` with its body and its RLP form.
-/

namespace Ethrex

open Rlp

structure Withdrawal where
  index : U64
  validatorIndex : U64
  address : Address
  amount : U64

def Withdrawal.encode (w : Withdrawal) : Bytes :=
  encodeList (encodeUint w.index ++ encodeUint w.validatorIndex ++ encodeAddress w.address ++
    encodeUint w.amount)

structure BlockBody where
  transactions : List Transaction
  ommers : List BlockHeader
  withdrawals : Option (List Withdrawal)

structure Block where
  header : BlockHeader
  body : BlockBody

namespace Block

def fields (b : Block) : Bytes :=
  b.header.encode ++ encodeVec Transaction.encode b.body.transactions ++
    encodeVec BlockHeader.encode b.body.ommers ++
    encodeOptional (encodeVec Withdrawal.encode) b.body.withdrawals

def encode (b : Block) : Bytes := encodeList b.fields

def length (b : Block) : Nat := b.encode.length

end Block

theorem length_encodeVec {α : Type} (encode : α → Bytes) (items : List α) :
    (encodeVec encode items).length =
      headerLength (items.map fun item => (encode item).length).sum +
        (items.map fun item => (encode item).length).sum := by
  rw [encodeVec, length_encodeList, List.length_flatMap]

end Ethrex
