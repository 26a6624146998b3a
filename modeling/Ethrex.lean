import Ethrex.Types
import Ethrex.Rlp.Codec
import Ethrex.Rlp.RoundTrip
import Ethrex.Patricia.Tree
import Ethrex.Patricia.Update
import Ethrex.Patricia.Order
import Ethrex.Patricia.Subtree
import Ethrex.Patricia.Builder
import Ethrex.Patricia.Graft
import Ethrex.Mpt.Nibbles
import Ethrex.Mpt.Error
import Ethrex.Mpt.Node
import Ethrex.Mpt.Operations
import Ethrex.Mpt.Trie
import Ethrex.Mpt.Path
import Ethrex.Mpt.Denote
import Ethrex.Mpt.Simulation
import Ethrex.Mpt.Commit
import Ethrex.Mpt.Refine
import Ethrex.Mpt.Run
import Ethrex.Mpt.Decode
import Ethrex.Mpt.Wire
import Ethrex.Mpt.Persist
import Ethrex.Mpt.Sorted
import Ethrex.Mpt.SortedRefine
import Ethrex.Mpt.VerifyRange
import Ethrex.Mpt.HashInsert
import Ethrex.Mpt.Injective
import Ethrex.Mpt.EdgeWalk
import Ethrex.Mpt.RangeProof
import Ethrex.Mpt.RangeSound
import Ethrex.Journal.ListMap
import Ethrex.Journal.Timeline
import Ethrex.Bal.AccessList
import Ethrex.Bal.Recorder
import Ethrex.Bal.History
import Ethrex.Bal.Invariant
import Ethrex.Bal.Steps
import Ethrex.Bal.Sound
import Ethrex.Bal.Build
import Ethrex.Rlp.Fields
import Ethrex.Block.Header
import Ethrex.Guest.State
import Ethrex.Guest.Execute
import Ethrex.Guest.Batch
import Ethrex.Guest.BlockHashes
import Ethrex.Journal.Undo
import Ethrex.Lineage.Forest
import Ethrex.Chain.Store
import Ethrex.Chain.ForkChoice
import Ethrex.Chain.Reorg
import Ethrex.Chain.BlockHash
import Ethrex.Arena.Layout
import Ethrex.Levm.Checked
import Ethrex.Levm.Memory
import Ethrex.Levm.MemoryGas
import Ethrex.Levm.PrivateMemory
import Ethrex.Levm.Refunds
import Ethrex.Bal.Database
import Ethrex.Bal.LazyView
import Ethrex.Bal.Seeding
import Ethrex.Chain.Node
import Ethrex.Chain.FullSync
import Ethrex.Chain.SyncedIndex
import Ethrex.Chain.HeaderWalk
import Ethrex.Chain.SyncCycle
import Ethrex.Chain.Engine
import Ethrex.Chain.Genuine
import Ethrex.Chain.ValidAnswers
import Ethrex.Chain.Verdict
import Ethrex.Chain.InvalidAnswers
import Ethrex.Network.ForkId
import Ethrex.Tally.Total
import Ethrex.Mempool.Pool
import Ethrex.Mempool.Books
import Ethrex.Mempool.Index
import Ethrex.Mempool.Calls
import Ethrex.Mempool.Admission
import Ethrex.Mempool.Pruning
import Ethrex.Mempool.Sidecars
import Ethrex.L2.FeeHook
import Ethrex.L2.Settlement
import Ethrex.L2.Conservation
import Ethrex.Rlp.Length
import Ethrex.Block.Transaction
import Ethrex.Block.Body
import Ethrex.Block.BlobFee
import Ethrex.Payload.Queue
import Ethrex.Payload.Build
import Ethrex.Payload.Fill
import Ethrex.Payload.Size
import Ethrex.Rlp.Item
import Ethrex.Rlp.Typed
import Ethrex.Rlp.Canonical
import Ethrex.Rlp.Coding
import Ethrex.Rlp.Unique
import Ethrex.Block.Unique
import Ethrex.Block.Signing
import Ethrex.Block.SenderCache
import Ethrex.Cascade.Stack
import Ethrex.Storage.Layers
import Ethrex.Storage.LayerChain
import Ethrex.Storage.LayerCommit
import Ethrex.Storage.Orphans
import Ethrex.Storage.AccountUpdates
import Ethrex.Rollup.Messages
import Ethrex.Rollup.BalanceDiffs
import Ethrex.Rollup.Batch
import Ethrex.Rollup.Committer
import Ethrex.Rollup.Provable
import Ethrex.Rollup.BlockProducer
import Ethrex.Rollup.BlobSpace
import Ethrex.Block.FrameChecks
import Ethrex.Levm.FrameSettlement
