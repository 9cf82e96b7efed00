import AptosCore.Lib.Word
import AptosCore.Lib.InorderTree
import AptosCore.Accumulator.Position
import AptosCore.Lib.SkewBinary
import AptosCore.Accumulator.Postorder
import AptosCore.Accumulator.FrozenSubtrees
import AptosCore.Lib.MerkleTree
import AptosCore.Lib.Frontier
import AptosCore.Accumulator.InMemory
import AptosCore.Accumulator.Storage
import AptosCore.Accumulator.Representation
import AptosCore.Accumulator.Proof
import AptosCore.Accumulator.RangeProof
import AptosCore.Accumulator.ExtendsLedger
import AptosCore.Accumulator.Consistency
import AptosCore.Lib.SparseMerkle
import AptosCore.Jmt.Key
import AptosCore.Jmt.Node
import AptosCore.Jmt.NodeHash
import AptosCore.Jmt.NodeProof
import AptosCore.Lib.BinarySearch
import AptosCore.Jmt.NibbleRanges
import AptosCore.Lib.Bytes
import AptosCore.Jmt.Codec
import AptosCore.Jmt.Restore
import AptosCore.Jmt.RestoreFrame
import AptosCore.Lib.SortedMap
import AptosCore.Lib.U64
import AptosCore.Lib.Quorum
import AptosCore.Types.ValidatorVerifier
import AptosCore.Consensus.Types
import AptosCore.Consensus.SafetyRules
import AptosCore.Lib.Outcome
import AptosCore.Consensus.SafetyRulesFrame
import AptosCore.Consensus.SafetyRulesRuns
import AptosCore.Lib.ExceptCheck
import AptosCore.Consensus.Certificates
import AptosCore.Consensus.PendingVotes
import AptosCore.Consensus.PendingVotesRuns
import AptosCore.Lib.AssocMap
import AptosCore.Channel.MessageQueues
import AptosCore.Channel.MessageQueuesRuns
import AptosCore.Channel.AptosChannel
import AptosCore.Lib.WeightedChoice
import AptosCore.Lib.U32
import AptosCore.Consensus.LeaderReputation
import AptosCore.Lib.TreeWalk
import AptosCore.Consensus.BlockTree
import AptosCore.Consensus.BlockTreePath
import AptosCore.Consensus.BlockTreePrune
import AptosCore.Consensus.BlockTreeRuns
import AptosCore.Consensus.BlockTreeLinks
import AptosCore.ParallelExecutor.MVHashMap
import AptosCore.Mempool.TransactionStore
import AptosCore.Mempool.GetBatch
import AptosCore.RateLimiter.Bucket
import AptosCore.Storage.StatePruner
import AptosCore.ParallelExecutor.Scheduler
import AptosCore.ParallelExecutor.Worker
import AptosCore.ParallelExecutor.TaskGuard
import AptosCore.Jmt.BatchPut
import AptosCore.Types.NibblePath
import AptosCore.Types.NibbleIterator
import AptosCore.Jmt.SparseMerkleProof
import AptosCore.Jmt.GetWithProof
import AptosCore.ParallelExecutor.Owners
