import PipelineTools.Library.FiniteGraph
import PipelineTools.Library.UnorderedMap
import PipelineTools.FlowEngine.Engine
import PipelineTools.Library.TraceLogic
import PipelineTools.FlowEngine.Pipeline
import PipelineTools.FlowEngine.Wiring
import PipelineTools.FlowEngine.Delivery
import PipelineTools.FlowEngine.TypeSoundness
import PipelineTools.FlowEngine.AggregatorRounds
import PipelineTools.Queues.IQueue
import PipelineTools.Queues.Transfer
import PipelineTools.FlowEngine.Mission
import PipelineTools.FlowEngine.AutoConnect
import PipelineTools.Threads.CPUManager
import PipelineTools.Threads.CoreAccounting
import PipelineTools.FlowEngine.Meaning
import PipelineTools.Library.References
import PipelineTools.Memory.Buffers
import PipelineTools.Memory.SharedBuffer
import PipelineTools.Memory.RefCountInvariant
import PipelineTools.Memory.RefCounting
import PipelineTools.Memory.Objects
import PipelineTools.Memory.Ownership
import PipelineTools.Memory.OwnershipSteps
import PipelineTools.Memory.MemPool
import PipelineTools.FlowEngine.Activations
import PipelineTools.FlowEngine.FrontAggregator
import PipelineTools.FlowEngine.ExecuteRounds
import PipelineTools.FlowEngine.FrontBuild
import PipelineTools.FlowEngine.ArrivalOrder
import PipelineTools.Memory.Conservation
import PipelineTools.FlowEngine.Chains
import PipelineTools.FlowEngine.QueueChain
import PipelineTools.FlowEngine.ChainOrder
import PipelineTools.FlowEngine.Branching
import PipelineTools.Threads.BadDeallocations
import PipelineTools.Threads.FrameReads
import PipelineTools.Threads.ExclusivePinning
import PipelineTools.FlowEngine.MaskArithmetic
import PipelineTools.FlowEngine.RejectedSources
import PipelineTools.FlowEngine.FailedAdds
import PipelineTools.Threads.AllocateSpec
import PipelineTools.Threads.UnsetMask
import PipelineTools.Threads.WorkerCalls
import PipelineTools.Threads.InterleavedCalls
import PipelineTools.FlowEngine.MissionStarts
import PipelineTools.FlowEngine.AggregatePlan
import PipelineTools.FlowEngine.OneAggregation
import PipelineTools.Library.Text
import PipelineTools.Utils.NumericRanges
import PipelineTools.Threads.CoreDiscovery
import PipelineTools.Utils.Config
import PipelineTools.Memory.PoolConstruction
import PipelineTools.FlowEngine.InputsPreserved
import PipelineTools.Ipc.Publisher
import PipelineTools.Threads.StopRequests
import PipelineTools.Library.CircularBuffer
import PipelineTools.Library.Linearizability
import PipelineTools.Library.Ring
import PipelineTools.Queues.Moodycamel
import PipelineTools.Queues.BlockViews
import PipelineTools.Library.BitSmearing
import PipelineTools.Queues.DequeueSteps
import PipelineTools.Queues.EnqueueSteps
import PipelineTools.Queues.FifoOrder
import PipelineTools.Queues.LockFreeQueue
import PipelineTools.Queues.QueueDestruction
import PipelineTools.Queues.BlockingLinearization
import PipelineTools.Queues.BlockingQueue
import PipelineTools.Queues.WaitFreedom
import PipelineTools.Library.LockedObject
import PipelineTools.Queues.LockedQueue
import PipelineTools.FlowEngine.ChainAccesses
import PipelineTools.FlowEngine.MissionWorkers
