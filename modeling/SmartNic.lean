import SmartNic.Codec.RoundTrip
import SmartNic.Codec.DecodeSafety
import SmartNic.Partition.RoundTrip
import SmartNic.Collective.RsTaskSequence
import SmartNic.Collective.Signal
import SmartNic.Collective.AllGatherCompletes
import SmartNic.Collective.ReduceScatterCompletes
import SmartNic.Collective.PlanAgreement
import SmartNic.Collective.LocalCopy
import SmartNic.Completion.Soundness
import SmartNic.Barrier.TwoRings
import SmartNic.Barrier.RdbCompletes
import SmartNic.Dispatch.Agreement
import SmartNic.Dispatch.Release
import SmartNic.Dispatch.UnionTracker
import SmartNic.FlagPool.Soundness
import SmartNic.WorkingBuffer.Disjoint
import SmartNic.Setup.Matched
import SmartNic.Queue.Linearizable
import SmartNic.RemoteMemory.Isolation
import SmartNic.RemoteMemory.PciMmapCache
import SmartNic.Partition.Coalesced
import SmartNic.Partition.Repartition
import SmartNic.Training.DelayedUpdate
import SmartNic.Training.Placement
import SmartNic.Training.FlatLayout
import SmartNic.Offload.Divergence
import SmartNic.Offload.HookBalance
import SmartNic.Offload.FullTransfer
import SmartNic.Host.Lifecycle
import SmartNic.Host.ExportCache
import SmartNic.Host.Workers
import SmartNic.Host.WorkersInvariant
import SmartNic.Host.WorkersProgress
import SmartNic.Offload.Accounting
import SmartNic.Lifetime.GatherSource
import SmartNic.Lifetime.GatherDestination
import SmartNic.Lifetime.ReduceFinal
import SmartNic.Collective.PostedReceives
import SmartNic.Collective.StreamCompletes
import SmartNic.Training.DataParallel
