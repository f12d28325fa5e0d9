import StreamMoE.TransitionSystem
import StreamMoE.BatchWait
import StreamMoE.DioRouting
import StreamMoE.ByteMemory
import StreamMoE.ReadPlan
import StreamMoE.PoolGeometry
import StreamMoE.ExpertLoad
import StreamMoE.LoadContent
import StreamMoE.Spans
import StreamMoE.ScatterPlan
import StreamMoE.MixSplit
import StreamMoE.MixExec
import StreamMoE.RoundCells
import StreamMoE.AtomicProg
import StreamMoE.ThreadLoop
import StreamMoE.SlotWord
import StreamMoE.SchedConfig
import StreamMoE.SchedState
import StreamMoE.SchedOps
import StreamMoE.SlotLifecycle
import StreamMoE.SchedSteps
import StreamMoE.SchedEnv
import StreamMoE.ActiveSafe
import StreamMoE.AllocSafe
import StreamMoE.SchedSafe
import StreamMoE.SchedRuns
import StreamMoE.StopStart
import StreamMoE.PinProtection
import StreamMoE.PinLayer
import StreamMoE.PinRuns
import StreamMoE.RequestSteps
import StreamMoE.RequestService
import StreamMoE.WaitService
import StreamMoE.Packing
import StreamMoE.Saturation
import StreamMoE.ComputeGraph
import StreamMoE.AliasResolution
import StreamMoE.LayerCapture
import StreamMoE.LayerPlan
import StreamMoE.LayerOrder
import StreamMoE.ExpertAddress
import StreamMoE.CompactTwins
import StreamMoE.ClosureGraph
import StreamMoE.TightGather
import StreamMoE.TwinRows
import StreamMoE.CompactChain
import StreamMoE.ChainNeeds
import StreamMoE.TwinCondition
import StreamMoE.ArenaLayout
import StreamMoE.ArenaRegions
import StreamMoE.OperandLocality
import StreamMoE.OfferSchedule
import StreamMoE.RelayRun
import StreamMoE.RelaySteps
import StreamMoE.RelayVisits
import StreamMoE.RelayOrder
import StreamMoE.CopyMemory
import StreamMoE.StopTurns
import StreamMoE.ShellReuse
import StreamMoE.TopoGroups
import StreamMoE.MpscQueue
import StreamMoE.DioEngine
import StreamMoE.FullRead
import StreamMoE.Worklist
import StreamMoE.ChainGuard
import StreamMoE.ChainClosure
import StreamMoE.PipelineExec
import StreamMoE.ThreadPair
import StreamMoE.SchedWaits
import StreamMoE.RequestStages
import StreamMoE.EvictionRuns
import StreamMoE.SlotBytes
import StreamMoE.MoveDrain
import StreamMoE.DemotionRuns
import StreamMoE.DemotedBytes
import StreamMoE.LayerSpread
import StreamMoE.LayerEdges
import StreamMoE.MixCover
import StreamMoE.MixMinimal
import StreamMoE.ScatterSearch
import StreamMoE.ScatterWrites
import StreamMoE.ClosureLayout
import StreamMoE.DenseFill
import StreamMoE.ClosurePins
import StreamMoE.GraphCapacity
import StreamMoE.CapacityNeeds
import StreamMoE.CapacityLimits
import StreamMoE.Buffers
import StreamMoE.LayerResult
import StreamMoE.LayerDelivery
import StreamMoE.MoeOutPlacement
import StreamMoE.FastPaths
import StreamMoE.FastPathRows
import StreamMoE.FastPathChain
import StreamMoE.FastPathLimits
import StreamMoE.LargestRemainder
import StreamMoE.BlockSplit
import StreamMoE.StripRange
import StreamMoE.StripPartition
import StreamMoE.StripLimits
import StreamMoE.Gaps
import StreamMoE.WriterPlan
import StreamMoE.WriterOnce
import StreamMoE.ChunkSet
import StreamMoE.ChunkOrder
import StreamMoE.ArenaGrowth
import StreamMoE.RoundScratch
import StreamMoE.ScratchNeeds
import StreamMoE.ScratchLimits
import StreamMoE.LayoutRewrite
import StreamMoE.FullAlloc
import StreamMoE.AsyncCopies
import StreamMoE.RelayDispatch
import StreamMoE.UploadStaging
import StreamMoE.ReadWindows
import StreamMoE.LittleEndian
import StreamMoE.ExpertStats
import StreamMoE.AlphaUpdate
import StreamMoE.Binary64
import StreamMoE.DevicePools
import StreamMoE.PoolInit
import StreamMoE.PoolRegions
import StreamMoE.SoleRuns
import StreamMoE.VictimPolicy
import StreamMoE.DirectoryBounds
import StreamMoE.WholePool
import StreamMoE.PinRecency
import StreamMoE.StripOffsets
import StreamMoE.BlockMetadata
import StreamMoE.SlotProtocol
import StreamMoE.VramSegments
import StreamMoE.LayerCover
import StreamMoE.LoadRing
import StreamMoE.ByteFiles
import StreamMoE.FileCopies
import StreamMoE.ConvertModel
import StreamMoE.ConvertPlan
import StreamMoE.ConvertLayout
import StreamMoE.ConvertRead
import StreamMoE.ConvertSingle
import StreamMoE.ConvertUnits
import StreamMoE.ConvertStrips
import StreamMoE.ConvertChunk
import StreamMoE.ConvertRuns
import StreamMoE.ChunkNames
import StreamMoE.ConvertFiles
import StreamMoE.ConvertShards
import StreamMoE.RequestPins
import StreamMoE.PinAccesses
import StreamMoE.PinOutcome
import StreamMoE.AllOrNothing
import StreamMoE.SharedStorage
import StreamMoE.UnitOrder
import StreamMoE.ArenaPlaces
import StreamMoE.ArenaLifetimes
import StreamMoE.ArenaRuns
import StreamMoE.ArenaLiveness
import StreamMoE.LoadedExperts
