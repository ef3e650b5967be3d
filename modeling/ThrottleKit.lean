import ThrottleKit.Federation.Safety
import ThrottleKit.Federation.EscrowWindows
import ThrottleKit.TwoTier.LeasedCoupled
import ThrottleKit.Concurrency.Distributed
import ThrottleKit.Concurrency.EqualSplit
import ThrottleKit.Concurrency.GuardGate
import ThrottleKit.TwoTier.LeasedCarry
import ThrottleKit.Concurrency.SelfFence
import ThrottleKit.Concurrency.ConstantLimit
import ThrottleKit.Concurrency.OccupancyCap
import ThrottleKit.Concurrency.Handoff
import ThrottleKit.TwoTier.RedisRegionFairPool
import ThrottleKit.TwoTier.WeightedFairEscrow
import ThrottleKit.TwoTier.FairEscrowAggregates
import ThrottleKit.TwoTier.FairEscrowLimit
import ThrottleKit.Lib.Arrangement
import ThrottleKit.Lib.Tuples
import ThrottleKit.Lib.WaterFilling
import ThrottleKit.Admission.FluidLp
import ThrottleKit.Admission.FluidLpDual
import ThrottleKit.Admission.WeightedMaxMin
import ThrottleKit.TwoTier.FairEscrowReserve
import ThrottleKit.TwoTier.FairEscrowShared
import ThrottleKit.TwoTier.FairEscrowLockstep
import ThrottleKit.Algorithms.TtlTransparency
import ThrottleKit.Lib.Lockstep
import ThrottleKit.TwoTier.LeaseLockstep
import ThrottleKit.Federation.RedisCoordinator
import ThrottleKit.Federation.RedisRegionalEscrow
import ThrottleKit.Federation.FederatedStore
import ThrottleKit.Federation.PostgresCoordinator
import ThrottleKit.Core.Combine
import ThrottleKit.Core.Limiter
import ThrottleKit.Admission.Fused
import ThrottleKit.Concurrency.Adaptive
import ThrottleKit.Admission.JointLp
import ThrottleKit.Admission.Unified
import ThrottleKit.TwoTier.CachedDeny
import ThrottleKit.Concurrency.RedisHeartbeat
import ThrottleKit.TwoTier.FederatedFairEscrow
import ThrottleKit.TwoTier.FederatedFairLimit
import ThrottleKit.TwoTier.FederatedFairStall
import ThrottleKit.Algorithms.Conformance
import ThrottleKit.Algorithms.Duality
import ThrottleKit.Algorithms.SlidingWindowNaive
import ThrottleKit.Lib.FirstBest
import ThrottleKit.Multi.Binding
import ThrottleKit.Multi.Cells
import ThrottleKit.Multi.Dimensions
import ThrottleKit.Multi.Sync
import ThrottleKit.Multi.Fused
import ThrottleKit.Multi.FusedParity
import ThrottleKit.Admission.DistributedBudget
import ThrottleKit.Lib.Binary64
import ThrottleKit.Lib.CountMin
import ThrottleKit.Lib.LittleEndian
import ThrottleKit.Sketch.CountMinSketch
import ThrottleKit.Sketch.Wire
import ThrottleKit.Sketch.Mergeable
import ThrottleKit.Sketch.RateLimit
import ThrottleKit.Stores.MemoryStore
import ThrottleKit.Stores.VersionedStore
import ThrottleKit.Stores.PostgresStore
import ThrottleKit.Algorithms.ClockOrder
import ThrottleKit.Lib.Climb
import ThrottleKit.Lib.WindowCounter
import ThrottleKit.Lib.TrailingWindow
import ThrottleKit.Algorithms.RetryAfter
import ThrottleKit.Algorithms.LogExactness
import ThrottleKit.Algorithms.LogScript
import ThrottleKit.Algorithms.Twin
import ThrottleKit.Algorithms.ScriptForms
import ThrottleKit.Algorithms.ScriptParity
import ThrottleKit.Redis.Script
import ThrottleKit.Algorithms.Forecast
import ThrottleKit.Lib.Noninterference
import ThrottleKit.Server.Policies
import ThrottleKit.Server.PolicyIsolation
import ThrottleKit.Lib.JsonValue
import ThrottleKit.Lib.JsonText
import ThrottleKit.Config.BuildStrategy
import ThrottleKit.Stores.TwoMemories
import ThrottleKit.Replay.Engine
import ThrottleKit.Replay.Recorder
import ThrottleKit.Algorithms.CivilDates
import ThrottleKit.Algorithms.CalendarTiling
import ThrottleKit.Algorithms.LeakyPacing
import ThrottleKit.Lib.TextCut
import ThrottleKit.Security.Ip
import ThrottleKit.Security.Ipv6Text
import ThrottleKit.Security.Ipv6Key
import ThrottleKit.Security.ProxyMatch
import ThrottleKit.Security.ForwardedFor
import ThrottleKit.Lib.TrimEnds
import ThrottleKit.Security.EdgeClientIp
import ThrottleKit.Lib.SpaceSaving
import ThrottleKit.Analytics.StreamSummary
import ThrottleKit.Concurrency.DemandSplit
import ThrottleKit.Lib.GreedyFill
import ThrottleKit.Admission.FluidLpPlan
import ThrottleKit.Federation.EscrowDouble
import ThrottleKit.Lib.RingSlice
import ThrottleKit.Lib.Rounding
import ThrottleKit.Lib.MonotoneDeque
import ThrottleKit.Concurrency.NoLoadRtt
import ThrottleKit.Admission.FairShare
import ThrottleKit.Lib.Doubles
import ThrottleKit.Server.BurnAccumulator
import ThrottleKit.TwoTier.FairEscrowSaturation
import ThrottleKit.Policy.Plan
import ThrottleKit.Server.LeaseAccount
import ThrottleKit.Replay.InertFields
import ThrottleKit.Federation.StaticPartition
import ThrottleKit.Stores.WheelRuns
import ThrottleKit.Lib.SlotTable
import ThrottleKit.Stores.BoundedStore
import ThrottleKit.Admission.SampleReplay
import ThrottleKit.Lib.StructuredFields
import ThrottleKit.Http.Headers
import ThrottleKit.Policy.Corpus
import ThrottleKit.Capture.Recorder
import ThrottleKit.Capture.Accounts
import ThrottleKit.Lib.WindowPage
import ThrottleKit.Federation.TestCoordinator
import ThrottleKit.Federation.PostgresReconcile
import ThrottleKit.Federation.CoordinatorsAgree
import ThrottleKit.Lib.JsonRead
import ThrottleKit.Lib.KeyedSort
import ThrottleKit.Policy.Artifact
import ThrottleKit.Admission.FluidLpThree
