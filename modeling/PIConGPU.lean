import PIConGPU.Mask
import PIConGPU.RowMajor
import PIConGPU.FixedWidth
import PIConGPU.IntervalTiling
import PIConGPU.Communicator
import PIConGPU.MovingWindow
import PIConGPU.MovingWindowRestart
import PIConGPU.ParserGridDistribution
import PIConGPU.GridConfiguration
import PIConGPU.Shapes
import PIConGPU.CurrentDeposition
import PIConGPU.VillaBune
import PIConGPU.Esirkepov
import PIConGPU.EsirkepovNative
import PIConGPU.ShiftCoordinateSystem
import PIConGPU.FieldToParticleInterpolation
import PIConGPU.EvalAssignmentFunction
import PIConGPU.ZigZag
import PIConGPU.YeeSolver
import PIConGPU.BlockThreads
import PIConGPU.ParticlesBox
import PIConGPU.FrameContents
import PIConGPU.SupercellContents
import PIConGPU.KernelShiftParticles
import PIConGPU.ShiftDestinations
import PIConGPU.ShiftFrame
import PIConGPU.ShiftSupercell
import PIConGPU.KernelFillGaps
import PIConGPU.FillGaps
import PIConGPU.ShiftParticles
import PIConGPU.ParticleConservation
import PIConGPU.ShiftParticlesCorrect
import PIConGPU.GridBuffer
import PIConGPU.RegisteredTags
import PIConGPU.UniqueTags
import PIConGPU.GridController
import PIConGPU.SlideCounter
import PIConGPU.SupercellGrid
import PIConGPU.StridedArea
import PIConGPU.SlabGrid
import PIConGPU.AreaMapping
import PIConGPU.ExchangeMapping
import PIConGPU.MessagePassing
import PIConGPU.ExchangeRegions
import PIConGPU.GuardExchanges
import PIConGPU.HaloExchange
import PIConGPU.StagedProcesses
import PIConGPU.YeeDecomposition
import PIConGPU.YeeTransparency
import PIConGPU.CurrentExchange
import PIConGPU.CurrentRegions
import PIConGPU.CurrentConservation
import PIConGPU.TaskManager
import PIConGPU.EventNotification
import PIConGPU.EventAlgebra
import PIConGPU.BackgroundField
import PIConGPU.ConcurrentAppend
import PIConGPU.CheckpointRoundTrip
import PIConGPU.ExchangeTarget
import PIConGPU.GridDistributionText
import PIConGPU.ExchangePush
import PIConGPU.PushParticlePerFrame
import PIConGPU.CreatedParticles
import PIConGPU.StartPosition
import PIConGPU.KernelFillGridWithParticles
import PIConGPU.AbsorbBorder
import PIConGPU.KernelReduction
import PIConGPU.DeviceReduce
import PIConGPU.KernelIonizeParticles
import PIConGPU.CreateParticlesFromParticle
import PIConGPU.LeheCurl
import PIConGPU.ShapePartition
import PIConGPU.ComputeGridValuePerFrame
import PIConGPU.CurrentWrites
import PIConGPU.NearestGridPoint
import PIConGPU.ParticipatingRanks
import PIConGPU.ManipulateParticles
import PIConGPU.RandomStreams
import PIConGPU.StridedLoop
import PIConGPU.KernelComputeCurrent
import PIConGPU.KernelBashParticles
import PIConGPU.KernelInsertParticles
import PIConGPU.ParticlesExchange
import PIConGPU.VectorRotation
import PIConGPU.ParticlePusher
import PIConGPU.PeriodicSum
import PIConGPU.YeeEnergy
import PIConGPU.GaussLaw
import PIConGPU.BarrierProcesses
import PIConGPU.SimulationHelper
import PIConGPU.GridShift
import PIConGPU.KernelDeleteParticles
import PIConGPU.ExchangedMemories
import PIConGPU.LocalDomains
import PIConGPU.ParticleTransport
import PIConGPU.UsageCounter
import PIConGPU.ScatterLayout
import PIConGPU.Scatter
import PIConGPU.ScatterInvariant
import PIConGPU.ScatterSafety
import PIConGPU.FrameAccounting
