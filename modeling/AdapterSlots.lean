import AdapterSlots.Lib.Dict
import AdapterSlots.Lib.Exec
import AdapterSlots.Lib.Endless
import AdapterSlots.Lib.Contiguous
import AdapterSlots.Lib.Levels
import AdapterSlots.Lib.Launch
import AdapterSlots.Lib.LastArrival
import AdapterSlots.Lib.Recency
import AdapterSlots.Lib.Runs
import AdapterSlots.Lib.Windows
import AdapterSlots.Lib.Switches
import AdapterSlots.Lib.Interference
import AdapterSlots.Lib.Returns
import AdapterSlots.Lib.LongRuns
import AdapterSlots.Lib.RoundRobin
import AdapterSlots.Lib.Binary64
import AdapterSlots.Lib.Decimal
import AdapterSlots.Lib.Tensor
import AdapterSlots.Lib.Ewma
import AdapterSlots.Lib.Recurrence
import AdapterSlots.Lib.GammaP
import AdapterSlots.Lib.BatchStation
import AdapterSlots.Buffer
import AdapterSlots.BufferDispatch
import AdapterSlots.BufferRun
import AdapterSlots.BufferConserve
import AdapterSlots.BufferUnique
import AdapterSlots.BufferTime
import AdapterSlots.BufferDeadline
import AdapterSlots.BufferMemory
import AdapterSlots.BufferProgress
import AdapterSlots.BufferShape
import AdapterSlots.BufferLoops
import AdapterSlots.BufferOrder
import AdapterSlots.FullWarps
import AdapterSlots.LostWarps
import AdapterSlots.WgkpDispatcher
import AdapterSlots.KvAdmission
import AdapterSlots.Admission
import AdapterSlots.AdmissionOrder
import AdapterSlots.Rotation
import AdapterSlots.Segments
import AdapterSlots.TileMap
import AdapterSlots.Multislice
import AdapterSlots.PrefillGate
import AdapterSlots.TiledSlices
import AdapterSlots.GraphReplay
import AdapterSlots.FusedKernel
import AdapterSlots.MergedWeights
import AdapterSlots.Rates
import AdapterSlots.FillProbability
import AdapterSlots.RateEstimator
import AdapterSlots.Policy
import AdapterSlots.LoraCheckpoint
import AdapterSlots.MergeFailures
import AdapterSlots.PromotedStep
import AdapterSlots.Gwar
import AdapterSlots.War
import AdapterSlots.WarmCache
import AdapterSlots.LruPolicy
import AdapterSlots.Prefetch
import AdapterSlots.EvictionPolicies
import AdapterSlots.PiControl
import AdapterSlots.Scheduler
import AdapterSlots.SchedulerTick
import AdapterSlots.SchedulerRun
import AdapterSlots.SchedulerWar
import AdapterSlots.SchedulerReturn
import AdapterSlots.SchedulerRate
import AdapterSlots.SchedulerLoss
import AdapterSlots.SchedulerDrain
import AdapterSlots.SchedulerOrder
import AdapterSlots.BatchKernel
import AdapterSlots.SchedulerBudget
import AdapterSlots.SchedulerDeferral
import AdapterSlots.SchedulerFrame
import AdapterSlots.SchedulerHolding
import AdapterSlots.SchedulerModes
import AdapterSlots.SchedulerMemory
import AdapterSlots.BatchLog
import AdapterSlots.SchedulerControl
import AdapterSlots.SchedulerService
import AdapterSlots.PromotionThreshold
import AdapterSlots.MergeRequests
import AdapterSlots.PromotionLedger
import AdapterSlots.ApisRouter
import AdapterSlots.ApisLoad
import AdapterSlots.ApisMoves
