import Arishem.Lib.Lts
import Arishem.Lib.Ring
import Arishem.Lib.Inverse
import Arishem.Lib.Decoder
import Arishem.Lib.Deadlines
import Arishem.Cache.Bookkeeping
import Arishem.Cache.Stores
import Arishem.Cache.Consumers
import Arishem.Cache.StoreStream
import Arishem.Hierarchy.Answers
import Arishem.Paging.Tables
import Arishem.Paging.Keys
import Arishem.Paging.Walks
import Arishem.Paging.Aliasing
import Arishem.Dram.Controller
import Arishem.Dram.Agree
import Arishem.Dram.Sound
import Arishem.Dram.Bookkeeping
import Arishem.Dram.Progress
import Arishem.Dram.Accounts
import Arishem.Reader.Members
import Arishem.Cutter.Chunks
import Arishem.Cutter.Records
import Arishem.Core.Scheduling
import Arishem.Core.Rotation
import Arishem.Tracer.ExitOnDone
import Arishem.Tracer.Workers
import Arishem.Tracer.CodeCache
import Arishem.Tracer.Samples
import Arishem.Tracer.RoiEnd
import Arishem.Tracer.Skips
import Arishem.Tracer.Traces
import Arishem.Lib.Shared
import Arishem.Prefetchers.Power7
import Arishem.Prefetchers.Interference
import Arishem.Prefetchers.Scooby
import Arishem.Prefetchers.Lives
import Arishem.Prefetchers.Pipeline
import Arishem.Prefetchers.Rewards
import Arishem.Prefetchers.Tracking
import Arishem.Prefetchers.Training
import Arishem.Core.Fetching
import Arishem.Lib.Outcome
import Arishem.Core.Execution
import Arishem.Core.LoadStore
import Arishem.Core.Machine
import Arishem.Core.Places
import Arishem.Core.Wakeup
import Arishem.Core.Dependences
import Arishem.Core.Releases
import Arishem.Core.MemoryFrames
import Arishem.Core.Ready
import Arishem.Lib.Window
import Arishem.Prefetchers.Bop
import Arishem.Prefetchers.RewardAll
import Arishem.Prefetchers.Signatures
import Arishem.Lib.Recency
import Arishem.Prefetchers.ActionTracker
import Arishem.Lib.Argmax
import Arishem.Prefetchers.Featurewise
import Arishem.Cache.MissLatency
import Arishem.Cache.Prefetches
import Arishem.Core.Branches
import Arishem.Core.MemoryRotation
import Arishem.Core.Producers
import Arishem.Prefetchers.Exploration
import Arishem.Lib.Passes
import Arishem.Prefetchers.BestOffsets
import Arishem.Prefetchers.Strides
import Arishem.Prefetchers.Rounds
import Arishem.Prefetchers.Phases
import Arishem.Prefetchers.Degrees
import Arishem.Lib.Ages
import Arishem.Prefetchers.Bitmaps
import Arishem.Prefetchers.Sms
import Arishem.Prefetchers.Regions
import Arishem.Prefetchers.Victims
import Arishem.Prefetchers.DsPatch
import Arishem.Prefetchers.Coverage
import Arishem.Prefetchers.Percentages
import Arishem.Core.Stages
import Arishem.Core.Transitions
import Arishem.Core.WakeRuns
import Arishem.Core.FetchRuns
import Arishem.Core.FetchCaches
import Arishem.Lib.Ranks
import Arishem.Cache.LruOrder
import Arishem.Cache.PacketQueue
import Arishem.Lib.Aging
import Arishem.Replacement.Policies
import Arishem.Replacement.Bounds
import Arishem.Lib.Sorted
import Arishem.Lib.BitWords
import Arishem.Core.FastSet
import Arishem.Core.FastSets
import Arishem.Paging.Faults
import Arishem.Hierarchy.Translation
import Arishem.Hierarchy.Translates
import Arishem.Hierarchy.Invalidation
import Arishem.Hierarchy.CoreTlbs
import Arishem.Hierarchy.Swaps
import Arishem.Hierarchy.LoneMisses
import Arishem.Hierarchy.PageReads
import Arishem.Hierarchy.StaleTranslations
import Arishem.Lib.LruTable
import Arishem.Prefetchers.SppRuns
import Arishem.Config.KnobLists
import Arishem.Prefetchers.LruCaches
import Arishem.Prefetchers.BingoRuns
import Arishem.Prefetchers.MlopRuns
import Arishem.Tracer.Replays
import Arishem.Branch.TraceRuns
