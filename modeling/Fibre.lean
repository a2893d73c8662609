import Fibre.Cache.LoadPool
import Fibre.Cache.SingleFlight
import Fibre.Cache.StaleReads
import Fibre.Cache.Timers
import Fibre.Cache.TinyLockstep
import Fibre.Channels.Handles
import Fibre.Channels.Mpmc.Stranded
import Fibre.Channels.Mpmc.Disconnect
import Fibre.Channels.Mpmc.TimedRecv
import Fibre.Channels.Rendezvous.Exchange
import Fibre.Channels.Rendezvous.Outstanding
import Fibre.Channels.Oneshot.FreeList
import Fibre.Channels.Oneshot.Lifecycle
import Fibre.Channels.LeftRight.Guards
import Fibre.Logging.WriterLoop
import Fibre.Channels.Spmc.Broadcast
import Fibre.Logging.FailedRoll
import Fibre.Stats.CommonTags
import Fibre.Channels.Spmc.ReceiverCount
import Fibre.Channels.Sync.Mutex
import Fibre.Channels.Spmc.Disconnects
import Fibre.Ioc.Singletons
import Fibre.Cache.NextDue
import Fibre.Cache.ArcCosts
import Fibre.Cache.PolicyCapacity
import Fibre.Cache.Iter
import Fibre.Cache.Snapshot
import Fibre.Cache.Ghosts
import Fibre.Tracing.Complete
import Fibre.Channels.Mpmc.BatchSingles
import Fibre.Channels.Oneshot.SendErrors
import Fibre.Logging.PatternFormat
import Fibre.Logging.Retention
import Fibre.Stats.HighRes
import Fibre.Stats.Quantile
import Fibre.Cache.LruRuns
import Fibre.Channels.SlabChain
import Fibre.Channels.Vyukov.Verdicts
import Fibre.Ioc.Circular
import Fibre.Logging.Drops
import Fibre.Logging.Prefilter
import Fibre.Logging.SizeLimit
import Fibre.Cache.SlabRuns
import Fibre.Channels.Spsc.Batches
import Fibre.Channels.Mpsc.Places
import Fibre.Cache.Random
