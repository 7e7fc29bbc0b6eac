import BoostNet.AsycApi
import BoostNet.AtmAuth
import BoostNet.AtmMoney
import BoostNet.BigObjectMgr
import BoostNet.CServer
import BoostNet.CSessionArmed
import BoostNet.CSessionBounds
import BoostNet.CSessionFraming
import BoostNet.Channel
import BoostNet.CircularQueLifetime
import BoostNet.CircularQueLight
import BoostNet.CircularQueSync
import BoostNet.Connection
import BoostNet.CoroutineServer
import BoostNet.CoroutineServerRank
import BoostNet.Dispatcher
import BoostNet.DoublePushAlone
import BoostNet.DoublePushList
import BoostNet.Endpoint
import BoostNet.ForEach
import BoostNet.ForkJoin
import BoostNet.HazardPointerStackSafe
import BoostNet.HelpingSorter
import BoostNet.HierachicalMutex
import BoostNet.InPlaceQuickSort
import BoostNet.InterruptFlag
import BoostNet.ListQuickSort
import BoostNet.LockFreeQueReclaim
import BoostNet.LockFreeStackSafe
import BoostNet.LogicDispatch
import BoostNet.LogicRunning
import BoostNet.LogicStop
import BoostNet.LogicSystemPosted
import BoostNet.MessagePassing
import BoostNet.Monitor
import BoostNet.ParallelFind
import BoostNet.PartialSum
import BoostNet.PollingPools
import BoostNet.PoolForEach
import BoostNet.PoolQuickSortDeadlock
import BoostNet.ProductConsumerMgr
import BoostNet.RefCountStackOverflow
import BoostNet.RefCountStackSafe
import BoostNet.ResonableImplemention
import BoostNet.Ring
import BoostNet.SendPipeline
import BoostNet.SendRead
import BoostNet.SessionTable
import BoostNet.SinglePopPush
import BoostNet.Singleton
import BoostNet.SpinLock
import BoostNet.StealQueue
import BoostNet.ThreadPool
import BoostNet.ThreadsafeList
import BoostNet.ThreadsafeTable
import BoostNet.TwoLockQue
import BoostNet.WaitableContainers
