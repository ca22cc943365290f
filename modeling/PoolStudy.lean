import PoolStudy.Threadpool.Wake
import PoolStudy.Threadpool.Lock
import PoolStudy.Threadpool.Atomic
import PoolStudy.Threadpool.Create
import PoolStudy.Threadpool.Rest
import PoolStudy.Threadpool.ShutdownTest
import PoolStudy.Threadpool.Thrdtest
import PoolStudy.Thpool.Init
import PoolStudy.Thpool.Jobs
import PoolStudy.Thpool.Wait
import PoolStudy.Thpool.Semaphore
import PoolStudy.Thpool.Pools
import PoolStudy.Thpool.Pause
import PoolStudy.Thpool.ConcIncrement
import PoolStudy.Workqueue.Jobs
import PoolStudy.Workqueue.Exit
import PoolStudy.Workqueue.Traversal
import PoolStudy.Workqueue.Links
import PoolStudy.Workqueue.Rest
import PoolStudy.Workqueue.Signals
import PoolStudy.EchoServer.Owners
import PoolStudy.EchoServer.Reading
import PoolStudy.ChatPool.Join
import PoolStudy.ChatServer.Clients
import PoolStudy.ChatServer.Messages
import PoolStudy.ChatServer.Shutdown
import PoolStudy.ChatServer.Handling
import PoolStudy.ChatServer.Rest
import PoolStudy.WorkerThreads.Progress
import PoolStudy.TP.Serving
import PoolStudy.TP.Stranded
import PoolStudy.TP.Destroy
import PoolStudy.TP.Create
import PoolStudy.TP.Refused
import PoolStudy.TP.Demo
import PoolStudy.EpollExample.Draining
import PoolStudy.EpollServer.Served
import PoolStudy.EpollClient.Lines
import PoolStudy.EpollThreadpool.Closing
import PoolStudy.NetworkProgramming.Echo
import PoolStudy.NetworkProgramming.MultiServer
import PoolStudy.Heavy.Passes
