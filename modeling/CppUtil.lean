import CppUtil.Lib.Assoc
import CppUtil.Lib.Calendar
import CppUtil.Lib.EdgeTriggered
import CppUtil.Lib.LazyTree
import CppUtil.Lib.Linked
import CppUtil.Lib.Logged
import CppUtil.Lib.Machine
import CppUtil.Lib.Message
import CppUtil.Lib.Outcomes
import CppUtil.Lib.Pieces
import CppUtil.Lib.Progress
import CppUtil.Lib.Ring
import CppUtil.Lib.Walk
import CppUtil.Lang.Numeric
import CppUtil.Lang.StringStream
import CppUtil.Lang.StringView
import CppUtil.Lang.NewDelete
import CppUtil.Lang.SharedPtr
import CppUtil.Lang.CString
import CppUtil.Lang.Malloc
import CppUtil.Lang.FileSystem
import CppUtil.Util.StringUtil
import CppUtil.Util.MagicEnum
import CppUtil.HttpServer.Request
import CppUtil.HttpServer.Response
import CppUtil.HttpServer.Framing
import CppUtil.HttpServer.Server
import CppUtil.HttpServer.Sending
import CppUtil.HttpServer.Position
import CppUtil.HttpServer.Reading
import CppUtil.HttpServer.Serving
import CppUtil.HttpServer.Answers
import CppUtil.HttpServer.Post
import CppUtil.HttpServer.Outcome
import CppUtil.HttpServer.Headers
import CppUtil.HttpServer.Forms
import CppUtil.HttpServer.EpollSocket
import CppUtil.HttpServer.Contexts
import CppUtil.HttpServer.Loop
import CppUtil.HttpServer.Sessions
import CppUtil.HttpServer.LoopRuns
import CppUtil.HttpServer.Rearming
import CppUtil.DataStructure.SegmentTree
import CppUtil.DataStructure.SegmentTreeLaws
import CppUtil.DataStructure.SegmentTreeRuns
import CppUtil.DataStructure.LazyInvariant
import CppUtil.DataStructure.SegmentTreeAccess
import CppUtil.DataStructure.RingBufferQueue
import CppUtil.DataStructure.Trie
import CppUtil.JsonHelper.JsonCpp
import CppUtil.JsonHelper.Types
import CppUtil.JsonHelper.Marshal
import CppUtil.JsonHelper.Unmarshal
import CppUtil.JsonHelper.Tree
import CppUtil.JsonHelper.MarshalLaws
import CppUtil.JsonHelper.UnmarshalLaws
import CppUtil.JsonHelper.ReadBack
import CppUtil.JsonHelper.RoundTrip
import CppUtil.JsonHelper.Exceptions
import CppUtil.JsonHelper.Conformance
import CppUtil.JsonHelper.Documents
import CppUtil.JsonHelper.Compatibility
import CppUtil.JsonHelper.Overwriting
import CppUtil.JsonHelper.Independence
import CppUtil.JsonHelper.MemberNames
import CppUtil.JsonHelper.Temporaries
import CppUtil.JsonHelper.Settled
import CppUtil.JsonHelper.Pointers
import CppUtil.RcuPtr.RcuPtr
import CppUtil.RcuPtr.RcuPtrLaws
import CppUtil.RcuPtr.RcuPtrRuns
import CppUtil.RcuPtr.Retries
import CppUtil.RcuPtr.Versions
import CppUtil.DoubleBuffer.DoubleBuffer
import CppUtil.DoubleBuffer.DoubleBufferLaws
import CppUtil.DoubleBuffer.Exclusion
import CppUtil.DoubleBuffer.Waiting
import CppUtil.DoubleBuffer.Replay
import CppUtil.DoubleBuffer.Exceptions
import CppUtil.Threadpool.ThreadPool
import CppUtil.Threadpool.ThreadPoolLaws
import CppUtil.Threadpool.Wakeups
import CppUtil.Threadpool.Shutdown
import CppUtil.Lockfree.LockFreeStack
import CppUtil.Lockfree.LockFreeStackLaws
import CppUtil.Lockfree.LockFreeStackRuns
import CppUtil.Lockfree.Retries
import CppUtil.Lockfree.Teardown
import CppUtil.Lockfree.Linearizable
import CppUtil.Lockfree.IpcMessageQueue
import CppUtil.Lockfree.ReadOnlySharedMemory
import CppUtil.Lockfree.ReadWriteSharedMemory
import CppUtil.Lockfree.Processes
import CppUtil.Lockfree.Regions
import CppUtil.Lockfree.LoneWriter
import CppUtil.Logger.FileAppender
import CppUtil.Logger.Rotation
import CppUtil.Logger.Retention
import CppUtil.Logger.History
import CppUtil.Logger.EveryN
import CppUtil.Logger.EveryNRuns
import CppUtil.Logger.FirstN
import CppUtil.Logger.Logger
import CppUtil.Logger.Sinks
import CppUtil.Logger.Appenders
import CppUtil.Logger.AppendersRuns
import CppUtil.Logger.Backtrace
import CppUtil.Logger.Demangling
import CppUtil.Logger.Placement
import CppUtil.Logger.Threads
import CppUtil.Logger.FatalLogs
import CppUtil.RedisProxy.RedisProxy
import CppUtil.RedisProxy.Replies
import CppUtil.RedisProxy.SetGet
import CppUtil.RedisProxy.Pipeline
import CppUtil.RedisProxy.Heap
import CppUtil.RedisProxy.Ownership
import CppUtil.Tcp.TcpServer
import CppUtil.Tcp.Draining
import CppUtil.Tcp.Delivery
import CppUtil.Tcp.SlowClients
import CppUtil.Tcp.TcpClient
import CppUtil.Tcp.Receivers
