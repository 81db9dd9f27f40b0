import Wish.Machine
import Wish.OrdMap
import Wish.Prog
import Wish.Heap
import Wish.Partition
import Wish.Lua
import Wish.Core.StablePriorityQueue
import Wish.Core.StaticStablePriorityQueue
import Wish.Core.PriorityThreadPool
import Wish.Core.ThreadPool
import Wish.Core.ThreadPool.Moves
import Wish.Core.ThreadPool.Conserved
import Wish.Core.ThreadPool.Stop
import Wish.Core.ThreadPool.Wakeup
import Wish.Core.NnSocket
import Wish.Core.StringUtil
import Wish.Core.Event
import Wish.Core.SafeThread
import Wish.Core.TaggedPtr
import Wish.Core.TaggedPtr.Simulation
import Wish.Core.Freelist
import Wish.Core.Freelist.Ownership
import Wish.Core.LockfreeQueue
import Wish.Core.LockfreeQueue.Chain
import Wish.Core.LockfreeQueue.Effect
import Wish.Core.LockfreeQueue.Refinement
import Wish.Core.LockfreeQueue.Fifo
import Wish.Core.LockfreeQueue.Once
import Wish.Core.LockfreeQueue.Sequential
import Wish.Core.LockfreeQueue.SequentialFifo
import Wish.Core.LuaFunction
import Wish.Core.LuaFunction.RoundTrip
import Wish.Core.LuaFunction.Leftover
import Wish.Core.LuaFunction.Balance
import Wish.Core.LuaFunction.Traversal
import Wish.EasyExchange.Account
import Wish.EasyExchange.Trades
import Wish.Net.Session
import Wish.Net.SessionPool
import Wish.Net.Tcp.Session
import Wish.Net.Tcp.Client
import Wish.Net.Tcp.Server
import Wish.Net.Tcp.ServerFind
import Wish.Net.Http.Parser
import Wish.Net.Http.Message
import Wish.Net.Http.MessageSplit
import Wish.Net.Http.MessageReuse
import Wish.Net.Http.MessageCompleted
import Wish.Net.Http.MessageBoth
import Wish.Net.Http.MessageReads
import Wish.Net.Http.Uri
import Wish.Net.Http.UriFound
import Wish.Net.Http.UriCompose
import Wish.Net.Http.UriQuery
import Wish.Net.Http.UriReads
import Wish.Net.Http.Client
import Wish.Net.Http.ClientResponse
import Wish.Net.Http.ClientRequest
import Wish.Util.SpinLock
import Wish.Practice.HeapSort
import Wish.Practice.QuickSort
import Wish.Practice.QuickSort.Sorted
import Wish.Practice.Decompress
import Wish.Practice.Huiwen
import Wish.Practice.RBTree
import Wish.Practice.RBTree.Shape
import Wish.Practice.RBTree.Links
import Wish.Practice.RBTree.Insert
import Wish.Practice.RBTree.Erase
import Wish.Practice.RBTree.Queries
import Wish.Practice.RBTree.Run
import Wish.Practice.RBTree.Nodes
import Wish.Practice.RBTree.Revolve
import Wish.Practice.RBTree.Height
import Wish.Practice.Tree
import Wish.Practice.Tree.Links
import Wish.Practice.Tree.Erase
import Wish.Practice.Tree.Queries
import Wish.Practice.Tree.Run
import Wish.Memory.MyLink
import Wish.Memory.MyLink.Reversal
import Wish.Memory.MyLink.Delect
import Wish.Memory.MyMalloc
import Wish.Memory.MyFuture
import Wish.Memory.CJson
import Wish.Memory.CJson.Strings
import Wish.Memory.CJson.Grammar
import Wish.Memory.CJson.RoundTrip
import Wish.Memory.CJson.Ends
import Wish.Memory.CJson.Buffers
import Wish.Memory.CJson.Minify
