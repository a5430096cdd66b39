import Netpoll.Lib.Transition
import Netpoll.Lib.Threads
import Netpoll.Lib.Chain
import Netpoll.Poll.OperatorCache
import Netpoll.Poll.OperatorReuse
import Netpoll.Connection.Lifecycle
import Netpoll.Connection.LifecycleLaws
import Netpoll.Connection.Close
import Netpoll.Connection.Serve
import Netpoll.Connection.Disconnect
import Netpoll.Connection.SetOnRequest
import Netpoll.Connection.Buffers
import Netpoll.Lib.CloseOnce
import Netpoll.Input.WaitRead
import Netpoll.Input.Until
import Netpoll.Connection.WaitRead
import Netpoll.Connection.Wakeup
import Netpoll.Connection.Until
import Netpoll.Fifo.ReadFifo
import Netpoll.Fifo.ReadFifoLaws
import Netpoll.Fifo.ReadWake
import Netpoll.Fifo.ReadUntil
import Netpoll.Fifo.ReadClose
import Netpoll.Fifo.Transfer
import Netpoll.Poll.Handler
import Netpoll.Poll.PeerClose
import Netpoll.Poll.ReadAll
import Netpoll.Poll.Vectors
import Netpoll.Poll.Manager
import Netpoll.Poll.OpenFailure
import Netpoll.Fifo.Manager
import Netpoll.Connection.CloseCallbacks
import Netpoll.Connection.Release
import Netpoll.Connection.ReleaseLaws
import Netpoll.Server.AcceptLoop
import Netpoll.Lib.Registry
import Netpoll.Server.Registry
import Netpoll.Fifo.WriteFifo
import Netpoll.Connection.Flush
import Netpoll.Fifo.Registration
import Netpoll.Fifo.Writable
import Netpoll.Connection.FlushReturns
import Netpoll.Fifo.FifoConnection
import Netpoll.Fifo.Lifecycle
import Netpoll.Lib.Slices
import Netpoll.Lib.Counting
import Netpoll.Mux.ShardQueue
import Netpoll.Mux.Counters
import Netpoll.Lib.RingBuffer
import Netpoll.Mux.Ring
import Netpoll.Mux.Deliver
import Netpoll.Mux.Entries
import Netpoll.Mux.Drain
import Netpoll.Mux.ShardIndex
import Netpoll.Lib.Memory
import Netpoll.Nocopy.Heap
import Netpoll.Nocopy.LinkBuffer
import Netpoll.Nocopy.Ownership
import Netpoll.Nocopy.Nodes
import Netpoll.Nocopy.Layout
import Netpoll.Nocopy.Read
import Netpoll.Nocopy.Slice
import Netpoll.Nocopy.Buffer
import Netpoll.Nocopy.Reader
import Netpoll.Nocopy.Release
import Netpoll.Nocopy.Growth
import Netpoll.Nocopy.Writer
import Netpoll.Nocopy.Ack
import Netpoll.Nocopy.Append
import Netpoll.Nocopy.Direct
import Netpoll.Nocopy.World
import Netpoll.Nocopy.Acts
import Netpoll.Nocopy.Invariant
import Netpoll.Nocopy.Runs
import Netpoll.Nocopy.Regions
import Netpoll.Nocopy.Insert
import Netpoll.Nocopy.Borrow
import Netpoll.Nocopy.PeekCache
import Netpoll.Nocopy.Contents
import Netpoll.Nocopy.Concat
import Netpoll.Nocopy.Scan
import Netpoll.Nocopy.ZcReader
import Netpoll.Nocopy.ZcStream
import Netpoll.Lib.Staged
import Netpoll.Nocopy.Frame
import Netpoll.Nocopy.Queue
import Netpoll.Nocopy.Refines
import Netpoll.Nocopy.Single
import Netpoll.Nocopy.Lease
import Netpoll.Nocopy.Lifetime
import Netpoll.Nocopy.Book
import Netpoll.Connection.InputStream
import Netpoll.Connection.Receiving
import Netpoll.Connection.ReleaseRefines
import Netpoll.Connection.OutputStream
import Netpoll.Connection.Sending
