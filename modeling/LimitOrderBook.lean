import LimitOrderBook.Library.LinearProbing
import LimitOrderBook.Library.LinkedQueue
import LimitOrderBook.Library.Bitmap
import LimitOrderBook.Library.OrderedMap
import LimitOrderBook.Library.CyclicBuffer
import LimitOrderBook.Library.ByteCodec
import LimitOrderBook.Library.LogLinear
import LimitOrderBook.Library.OrderStatistics
import LimitOrderBook.Library.ReleaseAcquire
import LimitOrderBook.Library.EarlyExit
import LimitOrderBook.Library.DecimalText
import LimitOrderBook.Order
import LimitOrderBook.IdMap.Model
import LimitOrderBook.IdMap.Correctness
import LimitOrderBook.IdMap.Churn
import LimitOrderBook.Level.MemoryPool
import LimitOrderBook.Level.PriceLevel
import LimitOrderBook.Level.Queue
import LimitOrderBook.Level.SharedHeap
import LimitOrderBook.Ladder.Tail
import LimitOrderBook.Ladder.TailCorrectness
import LimitOrderBook.Ladder.Model
import LimitOrderBook.Ladder.Invariant
import LimitOrderBook.Ladder.Recenter
import LimitOrderBook.Ladder.Correctness
import LimitOrderBook.Ladder.Scans
import LimitOrderBook.Book.Engine
import LimitOrderBook.Book.MapModel
import LimitOrderBook.Book.Model
import LimitOrderBook.Book.PriceTime
import LimitOrderBook.Book.RestingBook
import LimitOrderBook.Book.Matching
import LimitOrderBook.Book.Shelves
import LimitOrderBook.Book.MapCorrectness
import LimitOrderBook.Book.Simulation
import LimitOrderBook.Book.Refinement
import LimitOrderBook.Book.Runs
import LimitOrderBook.Book.Priority
import LimitOrderBook.Book.Refusals
import LimitOrderBook.Book.Ledger
import LimitOrderBook.Book.Differential
import LimitOrderBook.Book.Representation
import LimitOrderBook.Signals.Model
import LimitOrderBook.Signals.Uncrossed
import LimitOrderBook.Publisher.Model
import LimitOrderBook.Publisher.Correctness
import LimitOrderBook.Signals.Accumulation
import LimitOrderBook.Signals.Depth
import LimitOrderBook.Book.Mirror
import LimitOrderBook.Signals.Arithmetic
import LimitOrderBook.Signals.Mirror
import LimitOrderBook.Feed.Model
import LimitOrderBook.Feed.Correctness
import LimitOrderBook.Listen.Model
import LimitOrderBook.Listen.Shutdown
import LimitOrderBook.Xdp.Model
import LimitOrderBook.Xdp.Correctness
import LimitOrderBook.Xdp.Redirect
import LimitOrderBook.Listen.Ingest
import LimitOrderBook.Listen.Datagram
import LimitOrderBook.Ladder.TopOfBook
import LimitOrderBook.Ladder.Arithmetic
import LimitOrderBook.Book.Windows
import LimitOrderBook.Book.Arithmetic
import LimitOrderBook.Book.Quantities
import LimitOrderBook.Signals.Quantities
import LimitOrderBook.Feed.Quantities
import LimitOrderBook.Signals.Laws
import LimitOrderBook.Book.DepthWalk
import LimitOrderBook.Book.ProbeLength
import LimitOrderBook.Book.Retraction
import LimitOrderBook.Ladder.Relocation
import LimitOrderBook.Ladder.TailMap
import LimitOrderBook.Latency.Histogram
import LimitOrderBook.Latency.Quantiles
import LimitOrderBook.Book.Relabelling
import LimitOrderBook.Book.Independence
import LimitOrderBook.Book.Parts
import LimitOrderBook.Listen.WeakModel
import LimitOrderBook.Listen.WeakMemory
import LimitOrderBook.Listen.WeakInterleaving
import LimitOrderBook.Xdp.SocketModel
import LimitOrderBook.Xdp.Lifecycle
import LimitOrderBook.Feed.Generator
import LimitOrderBook.Feed.Generated
import LimitOrderBook.Latency.Stages
import LimitOrderBook.Latency.Rows
import LimitOrderBook.Latency.Pipeline
import LimitOrderBook.Listen.Termination
import LimitOrderBook.Listen.Report
import LimitOrderBook.Listen.Loopback
