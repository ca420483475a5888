import MuduoX.Http.Segmentation
import MuduoX.Http.RoundTrip
import MuduoX.Net.TcpConnection
import MuduoX.Net.Output
import MuduoX.Theory.Run
import MuduoX.Http.WebRoot
import MuduoX.Theory.Path
import MuduoX.Http.Closing
import MuduoX.Http.Exchange
import MuduoX.Http.Pipeline
import MuduoX.Net.Callbacks
import MuduoX.Net.CrossSend
import MuduoX.Timer.Arming
import MuduoX.Timer.Cancellation
import MuduoX.Log.Draining
import MuduoX.BufferMemory
import MuduoX.Http.ResponseDecoder
import MuduoX.Cache.Totals
import MuduoX.Cache.ShardedTotal
import MuduoX.Cache.Reference
import MuduoX.Net.Interest
import MuduoX.Loop.Functors
import MuduoX.Loop.EventLoopThread
import MuduoX.Uring.Progress
import MuduoX.Net.Shutdown
import MuduoX.Memory.SharedPool
import MuduoX.Net.Destruction
import MuduoX.Net.ConnectionTable
import MuduoX.Http.Reads
import MuduoX.Http.ContentLength
import MuduoX.Http.HeaderFields
import MuduoX.Http.Termination
import MuduoX.Http.StaticFile
import MuduoX.Net.SendFile
import MuduoX.Timer.Batch
import MuduoX.Timer.Adding
import MuduoX.Log.Logger
import MuduoX.Log.LogFile
import MuduoX.Cache.Slices
import MuduoX.BufferGrowth
import MuduoX.Memory.Blocks
import MuduoX.Log.Backend
