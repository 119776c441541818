import Droplet.Lib.Search
import Droplet.Lib.Lines
import Droplet.Http.Text
import Droplet.Http.HttpMap
import Droplet.Http.Message
import Droplet.Http.HeaderLoop
import Droplet.Http.HeaderBlock
import Droplet.Http.RequestParser
import Droplet.Lib.Restart
import Droplet.Lib.Transition
import Droplet.Http.Session
import Droplet.Http.ChunkedBody
import Droplet.Http.ChunkLimits
import Droplet.Http.ResponseParser
import Droplet.Http.ResponseParts
import Droplet.Http.Connection
import Droplet.Http.Server
import Droplet.Http.Uri
import Droplet.Http.Client
import Droplet.Http.Pool
import Droplet.Scheduler.FdContext
import Droplet.Scheduler.Idle
import Droplet.Scheduler.Run
import Droplet.Scheduler.ResumeStates
import Droplet.Scheduler.RunSafety
import Droplet.Scheduler.Stop
import Droplet.Scheduler.Wakeup
import Droplet.Hook.Timeout
import Droplet.Hook.Close
import Droplet.Hook.Connect
import Droplet.Hook.Nonblock
import Droplet.Scheduler.Events
import Droplet.Scheduler.Registrations
import Droplet.Scheduler.Cancel
import Droplet.Lib.KeyedSet
import Droplet.Scheduler.Timer
import Droplet.Scheduler.TimerHistory
import Droplet.Scheduler.TimerWait
import Droplet.Lib.Splice
import Droplet.Stream.ByteArray
import Droplet.Stream.FlatBuffer
import Droplet.Lib.Words
import Droplet.Stream.Typed
import Droplet.Stream.RoundTrip
import Droplet.Lib.Groups
import Droplet.Stream.Varint
import Droplet.Stream.FailedRead
import Droplet.Lib.TwoRuns
import Droplet.Stream.Reading
import Droplet.Stream.ScatterGather
import Droplet.Stream.Clear
import Droplet.Stream.FixSize
import Droplet.Stream.VectorLimit
import Droplet.Scheduler.TimerScan
import Droplet.Scheduler.OwnFirst
import Droplet.Http.WholeMessage
import Droplet.Lib.Tally
import Droplet.Http.PoolCapacity
import Droplet.Http.PoolClock
import Droplet.Hook.SocketTimeout
import Droplet.Http.RequestTimeout
import Droplet.Http.KeyValueList
import Droplet.Http.LazyParts
import Droplet.Http.FormRoundTrip
import Droplet.Http.Servlet
import Droplet.Scheduler.Base
import Droplet.Scheduler.Conservation
import Droplet.Scheduler.Pinning
import Droplet.Scheduler.StopWait
import Droplet.Scheduler.Owners
import Droplet.Http.UriRoundTrip
import Droplet.Http.RequestRoundTrip
import Droplet.Lib.Linearization
import Droplet.Net.TcpServer
import Droplet.Lib.Prefix
import Droplet.Net.Address
import Droplet.Net.IPPrefix
import Droplet.Net.UnixAddress
import Droplet.Lib.Coroutine
import Droplet.Fiber.Switch
import Droplet.Config.Listeners
import Droplet.Lib.Writes
import Droplet.Lib.LazyCache
import Droplet.Lib.RuleTable
import Droplet.Lib.Guarded
import Droplet.Http.ResponseFields
import Droplet.Http.Ranged
import Droplet.Http.RequestGrammar
import Droplet.Http.ChunkGrammar
import Droplet.Http.BufferBound
import Droplet.Http.CloseFlag
import Droplet.Config.Reload
import Droplet.Config.Arithmetic
import Droplet.Config.Convert
import Droplet.Config.Yaml
import Droplet.Config.TextRoundTrip
import Droplet.Http.HeaderOrder
import Droplet.Utils.Utf8
import Droplet.Fiber.Coroutines
import Droplet.Lib.LastKey
import Droplet.Logger.Formatter
import Droplet.Net.Socket
import Droplet.Http.ClientLoop
import Droplet.Http.PlainMessage
import Droplet.Http.Exchange
import Droplet.Http.Routes
import Droplet.Logger.LogLine
import Droplet.Logger.Loggers
import Droplet.Logger.Statement
import Droplet.Logger.Pattern
import Droplet.Lib.Commit
import Droplet.Config.Registry
import Droplet.Scheduler.Callbacks
import Droplet.Hook.Sleep
import Droplet.Sync.Lock
import Droplet.Scheduler.QueueOrder
import Droplet.Stream.Files
import Droplet.Net.AddressOrder
import Droplet.Net.Resolve
import Droplet.Utils.Utf16
import Droplet.Http.Direct
