import Sylar.ByteArray.Codec
import Sylar.Timer.Tickle
import Sylar.IOManager.Pending
import Sylar.IOManager.Delivery
import Sylar.IOManager.Agree
import Sylar.Hook.Safety
import Sylar.Fiber.Shared
import Sylar.Scheduler.Sleep
import Sylar.Scheduler.Conserve
import Sylar.Scheduler.Affinity
import Sylar.Scheduler.Stop
import Sylar.Http.Framing
import Sylar.Lib.OrderedMap
import Sylar.Log.Basic
import Sylar.Log.Config
import Sylar.Config.Var
import Sylar.Http.Headers
import Sylar.Http.Mutators
import Sylar.IOManager.First
import Sylar.Hook.Fds
import Sylar.Lib.Paths
import Sylar.Lib.Trace
import Sylar.Uri.Grammar
import Sylar.Uri.Rfc3986
import Sylar.Uri.Events
import Sylar.Uri.Create
import Sylar.Uri.Hosts
import Sylar.Lib.Stages
import Sylar.ByteArray.Readers
import Sylar.ByteArray.Positions
import Sylar.ByteArray.File
import Sylar.Stream.Transfer
import Sylar.Timer.Atomic
import Sylar.Timer.Early
import Sylar.Socket.Basic
import Sylar.Socket.Acts
import Sylar.Socket.Once
import Sylar.Http.Decimal
import Sylar.Uri.Print
import Sylar.Http.Print
import Sylar.Http.Lines
import Sylar.Http.ResponseLines
import Sylar.IOManager.Failures
import Sylar.Stream.Sizes
import Sylar.Http.Receive
import Sylar.Http.Truncated
import Sylar.Http.Requests
import Sylar.Http.Robust
import Sylar.Hook.Durations
import Sylar.Fiber.Cyclic
import Sylar.Fiber.Occupiers
import Sylar.Hook.Transparent
import Sylar.Http.Memory
import Sylar.Http.RequestLine
import Sylar.Http.RequestHeaders
import Sylar.Http.Faithful
import Sylar.Address.Basic
import Sylar.Address.Order
import Sylar.Address.Unix
import Sylar.Address.Subnet
import Sylar.Address.Text
import Sylar.Env.Args
import Sylar.Socket.Transfer
import Sylar.Uri.Ports
import Sylar.Config.Yaml
import Sylar.Log.Entries
import Sylar.Config.Load
import Sylar.Log.Pattern
import Sylar.Http.Target
import Sylar.Http.RequestTrip
import Sylar.Http.RoundTrip
import Sylar.Fiber.Pool
import Sylar.Lib.FileTree
import Sylar.Util.FSUtil
import Sylar.Http.ResponseHeaders
import Sylar.Http.ResponseTrip
import Sylar.Http.Servlet
import Sylar.Http.Server
import Sylar.Http.Exchange
import Sylar.TcpServer.Accept
import Sylar.TcpServer.Listen
import Sylar.Util.Files
import Sylar.Log.Handles
import Sylar.Log.File
import Sylar.Hook.Changes
import Sylar.Hook.Connect
import Sylar.Address.Lookup
import Sylar.Address.Interfaces
import Sylar.Uri.Lookup
import Sylar.Http.Sequence
