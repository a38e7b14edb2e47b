import Jericho.Api.Spawn
import Jericho.Cluster.Cluster
import Jericho.Cluster.Membership
import Jericho.Cluster.Rotation
import Jericho.Controller.Auth
import Jericho.Crypt.Base64
import Jericho.Crypt.Base64Buffers
import Jericho.Crypt.HmacTokens
import Jericho.Crypt.Jwt
import Jericho.Crypt.LineBase64
import Jericho.Crypt.Sha1
import Jericho.Crypt.Sha1Context
import Jericho.Crypt.Sha1Digest
import Jericho.Crypt.Sha256
import Jericho.Federator.Aggregator
import Jericho.Federator.Federation
import Jericho.Federator.Quorum
import Jericho.Iris.Form
import Jericho.Iris.InPlace
import Jericho.Iris.Interpret
import Jericho.Iris.MetaIndex
import Jericho.Iris.Methods
import Jericho.Iris.Sources
import Jericho.Iris.Yields
import Jericho.Library.Base64
import Jericho.Library.BaseFraming
import Jericho.Library.BlockText
import Jericho.Library.CursorPass
import Jericho.Library.DoublyLinked
import Jericho.Library.FairShare
import Jericho.Library.Heap
import Jericho.Library.InterruptedPass
import Jericho.Library.JobLedger
import Jericho.Library.JsonTree
import Jericho.Library.LexicalPath
import Jericho.Library.LineFile
import Jericho.Library.LinkedQueue
import Jericho.Library.Logged
import Jericho.Library.Occurrence
import Jericho.Library.PartWrites
import Jericho.Library.Pattern
import Jericho.Library.QueryText
import Jericho.Library.Runs
import Jericho.Library.ShellWords
import Jericho.Library.Splice
import Jericho.Library.StdText
import Jericho.Library.Strtok
import Jericho.Library.SynchronousCalls
import Jericho.Library.Tally
import Jericho.Library.TextLines
import Jericho.Library.WebFrame
import Jericho.Message.Access
import Jericho.Message.Barrier
import Jericho.Message.Bifrost
import Jericho.Message.Bounce
import Jericho.Message.Callback
import Jericho.Message.CallbackHeaders
import Jericho.Message.CookieRoundTrip
import Jericho.Message.Expiry
import Jericho.Message.Handled
import Jericho.Message.Lifetime
import Jericho.Message.MessageBuffer
import Jericho.Message.Operations
import Jericho.Message.RemoteCall
import Jericho.Message.ReplyAddress
import Jericho.Message.Responses
import Jericho.Message.Ricochet
import Jericho.Message.Senders
import Jericho.Message.Serve
import Jericho.Message.Spelling
import Jericho.Message.Steps
import Jericho.Message.Tickets
import Jericho.Module.Migrator
import Jericho.Module.Topology
import Jericho.Module.TopologyChecks
import Jericho.Pool.Drain
import Jericho.Pool.Jobs
import Jericho.Pool.Refinement
import Jericho.Pool.Sections
import Jericho.Pool.ThreadPool
import Jericho.Pool.Wakeups
import Jericho.Server.BinaryMessages
import Jericho.Server.ClientList
import Jericho.Server.Clients
import Jericho.Server.DeclaredLength
import Jericho.Server.Distributed
import Jericho.Server.Fetch
import Jericho.Server.FetchDecoding
import Jericho.Server.FetchLoop
import Jericho.Server.HeaderSection
import Jericho.Server.LoopSafety
import Jericho.Server.LoopWaiting
import Jericho.Server.ParseHeaders
import Jericho.Server.Readable
import Jericho.Server.Request
import Jericho.Server.Response
import Jericho.Server.RoundTrip
import Jericho.Server.RunLoop
import Jericho.Server.Segments
import Jericho.Server.SendLoops
import Jericho.Server.ServeHttp
import Jericho.Server.StaticFiles
import Jericho.Server.Wire
import Jericho.Session.SessionLookup
import Jericho.Session.SessionManager
import Jericho.System.RouteTables
import Jericho.System.Router
import Jericho.Util.Join
import Jericho.Util.Json
import Jericho.Util.LeakDetector
import Jericho.Util.Leaks
import Jericho.Util.Picojson
import Jericho.Util.PicojsonAccepted
import Jericho.Util.PicojsonRoundTrip
import Jericho.Util.Prizm
import Jericho.Util.SubstrOrder
import Jericho.Util.Substrcmp
import Jericho.Util.Tokenize
import Jericho.Util.Trace
import Jericho.Util.Url
import Jericho.Util.UrlArgs
import Jericho.Util.UrlComponents
import Jericho.Util.UrlConstructor
import Jericho.WebSocket.Accesses
import Jericho.WebSocket.Bounds
import Jericho.WebSocket.Encoding
import Jericho.WebSocket.Fragments
import Jericho.WebSocket.Frame
import Jericho.WebSocket.Handshake
import Jericho.WebSocket.Push
import Jericho.WebSocket.Reading
import Jericho.WebSocket.Receive
import Jericho.WebSocket.Terminator
