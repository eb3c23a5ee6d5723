import IoJs.Agent.Exchange
import IoJs.Agent.Keys
import IoJs.Agent.Limit
import IoJs.Buffer.Base64Reads
import IoJs.Buffer.ByteLength
import IoJs.Buffer.Concat
import IoJs.Buffer.Fill
import IoJs.Buffer.ForceAscii
import IoJs.Buffer.IndexOf
import IoJs.Buffer.Writers
import IoJs.ChildProcess.Order
import IoJs.ChildProcess.Pairing
import IoJs.ChildProcess.Throwing
import IoJs.Cluster.FreeList
import IoJs.Cluster.Missing
import IoJs.Cluster.NoLeak
import IoJs.Crypto.Faithful
import IoJs.Crypto.OverRead
import IoJs.Crypto.Queue
import IoJs.Debugger.Client
import IoJs.Debugger.Protocol
import IoJs.Domain
import IoJs.Events.Refinement
import IoJs.Fs.Agreement
import IoJs.Fs.Streams
import IoJs.Http.Headers
import IoJs.Http.IncomingHeaders
import IoJs.Http.Pipelining
import IoJs.Http.Reuse
import IoJs.Http.WireEncoding
import IoJs.NextTick
import IoJs.Path.Format
import IoJs.Path.Inverse
import IoJs.Path.Join
import IoJs.Readline.Editor
import IoJs.Stream.Pipe.AwaitDrain
import IoJs.Stream.Pipe.PipingSet
import IoJs.Stream.Readable.End
import IoJs.Stream.Readable.Flow
import IoJs.Stream.Writable.Callbacks
import IoJs.Stream.Writable.Drain
import IoJs.Stream.Writable.Order
import IoJs.Stream.Writable.Rejection
import IoJs.StringDecoder.Base64
import IoJs.StringDecoder.Surrogates
import IoJs.Timers.Discipline
import IoJs.Timers.ImmediateOrder
import IoJs.Timers.Table
import IoJs.Timers.Unref
import IoJs.Tls.Buffers
import IoJs.Tls.Identity
import IoJs.Tls.WriteOrder
import IoJs.Url.Merge
import IoJs.Url.Scheme
import IoJs.Url.SimplePath
import IoJs.Zlib.Lifecycle
