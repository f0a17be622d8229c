import PxpRpc.Client.ConnectionLoss
import PxpRpc.Client.JavaSid
import PxpRpc.Client.TypeScriptDemux
import PxpRpc.Codec.JavaTableRoundTrip
import PxpRpc.Lib.Callback
import PxpRpc.Pool.ManagedHistory
import PxpRpc.Pool.PythonRefs
import PxpRpc.Codec.NativeRoundTrip
import PxpRpc.Codec.SerializerAgreement
import PxpRpc.Codec.TableTruncation
import PxpRpc.Codec.TableInterop
import PxpRpc.Uv.FramingHistory
import PxpRpc.Uv.StreamData
import PxpRpc.Uv.StreamCompletion
import PxpRpc.Bridge.Executor
import PxpRpc.Bridge.PipeServer
import PxpRpc.Transport.Receive
import PxpRpc.Transport.Connect
import PxpRpc.Pipe.Delivery
import PxpRpc.Pipe.Registry
import PxpRpc.Pipe.Reporting
import PxpRpc.Server.ReceiveBuffer
import PxpRpc.Server.Lifetimes
import PxpRpc.Server.OnFree
import PxpRpc.Server.Finishing
import PxpRpc.Server.EventDispatcher
import PxpRpc.Server.JavaCallable
import PxpRpc.Server.JavaPoll
import PxpRpc.Server.PollReferences
import PxpRpc.Server.AutoClose
import PxpRpc.Client.SidAlloc
import PxpRpc.Client.SidPaths
import PxpRpc.Client.JavaObjects
import PxpRpc.Client.JavaCallbacks
import PxpRpc.Server.JavaDispatcher
import PxpRpc.Transport.JavaSend
import PxpRpc.Transport.JavaReceive
import PxpRpc.Lib.Columns
import PxpRpc.Codec.NativeTableRows
import PxpRpc.Codec.NativeTableMemory
import PxpRpc.Server.NativeHandlers
import PxpRpc.Server.NativeCleanUp
import PxpRpc.Server.NativeCalls
import PxpRpc.Server.FunctionNames
import PxpRpc.Codec.JavaRecords
import PxpRpc.Codec.JavaTyped
import PxpRpc.Tools.IdlGenJava
import PxpRpc.Session.References
import PxpRpc.Session.Protocol
import PxpRpc.Session.Invariant
import PxpRpc.Session.Transport
import PxpRpc.Session.Serving
import PxpRpc.Session.Starting
import PxpRpc.Session.Asking
import PxpRpc.Session.Finishing
import PxpRpc.Session.Runs
import PxpRpc.Session.Progress
