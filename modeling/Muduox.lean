import Muduox.Proofs.Wakeup
import Muduox.Proofs.CallbackProtocol
import Muduox.Proofs.GracefulClose
import Muduox.Proofs.StateOrder
import Muduox.Proofs.WriteInterest
import Muduox.Net.EpollPoller
import Muduox.Proofs.EpollRegistration
import Muduox.Net.ThreadPool
import Muduox.Proofs.FunctorOrder
import Muduox.Proofs.TaskHandoff
import Muduox.Base.AsyncLogging
import Muduox.Proofs.LogDelivery
import Muduox.Proofs.LogTeardown
import Muduox.Net.EventLoopThread
import Muduox.Proofs.QuitRequests
import Muduox.Proofs.QueuedFunctors
import Muduox.Net.PeerSocket
import Muduox.Proofs.DispatchOrder
import Muduox.Proofs.PeerDelivery
import Muduox.Net.ServerTeardown
import Muduox.Proofs.TeardownChannels
import Muduox.Net.IocpPoller
import Muduox.Proofs.IocpContexts
import Muduox.Proofs.ReadReadiness
import Muduox.Proofs.WriteReadiness
import Muduox.Base.LogFile
import Muduox.Proofs.LogRolls
import Muduox.Proofs.LogFlushes
import Muduox.Proofs.BufferGrowth
import Muduox.Proofs.LogSlots
import Muduox.Proofs.WriteCompletion
import Muduox.Proofs.IocpRegistration
import Muduox.Net.IocpPort
import Muduox.Proofs.StaleCompletions
import Muduox.Net.LoopOwner
import Muduox.Proofs.LoopRestarts
import Muduox.Proofs.TransientErrors
import Muduox.Base.Logging
import Muduox.Proofs.BufferMemory
import Muduox.Proofs.LogRecords
import Muduox.Base.LogPipeline
import Muduox.Proofs.LogPipeline
import Muduox.Proofs.Confinement
import Muduox.Proofs.LoopBalance
import Muduox.Proofs.AddressText
import Muduox.Net.EchoServer
import Muduox.Proofs.EchoStream
import Muduox.Proofs.ClosedSockets
import Muduox.Proofs.AtRest
import Muduox.Proofs.Descriptors
import Muduox.Proofs.ReactorLiveness
import Muduox.Proofs.ConnectionLiveness
import Muduox.Proofs.LogLiveness
import Muduox.Proofs.EchoLiveness
