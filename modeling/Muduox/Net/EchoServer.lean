import Muduox.Net.PeerSocket
import Muduox.Proofs.AddressText

/-!
# The echo server

`examples/echo/main.cpp`: a server on port 8888 with four IO threads, and the
sockets of its peers. Its user code is in the callbacks. The one for a message
sends what the input buffer holds and retrieves all of it; the one for a
connection prints a line; none is set for a finished write. No other thread
calls the server while it runs: the main thread waits for a key.

A loop's thread is in one callback at a time, and `callback` is what is left of
it when it is a message's.
-/

namespace Muduox.Net

/-- What is left of the message callback of a connection. -/
inductive Echo where
  | done
  /-- `conn->send(buf->peek(), buf->readableBytes())`, and then the rest. -/
  | send (c : ConnId)
  /-- `buf->retrieveAll()`. -/
  | retrieveAll (c : ConnId)
  deriving DecidableEq

structure EchoServer where
  net : Peered
  callback : LoopId → Echo

namespace EchoServer

def listenAddr : InetAddress := .ofPort .little 8888 false

def config : ServerConfig where
  name_ := "EchoServer".toList
  ipPort_ := listenAddr.ipPort .little
  threadNum_ := 4
  messageCallback_ := true
  writeCompleteCallback_ := false
  platform := .linux

/-- The callback loop `l`'s thread is in goes on with `ch`. `retrieveAll()` is
`retrieve(readableBytes())`. -/
def goesOn (s : EchoServer) (l : LoopId) (ch : Choice Code (Io (List (Int × EpollMask)))) :
    Bool :=
  match s.callback l, ch with
  | .done, .ret => true
  | .send c, .call (.conn d (.send m)) =>
      d == c && m.bytes.1 == (s.net.server.shared.app.conn c).inputBuffer_.bytes
  | .retrieveAll c, .call (.conn d (.retrieveInput n)) =>
      d == c && n == (s.net.server.shared.app.conn c).inputBuffer_.bytes.length
  | _, _ => false

/-- Thread `t` may take the step `ch`: its user code says so, if it is in any. -/
def allows (s : EchoServer) (t : ThreadId) (ch : Choice Code (Io (List (Int × EpollMask)))) :
    Bool :=
  match (s.net.server.stack t).head?, t, ch with
  | some .user, .loop l, ch => s.goesOn l ch
  | some .user, .user _, .ret => true
  | some .user, .user _, _ => false
  | _, _, _ => true

/-- `callback` after thread `t` took the step to `net`. -/
def callbacks (s : EchoServer) (t : ThreadId) (net : Peered) : LoopId → Echo :=
  match (s.net.server.stack t).head?, t with
  | some .user, .loop l =>
      Function.update s.callback l
        (match s.callback l with
          | .send c => .retrieveAll c
          | _ => .done)
  | some (.code (.conn c .handleRead)), .loop l =>
      let news := (net.server.shared.app.log c).drop (s.net.server.shared.app.log c).length
      if .callback .message ∈ news then Function.update s.callback l (.send c) else s.callback
  | _, _ => s.callback

def step (s : EchoServer) : PeerStep → Option EchoServer
  | .run t ch =>
      if s.allows t ch then
        (Peered.step config s.net (.run t ch)).map fun net => ⟨net, s.callbacks t net⟩
      else none
  | a => (Peered.step config s.net a).map fun net => { s with net }

/-- The runs of the echo server with its peers. -/
def lts : Lts EchoServer PeerStep where
  init s := s = ⟨⟨TcpServer.started epollPoller, fun _ => {}⟩, fun _ => .done⟩
  step := step

end EchoServer

end Muduox.Net
