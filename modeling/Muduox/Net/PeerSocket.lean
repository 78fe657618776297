import Muduox.Net.EpollPoller
import Muduox.Proofs.ServerSteps

/-!
# The kernel's side of a connection

A server on epoll with, for each connection, what the peer sent and what the
kernel still holds of it. The peer sends and closes at any time; a reset,
another error of the socket, or a call on it that fails can come at any time as
well. A step of the server must agree with the sockets: `readv` delivers what is
unread, from the front, or the end of the stream once nothing is; `epoll_wait`
finds a socket readable while it has data or the end of the stream, and hung up
when the peer closed and `shutdownWrite` was called, whatever is unread.

A byte sent with `MSG_OOB` is not in the stream, since the server does not set
`SO_OOBINLINE`; `EPOLLPRI` is reported for it, with or without anything to read.
A peer sends one at most: behind another the kernel may leave the first in the
stream.

What became of the stream is written down beside: `appended` is what
`inputBuffer_` got, and `announced` what it had got when `messageCallback_` was
last called.
-/

namespace Muduox.Net

structure PeerSocket where
  /-- All the peer sent in the stream. -/
  sent : List UInt8 := []
  unread : List UInt8 := []
  /-- The peer closed. -/
  fin : Bool := false
  /-- Reset, in error, or a call on it failed: from then on any may. -/
  failed : Bool := false
  /-- The peer sent an urgent byte. -/
  urgent : Bool := false
  appended : List UInt8 := []
  announced : List UInt8 := []

namespace PeerSocket

def readable (k : PeerSocket) : Bool := !k.unread.isEmpty || k.fin || k.failed

/-- What `readv` may return. -/
def receives (k : PeerSocket) : RecvResult → Bool
  | .error _ => k.failed || !k.readable
  | .bytes d => d.isPrefixOf k.unread && (!d.isEmpty || k.unread.isEmpty && k.fin)

/-- What `send` may return for `out`, once the socket was found writable. -/
def sends (k : PeerSocket) (out : List UInt8) : Option Nat → Bool
  | none => k.failed
  | some n => k.failed || n != 0 || out.isEmpty

/-- What `epoll_wait` may report, `shut` telling whether `shutdownWrite` was
called. -/
def reports (k : PeerSocket) (shut : Bool) (m : EpollMask) : Bool :=
  (!(m.epollin || m.epollrdhup) || k.readable) && (!m.epollpri || k.readable || k.urgent) &&
    (!m.epollerr || k.failed) && (!m.epollhup || k.fin && shut || k.failed)

/-- After `readv` delivered `d` and the buffer got `gained`. -/
def read (k : PeerSocket) (d gained : List UInt8) (announces : Bool) : PeerSocket :=
  { k with
    unread := k.unread.drop d.length
    appended := k.appended ++ gained
    announced := if announces then k.appended ++ gained else k.announced }

end PeerSocket

/-- A server with the sockets of its connections. -/
structure Peered where
  server : TcpServer.State LoopPoller
  socket : ConnId → PeerSocket

/-- A step of the server, or of a peer. -/
inductive PeerStep where
  | run (t : ThreadId) (ch : Choice Code (Io (List (Int × EpollMask))))
  | send (c : ConnId) (d : List UInt8)
  /-- `send` with `MSG_OOB`, of one byte. -/
  | urge (c : ConnId)
  | close (c : ConnId)
  | fail (c : ConnId)

namespace Peered

/-- Whose entry of loop `l`'s interest list a descriptor is. -/
def owner (s : Peered) (l : LoopId) (fd : Int) : Option ConnId :=
  match (s.server.shared.app.poller l).poller.interest fd with
  | some ⟨_, .conn c⟩ => some c
  | _ => none

/-- `socket_->shutdownWrite()` was called on connection `c`. -/
def shut (s : Peered) (c : ConnId) : Bool :=
  (s.server.shared.app.log c).any fun e =>
    match e with
    | .shutdownWrite _ => true
    | _ => false

/-- The sockets allow what thread `t` is about to see. -/
def agrees (s : Peered) (t : ThreadId) (ch : Choice Code (Io (List (Int × EpollMask)))) : Bool :=
  match (s.server.stack t).head?, ch with
  | some (.code (.conn c .handleRead)), .app (.received r) => (s.socket c).receives r
  | some (.code (.conn c .handleWrite)), .app (.sent r) =>
      (s.socket c).sends (s.server.shared.app.conn c).outputBuffer_.bytes r
  | some (.poll l), .poll (.poller ready) _ =>
      ready.all fun r => (s.owner l r.1).all fun c => (s.socket c).reports (s.shut c) r.2
  | _, _ => true

/-- What step `(t, ch)` of the server, to `server`, made of the sockets. -/
def sockets (s : Peered) (t : ThreadId) (ch : Choice Code (Io (List (Int × EpollMask))))
    (server : TcpServer.State LoopPoller) : ConnId → PeerSocket :=
  match (s.server.stack t).head?, ch with
  | some (.code (.conn c .handleRead)), .app (.received (.bytes d)) =>
      let old := (s.server.shared.app.conn c).inputBuffer_.bytes
      let news := (server.shared.app.log c).drop (s.server.shared.app.log c).length
      Function.update s.socket c ((s.socket c).read d
        ((server.shared.app.conn c).inputBuffer_.bytes.drop old.length)
        (decide (.callback .message ∈ news)))
  | _, _ => s.socket

def setSocket (s : Peered) (c : ConnId) (k : PeerSocket) : Peered :=
  { s with socket := Function.update s.socket c k }

def step (cfg : ServerConfig) (s : Peered) : PeerStep → Option Peered
  | .run t ch =>
      if s.agrees t ch then
        ((TcpServer.lts cfg epollPoller).step s.server (t, ch)).map fun server =>
          ⟨server, s.sockets t ch server⟩
      else none
  | .send c d =>
      let k := s.socket c
      if k.fin then none
      else some (s.setSocket c { k with sent := k.sent ++ d, unread := k.unread ++ d })
  | .urge c =>
      let k := s.socket c
      if k.fin || k.urgent then none else some (s.setSocket c { k with urgent := true })
  | .close c => some (s.setSocket c { s.socket c with fin := true })
  | .fail c => some (s.setSocket c { s.socket c with failed := true })

/-- The runs of a started server with its peers. -/
def lts (cfg : ServerConfig) : Lts Peered PeerStep where
  init s := s = ⟨TcpServer.started epollPoller, fun _ => {}⟩
  step := step cfg

end Peered

end Muduox.Net
