import Mathlib.Algebra.Group.Int.Defs
import Muduox.Net.TcpConnection

/-!
# `TcpServer` over its loops

`muduox/net/tcp/TcpServer.cpp`, with `Acceptor::listen` and `handleRead`,
`EventLoopThreadPool::getNextLoop` and `Channel::handleEvent`. Loop 0 is the
accept loop; the IO loops are `1, …, threadNum_`, none when `threadNum_` is
zero. The server is the application of a reactor (`App`) for any `Poller`: the
state is the server's members, its connections and the loops' pollers, the code
is `Code`, and a run starts where `start()` returned (`started`).

A connection object stays in `conn` for good; who owns it is a matter of which
frames and map entries hold it. User code may call a connection that has
reached it through a callback, which is one that left `kConnecting`.
-/

namespace Muduox.Net

/-- `InetAddress::toIpPort()`, printed into a buffer of 32 characters. -/
structure IpPort where
  text : List Char
  short : text.length ≤ 31

/-- What the user of the server fixed before `start()`. -/
structure ServerConfig where
  name_ : List Char
  ipPort_ : IpPort
  threadNum_ : Nat
  messageCallback_ : Bool
  writeCompleteCallback_ : Bool
  platform : Platform

structure Acceptor where
  listening_ : Bool := false
  acceptChannel_ : Channel := {}

structure TcpServer (P : Type) where
  acceptor_ : Acceptor := {}
  nextConnId_ : Int := 1
  connections_ : List Char → Option ConnId := fun _ => none
  /-- `threadPool_->next_`. -/
  next_ : Nat := 0
  /-- How many connections were constructed. -/
  accepted : Nat := 0
  conn : ConnId → TcpConnection := fun _ => {}
  poller : LoopId → P
  /-- What happened on each connection. -/
  log : ConnId → List Event := fun _ => []

/-- The accept loop. -/
def acceptLoop : LoopId := 0

/-- The value of an `int` after wrapping around. -/
def wrapInt (n : Int) : Int := (n + 2 ^ 31) % 2 ^ 32 - 2 ^ 31

/-- `%d`. -/
def formatInt (n : Int) : List Char :=
  if n < 0 then '-' :: Nat.toDigits 10 n.natAbs else Nat.toDigits 10 n.natAbs

/-- What `snprintf` leaves of a text in a buffer of `size` characters. -/
def snprintf (size : Nat) (text : List Char) : List Char := text.take (size - 1)

/-- The name `newConnection` makes of `nextConnId_`. -/
def connName (cfg : ServerConfig) (id : Int) : List Char :=
  cfg.name_ ++ '-' :: snprintf 64 (cfg.ipPort_.text ++ '#' :: formatInt id)

namespace TcpServer

variable {P E : Type}

def channel (s : TcpServer P) : ChannelId → Channel
  | .acceptor => s.acceptor_.acceptChannel_
  | .conn c => (s.conn c).channel_

def setChannel (s : TcpServer P) (ch : ChannelId) (x : Channel) : TcpServer P :=
  match ch with
  | .acceptor => { s with acceptor_ := { s.acceptor_ with acceptChannel_ := x } }
  | .conn c => { s with conn := Function.update s.conn c { s.conn c with channel_ := x } }

/-- `Channel::ownerLoop()`. -/
def ownerLoop (s : TcpServer P) : ChannelId → LoopId
  | .acceptor => acceptLoop
  | .conn c => (s.conn c).loop_

def setPoller (s : TcpServer P) (l : LoopId) (p : P) : TcpServer P :=
  { s with poller := Function.update s.poller l p }

/-- Connection `c` after one of its pieces, with what happened written down. -/
def setConn (s : TcpServer P) (c : ConnId) (k : ConnCode) (o : TcpConnection.Outcome) :
    TcpServer P :=
  { s with
    conn := Function.update s.conn c o.conn
    log := Function.update s.log c (s.log c ++ .ran k :: o.events) }

/-- The handlers `Channel::handleEvent` calls, in its order. -/
def handlers (ch : ChannelId) (revents : Events) : List Code :=
  match ch with
  | .acceptor => if revents.read then [.acceptorHandleRead] else []
  | .conn c =>
      (if revents.error then [.conn c .handleError] else []) ++
      (if revents.close then [.conn c .handleClose] else []) ++
      (if revents.read then [.conn c .handleRead] else []) ++
      (if revents.write then [.conn c .handleWrite] else [])

def handleEvent (s : TcpServer P) (ch : ChannelId) : TcpServer P × List (Frame Code) :=
  let revents := (s.channel ch).revents_
  (s.setChannel ch ((s.channel ch).setRevents kNoneEvent), (handlers ch revents).map .code)

/-- `EventLoopThreadPool::getNextLoop`, or the accept loop without a pool. -/
def getNextLoop (cfg : ServerConfig) (s : TcpServer P) : LoopId × Nat :=
  if cfg.threadNum_ = 0 then (acceptLoop, s.next_)
  else (s.next_ + 1, (s.next_ + 1) % cfg.threadNum_)

/-- `Acceptor::listen`. -/
def listen (s : TcpServer P) : TcpServer P × List (Frame Code) :=
  ({ s with acceptor_ := ⟨true, s.acceptor_.acceptChannel_.enableReading⟩ },
    [.code (.update .acceptor)])

def newConnection (cfg : ServerConfig) (s : TcpServer P) (sockfd : Int) :
    TcpServer P × List (Frame Code) :=
  let connName := connName cfg s.nextConnId_
  let (newLoop, next) := getNextLoop cfg s
  let c := s.accepted
  let conn : TcpConnection :=
    { loop_ := newLoop
      name_ := connName
      channel_ := { fd_ := sockfd }
      messageCallback_ := cfg.messageCallback_
      writeCompleteCallback_ := cfg.writeCompleteCallback_ }
  ({ s with
      nextConnId_ := wrapInt (s.nextConnId_ + 1)
      next_ := next
      accepted := s.accepted + 1
      conn := Function.update s.conn c conn
      connections_ := Function.update s.connections_ connName (some c) },
    [.runInLoop newLoop (.code (.conn c .connectEstablished))])

/-- `removeConnectionInLoop`, where `erase` says whether there was an entry. -/
def removeConnectionInLoop (s : TcpServer P) (c : ConnId) : TcpServer P × List (Frame Code) :=
  let conn := s.conn c
  let erased := (s.connections_ conn.name_).isSome
  ({ s with
      connections_ := Function.update s.connections_ conn.name_ none
      log := Function.update s.log c (s.log c ++ [.removed erased]) },
    if erased then [.queueInLoop conn.loop_ (.code (.conn c .connectDestroyed))] else [])

/-- One piece of code, run by thread `t`. -/
def exec (cfg : ServerConfig) (poller : Poller P E) (t : ThreadId) (a : Code) (io : Io E)
    (s : TcpServer P) : Option (TcpServer P × List (Frame Code)) :=
  match a, io with
  | .conn c k, io =>
      ((s.conn c).exec c t cfg.platform k io).map fun o => (s.setConn c k o, o.next)
  | .handleEvent ch, .none => some (s.handleEvent ch)
  | .update ch, .poller e =>
      let l := s.ownerLoop ch
      (poller.updateChannel (s.poller l) ch (s.channel ch) e).map fun p =>
        (s.setPoller l p, [])
  | .remove ch, .none =>
      let l := s.ownerLoop ch
      (poller.removeChannel (s.poller l) ch (s.channel ch)).map fun p =>
        (s.setPoller l p, [])
  | .listen, .none => if t = .loop acceptLoop then some s.listen else none
  | .acceptorHandleRead, .accepted connfd =>
      some (s, connfd.toList.map fun fd => .code (.newConnection fd))
  | .newConnection fd, .none =>
      if t = .loop acceptLoop then some (newConnection cfg s fd) else none
  | .removeConnection c, .none =>
      some (s, [.runInLoop acceptLoop (.code (.removeConnectionInLoop c))])
  | .removeConnectionInLoop c, .none =>
      if t = .loop acceptLoop then some (s.removeConnectionInLoop c) else none
  | _, _ => none

/-- User code has seen connection `c`. -/
def published (s : TcpServer P) (c : ConnId) : Bool :=
  decide (c < s.accepted) && (s.conn c).state_ != .kConnecting

/-- What user code on thread `t` may call. -/
def api (t : ThreadId) (s : TcpServer P) : Code → Bool
  | .conn c (.send m) | .conn c (.sendBuffer m) => s.published c && m.sender == t
  | .conn c .shutdown | .conn c .forceClose => s.published c
  | .conn c (.retrieveInput _) => s.published c && t == .loop (s.conn c).loop_
  | _ => false

/-- `channel->setRevents(revents)` for every active channel. -/
def setActive (s : TcpServer P) (active : List (ChannelId × Events)) : TcpServer P :=
  active.foldl (fun s a => s.setChannel a.1 ((s.channel a.1).setRevents a.2)) s

/-- `poller_->poll(kPollTimeMs, &activeChannels_)` of loop `l`. -/
def poll (poller : Poller P E) (l : LoopId) (io : Io E) (s : TcpServer P) :
    Option (TcpServer P × Option (List Code)) :=
  match io with
  | .poller e =>
      (poller.poll (s.poller l) s.channel e).map fun r =>
        let s := s.setPoller l r.1
        match r.2 with
        | none => (s, none)
        | some active => (s.setActive active, some (active.map fun a => .handleEvent a.1))
  | _ => none

end TcpServer

end Muduox.Net
