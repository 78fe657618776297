import Muduox.Net.Channel
import Muduox.Net.EventLoop
import Muduox.Proofs.BufferFifo

/-!
# `TcpConnection`

`muduox/net/tcp/TcpConnection.h` and `TcpConnection.cpp`. A member function is
cut wherever another thread can be seen, which is at each access to the atomic
`state_` after the first, and wherever other code runs in between: the poller,
a user callback, a nested call. `ConnCode` names the pieces. A piece computes
the connection it leaves and the code that runs next on the same thread, the
rest of its own function last; a lambda handed to `runInLoop` or `queueInLoop`
is a piece too.

Beside that a piece says what happened (`Event`): the history of a connection
is what the results are about, and nothing in the source reads it. A message
carries the thread that sent it, for the same purpose.

`SOCKET_SEND` and `readv` return what the environment chooses, within what they
were asked for; `none` is an error. User callbacks are the frame `user`.
-/

namespace Muduox.Net

/-- What one call of `send` was given, and by whom. -/
structure Message where
  sender : ThreadId
  bytes : Bytes
  deriving DecidableEq

/-- `TcpConnection::State`. -/
inductive ConnState where
  | kConnecting
  | kConnected
  | kDisconnecting
  | kDisconnected
  deriving DecidableEq, Repr

/-- The user callbacks of a connection. -/
inductive Callback where
  | connection
  | message
  | writeComplete
  deriving DecidableEq, Repr

/-- The pieces of `TcpConnection`. -/
inductive ConnCode where
  | connectEstablished
  | connectionCallback
  | connectDestroyed
  /-- `socket_.reset()`, the end of `connectDestroyed`. -/
  | resetSocket
  | handleRead
  | handleWrite
  | writeCompleteCallback
  /-- The end of `handleWrite`, after the write-complete callback. -/
  | shutdownIfDisconnecting
  | handleClose
  | handleError
  | send (m : Message)
  | sendBuffer (m : Message)
  | sendInLoop (m : Message)
  | shutdown
  /-- The store in `shutdown`, after its test. -/
  | storeShutdown
  | shutdownInLoop
  | forceClose
  /-- The second test of `forceClose`. -/
  | forceCloseIfDisconnecting
  /-- The store in `forceClose`, after its tests. -/
  | storeForceClose
  /-- `Buffer::retrieve` on the input buffer, by the user it was shown to. -/
  | retrieveInput (n : Nat)
  deriving DecidableEq

/-- The code of a server with its connections. -/
inductive Code where
  | conn (c : ConnId) (k : ConnCode)
  /-- `Channel::handleEvent`. -/
  | handleEvent (ch : ChannelId)
  /-- `Channel::update`. -/
  | update (ch : ChannelId)
  /-- `Channel::remove`. -/
  | remove (ch : ChannelId)
  /-- `Acceptor::listen`. -/
  | listen
  /-- `Acceptor::handleRead`. -/
  | acceptorHandleRead
  | newConnection (sockfd : Int)
  | removeConnection (c : ConnId)
  | removeConnectionInLoop (c : ConnId)
  deriving DecidableEq

instance : LawfulBEq (Frame Code) := inferInstance

/-- What the environment decides for a piece of code. -/
inductive Io (E : Type) where
  | none
  /-- `SOCKET_SEND`: the bytes it took, or an error. -/
  | sent (r : Option Nat)
  /-- `readv` or `recv`. -/
  | received (r : RecvResult)
  /-- `accept`: a descriptor, or an error. -/
  | accepted (connfd : Option Int)
  | poller (e : E)

/-- What happened on a connection. -/
inductive Event where
  /-- A piece of code ran. -/
  | ran (k : ConnCode)
  /-- A message passed the test `state_ == kConnected` on the loop's thread. -/
  | accepted (m : Message)
  /-- The socket took bytes. -/
  | sent (d : List UInt8)
  | callback (cb : Callback)
  /-- `socket_->shutdownWrite()`, with what `outputBuffer_` held. -/
  | shutdownWrite (pending : List UInt8)
  /-- `socket_->shutdownWrite()` on a null `socket_`. -/
  | nullSocket
  /-- `removeConnectionInLoop`, and whether it erased the connection. -/
  | removed (erased : Bool)
  deriving DecidableEq

structure TcpConnection where
  loop_ : LoopId := 0
  name_ : List Char := []
  state_ : ConnState := .kConnecting
  /-- Whether `socket_` is non-null. -/
  socket_ : Bool := true
  channel_ : Channel := {}
  inputBuffer_ : WfBuffer := .new
  outputBuffer_ : WfBuffer := .new
  /-- Whether `messageCallback_` is set. -/
  messageCallback_ : Bool := false
  /-- Whether `writeCompleteCallback_` is set. -/
  writeCompleteCallback_ : Bool := false

namespace TcpConnection

/-- What a piece leaves: the connection, what happened, and the code to run. -/
structure Outcome where
  conn : TcpConnection
  events : List Event := []
  next : List (Frame Code) := []

/-- The frame of a piece of connection `c`. -/
abbrev piece (c : ConnId) (k : ConnCode) : Frame Code := .code (.conn c k)

/-- `Channel::update` of connection `c`. -/
abbrev update (c : ConnId) : Frame Code := .code (.update (.conn c))

variable (x : TcpConnection) (c : ConnId) (t : ThreadId)

def connectEstablished : Option Outcome :=
  if t = .loop x.loop_ then
    some ⟨{ x with state_ := .kConnected, channel_ := x.channel_.enableReading }, [],
      [update c, piece c .connectionCallback]⟩
  else none

/-- The callback `TcpServer::newConnection` set, up to the user's own. -/
def connectionCallback : Outcome :=
  ⟨x, [.callback .connection],
    if x.state_ = .kConnected then [.user] else [.code (.removeConnection c), .user]⟩

def connectDestroyed : Option Outcome :=
  if t = .loop x.loop_ then
    some ⟨{ x with channel_ := x.channel_.disableAll }, [],
      [update c, .code (.remove (.conn c)), piece c .resetSocket]⟩
  else none

def resetSocket : Outcome := ⟨{ x with socket_ := false }, [], []⟩

def handleRead (pl : Platform) (r : RecvResult) : Option Outcome :=
  match x.inputBuffer_.readFd pl r with
  | none => none
  | some (b, n) =>
      let x := { x with inputBuffer_ := b }
      if 0 < n then
        some (if x.messageCallback_ then ⟨x, [.callback .message], [.user]⟩ else ⟨x, [], []⟩)
      else if n = 0 then some ⟨x, [], [piece c .handleClose]⟩
      else some ⟨x, [], [piece c .handleError]⟩

def handleWrite (r : Option Nat) : Option Outcome :=
  if x.channel_.isWriting then
    let d := x.outputBuffer_.bytes
    match r with
    | none => some ⟨x, [], [piece c .handleError]⟩
    | some n =>
        if d.length < n then none
        else if n = 0 then some ⟨x, [], [piece c .handleError]⟩
        else
          let b := x.outputBuffer_.retrieve n
          if b.empty then
            some ⟨{ x with outputBuffer_ := b, channel_ := x.channel_.disableWriting },
              [.sent (d.take n)],
              [update c, piece c .writeCompleteCallback, piece c .shutdownIfDisconnecting]⟩
          else some ⟨{ x with outputBuffer_ := b }, [.sent (d.take n)], []⟩
  else some ⟨x, [], []⟩

def writeCompleteCallback : Outcome :=
  if x.writeCompleteCallback_ then ⟨x, [.callback .writeComplete], [.user]⟩ else ⟨x, [], []⟩

/-- `socket_->shutdownWrite()`. -/
def shutdownWrite : Outcome :=
  ⟨x, [if x.socket_ then .shutdownWrite x.outputBuffer_.bytes else .nullSocket], []⟩

def shutdownIfDisconnecting : Outcome :=
  if x.state_ = .kDisconnecting then x.shutdownWrite else ⟨x, [], []⟩

def handleClose : Outcome :=
  ⟨{ x with state_ := .kDisconnected }, [], [piece c .connectionCallback]⟩

def handleError : Outcome := ⟨x, [], [piece c .handleClose]⟩

/-- `send(const char*, size_t)` and `send(const std::string&)`. -/
def send (m : Message) : Outcome :=
  if x.state_ = .kConnected then
    ⟨x, [], [if t = .loop x.loop_ then piece c (.sendInLoop m)
      else .runInLoop x.loop_ (piece c (.sendInLoop m))]⟩
  else ⟨x, [], []⟩

/-- `outputBuffer_.append(data, len)` and the `enableWriting()` after it. -/
def appendOutput (events : List Event) (d : Bytes) : Option Outcome :=
  match x.outputBuffer_.append d with
  | none => none
  | some b =>
      let x := { x with outputBuffer_ := b }
      some (if x.channel_.isWriting then ⟨x, events, []⟩
        else ⟨{ x with channel_ := x.channel_.enableWriting }, events, [update c]⟩)

/-- `send(Buffer*)`, on the readable bytes of the argument. -/
def sendBuffer (m : Message) : Option Outcome :=
  if x.state_ = .kConnected then
    if t = .loop x.loop_ then x.appendOutput c [.accepted m] m.bytes
    else some ⟨x, [], [.runInLoop x.loop_ (piece c (.sendInLoop m))]⟩
  else some ⟨x, [], []⟩

/-- `data += n; len -= n`. -/
def remainder (d : Bytes) (n : Nat) : Bytes :=
  ⟨d.1.drop n, Nat.le_trans (by rw [List.length_drop]; exact Nat.sub_le _ _) d.2⟩

def sendInLoop (m : Message) (r : Option Nat) : Option Outcome :=
  if t ≠ .loop x.loop_ then none
  else if x.state_ ≠ .kConnected then some ⟨x, [], []⟩
  else if !x.channel_.isWriting && x.outputBuffer_.empty then
    match r with
    | none => x.appendOutput c [.accepted m] m.bytes
    | some n =>
        if m.bytes.1.length < n then none
        else if m.bytes.1.length ≤ n then
          some ⟨x, [.accepted m, .sent m.bytes.1], [piece c .writeCompleteCallback]⟩
        else
          x.appendOutput c [.accepted m, .sent (m.bytes.1.take n)] (remainder m.bytes n)
  else x.appendOutput c [.accepted m] m.bytes

def shutdown : Outcome :=
  if x.state_ = .kConnected then ⟨x, [], [piece c .storeShutdown]⟩ else ⟨x, [], []⟩

def storeShutdown : Outcome :=
  ⟨{ x with state_ := .kDisconnecting }, [], [.runInLoop x.loop_ (piece c .shutdownInLoop)]⟩

def shutdownInLoop : Option Outcome :=
  if t = .loop x.loop_ then
    some (if x.channel_.isWriting then ⟨x, [], []⟩ else x.shutdownWrite)
  else none

def forceClose : Outcome :=
  if x.state_ = .kConnected then ⟨x, [], [piece c .storeForceClose]⟩
  else ⟨x, [], [piece c .forceCloseIfDisconnecting]⟩

def forceCloseIfDisconnecting : Outcome :=
  if x.state_ = .kDisconnecting then ⟨x, [], [piece c .storeForceClose]⟩ else ⟨x, [], []⟩

def storeForceClose : Outcome :=
  ⟨{ x with state_ := .kDisconnecting }, [], [.queueInLoop x.loop_ (piece c .handleClose)]⟩

def retrieveInput (n : Nat) : Outcome :=
  ⟨{ x with inputBuffer_ := x.inputBuffer_.retrieve n }, [], []⟩

/-- One piece of connection `c`, run by thread `t`. -/
def exec {E : Type} (pl : Platform) (k : ConnCode) (io : Io E) : Option Outcome :=
  match k, io with
  | .connectEstablished, .none => x.connectEstablished c t
  | .connectionCallback, .none => x.connectionCallback c
  | .connectDestroyed, .none => x.connectDestroyed c t
  | .resetSocket, .none => x.resetSocket
  | .handleRead, .received r => x.handleRead c pl r
  | .handleWrite, .sent r => x.handleWrite c r
  | .writeCompleteCallback, .none => x.writeCompleteCallback
  | .shutdownIfDisconnecting, .none => x.shutdownIfDisconnecting
  | .handleClose, .none => x.handleClose c
  | .handleError, .none => x.handleError c
  | .send m, .none => x.send c t m
  | .sendBuffer m, .none => x.sendBuffer c t m
  | .sendInLoop m, .sent r => x.sendInLoop c t m r
  | .shutdown, .none => x.shutdown c
  | .storeShutdown, .none => x.storeShutdown c
  | .shutdownInLoop, .none => x.shutdownInLoop t
  | .forceClose, .none => x.forceClose c
  | .forceCloseIfDisconnecting, .none => x.forceCloseIfDisconnecting c
  | .storeForceClose, .none => x.storeForceClose c
  | .retrieveInput n, .none => x.retrieveInput n
  | _, _ => none

end TcpConnection

end Muduox.Net
