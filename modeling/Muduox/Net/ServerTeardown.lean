import Muduox.Proofs.ServerSteps

/-!
# `TcpServer::stop` and `TcpServer::~TcpServer`

`muduox/net/tcp/TcpServer.cpp`, with the destructors of `TcpServer`'s members:
`Acceptor`, `EventLoopThreadPool` and `EventLoopThread`. They run on the user's
thread that started the server, user 0, piece by piece (`TearFrame`), while the
loops run on; whatever that thread has left of them comes before its own code.

The members of `TcpServer` go in the reverse of their order: `connections_`,
`acceptor_`, `threadPool_`, `acceptThread_`. A connection goes when its last
`shared_ptr` does: not while `connections_` or a functor holds one, and otherwise
when the environment says so, for the user may keep any number (`free`). What a
thread does to an object that is gone has no meaning, and the step is `none`.

Three things are recorded that nothing in the source reads: who took a channel
out of its poller, what a loop's `activeChannels_` held when `poll` returned, and
of each channel destroyed how matters stood then.
-/

namespace Muduox.Net

/-- The pieces of `stop` and of the destructors. -/
inductive TearFrame where
  /-- `acceptor_.reset()`. -/
  | resetAcceptor
  /-- `acceptChannel_.disableAll()` in `Acceptor::~Acceptor`. -/
  | disableAll
  /-- `Channel::update` in it. -/
  | updateChannel
  /-- `acceptChannel_.remove()`. -/
  | removeChannel
  /-- The members of `Acceptor` go. -/
  | destroyAcceptor
  /-- `connections_` and the callbacks go. -/
  | destroyConnections
  /-- `EventLoopThread::stop`. -/
  | stopThread (l : LoopId)
  /-- `EventLoop::wakeup` in `quit`. -/
  | wakeup (l : LoopId)
  /-- `thread_.join()`. -/
  | join (l : LoopId)
  /-- `EventLoop::~EventLoop`. -/
  | destroyLoop (l : LoopId)
  deriving DecidableEq, Repr

/-- A channel's destruction: had its loop's thread removed it from the poller,
and was the loop dispatching a list that has it? -/
structure Destruction where
  channel : ChannelId
  removed : Bool
  dispatched : Bool
  deriving DecidableEq, Repr

/-- A started server and what is left of it. -/
structure Torn (P : Type) where
  server : TcpServer.State P
  started_ : Bool := true
  /-- `~TcpServer()` was called. -/
  destructed : Bool := false
  /-- `acceptor_ != nullptr`. -/
  acceptor_ : Bool := true
  /-- `connections_` and the callbacks were destroyed. -/
  mapGone : Bool := false
  joinable : LoopId → Bool := fun _ => true
  loopGone : LoopId → Bool := fun _ => false
  /-- What user 0 has left of `stop` or of `~TcpServer`. -/
  left : List TearFrame := []
  removedBy : ChannelId → List ThreadId := fun _ => []
  activeChannels_ : LoopId → List ChannelId := fun _ => []
  destroyed : List Destruction := []

/-- What happens next. -/
inductive TearStep (E : Type) where
  /-- A step of the server. -/
  | run (t : ThreadId) (ch : Choice Code (Io E))
  | stop
  | destructor
  /-- User 0 goes on. -/
  | go
  | poller (e : E)
  | moved (n : Nat)
  /-- The last `shared_ptr` to a connection goes. -/
  | free (c : ConnId)

namespace Torn

variable {P E : Type} (cfg : ServerConfig) (poller : Poller P E) (s : Torn P)

def app : TcpServer P := s.server.shared.app

def setApp (x : TcpServer P) : Torn P :=
  { s with server := ⟨{ s.server.shared with app := x }, s.server.stack⟩ }

def setLoop (l : LoopId) (e : EventLoop Code) : Torn P :=
  { s with server := ⟨s.server.shared.setLoop l e, s.server.stack⟩ }

/-- The loop of a channel is between `poll` and `doPendingFunctors`, and `poll`
found the channel. -/
def dispatching (ch : ChannelId) : Bool :=
  let l := s.app.ownerLoop ch
  decide (.doPendingFunctors l ∈ s.server.stack (.loop l) ∧ ch ∈ s.activeChannels_ l)

def destroy (ch : ChannelId) : Torn P :=
  { s with destroyed := s.destroyed ++
      [⟨ch, decide (.loop (s.app.ownerLoop ch) ∈ s.removedBy ch), s.dispatching ch⟩] }

def gone (ch : ChannelId) : Bool := s.destroyed.any (·.channel == ch)

/-- What a frame runs on is still there. -/
def alive : Frame Code → Bool
  | .code (.conn c .connectionCallback) => !s.gone (.conn c) && !s.mapGone
  | .code (.conn c _) => !s.gone (.conn c)
  | .code (.handleEvent ch) | .code (.update ch) | .code (.remove ch) => !s.gone ch
  | .code .listen => s.acceptor_
  | .code .acceptorHandleRead => !s.gone .acceptor
  | .code (.newConnection _) | .code (.removeConnectionInLoop _) => !s.mapGone
  | .code (.removeConnection _) => !s.loopGone acceptLoop
  | .runInLoop l _ | .queueInLoop l _ | .wakeup l | .quit l => !s.loopGone l
  | _ => true

/-- The channels that the frames of a stack are to dispatch. -/
def active (fs : List (Frame Code)) : List ChannelId :=
  fs.filterMap fun f =>
    match f with
    | .code (.handleEvent ch) => some ch
    | _ => none

/-- Thread `t` ran frame `f`. -/
def record (t : ThreadId) (f : Frame Code) : Torn P :=
  match f with
  | .code (.remove ch) =>
      { s with removedBy := Function.update s.removedBy ch (t :: s.removedBy ch) }
  | .poll l =>
      { s with activeChannels_ := Function.update s.activeChannels_ l (active (s.server.stack t)) }
  | _ => s

/-- A step of the server. User 0 has `stop` and `~TcpServer` to finish first. -/
def run (t : ThreadId) (ch : Choice Code (Io E)) : Option (Torn P) :=
  match s.server.stack t with
  | [] => none
  | f :: _ =>
      if s.alive f ∧ (t = .user 0 → s.left = []) then
        ((TcpServer.lts cfg poller).step s.server (t, ch)).map fun server =>
          { s with server }.record t f
      else none

/-- `~EventLoopThread()` of loop `l`: `stop()`, then `loop_` goes. -/
def destroyThread (l : LoopId) : List TearFrame := [.stopThread l, .destroyLoop l]

/-- The destructors of `TcpServer`'s members. -/
def members : List TearFrame :=
  let io := (List.range cfg.threadNum_).map (· + 1)
  [.destroyConnections, .resetAcceptor] ++ io.map .stopThread ++ io.flatMap destroyThread ++
    destroyThread acceptLoop

/-- User 0 is in user code, and calls a function of the server. -/
def callable : Bool :=
  decide (s.left = [] ∧ (s.server.stack (.user 0)).head? = some .user ∧ s.destructed = false)

def stop : Torn P :=
  if s.started_ then
    { s with started_ := false, left := [.resetAcceptor, .stopThread acceptLoop] }
  else s

def destructor : Torn P := { s with destructed := true, left := members cfg }

/-- A piece that runs by itself, with `rest` behind it. -/
def piece (f : TearFrame) (rest : List TearFrame) : Option (Torn P) :=
  match f with
  | .resetAcceptor =>
      if s.acceptor_ then
        some { s with
          acceptor_ := false
          left := .disableAll :: .updateChannel :: .removeChannel :: .destroyAcceptor :: rest }
      else some { s with left := rest }
  | .disableAll =>
      some { s.setApp (s.app.setChannel .acceptor (s.app.channel .acceptor).disableAll) with
        left := rest }
  | .removeChannel =>
      (poller.removeChannel (s.app.poller acceptLoop) .acceptor (s.app.channel .acceptor)).map
        fun p =>
          { s.setApp (s.app.setPoller acceptLoop p) with
            removedBy := Function.update s.removedBy .acceptor (.user 0 :: s.removedBy .acceptor)
            left := rest }
  | .destroyAcceptor => some { s.destroy .acceptor with left := rest }
  | .destroyConnections => some { s with mapGone := true, left := rest }
  | .stopThread l =>
      some { s.setLoop l { s.server.shared.loop l with quit_ := true } with
        left := .wakeup l :: .join l :: rest }
  | .join l =>
      if s.joinable l then
        if s.server.stack (.loop l) = [] then
          some { s with joinable := Function.update s.joinable l false, left := rest }
        else none
      else some { s with left := rest }
  | .destroyLoop l =>
      some { s.setLoop l { s.server.shared.loop l with pendingFunctors_ := [] } with
        loopGone := Function.update s.loopGone l true
        left := rest }
  | .updateChannel | .wakeup _ => none

/-- `Channel::update` in `Acceptor::~Acceptor`. -/
def updateChannel (e : E) (rest : List TearFrame) : Option (Torn P) :=
  (poller.updateChannel (s.app.poller acceptLoop) .acceptor (s.app.channel .acceptor) e).map
    fun p => { s.setApp (s.app.setPoller acceptLoop p) with left := rest }

/-- A frame on a loop's thread, or a functor, that holds a `shared_ptr` to the
connection: the closures, and the code that runs inside them or in a call of the
connection callback. -/
def holds (c : ConnId) (f : Frame Code) : Bool :=
  match f.payload with
  | some (.conn d .connectEstablished) | some (.conn d .connectionCallback)
  | some (.conn d .connectDestroyed) | some (.conn d .resetSocket)
  | some (.remove (.conn d)) | some (.removeConnection d)
  | some (.removeConnectionInLoop d) => decide (d = c)
  | _ => false

/-- `connections_` has the connection. -/
def inMap (c : ConnId) : Bool := s.app.connections_ (s.app.conn c).name_ == some c

/-- Nothing of the server holds a `shared_ptr` to the connection. -/
def unowned (c : ConnId) : Bool :=
  (s.mapGone || !s.inMap c) && (List.range (cfg.threadNum_ + 1)).all fun l =>
    !(s.server.stack (.loop l)).any (holds c) &&
      !(s.server.shared.loop l).pendingFunctors_.any fun q => holds c q.2

def step (s : Torn P) : TearStep E → Option (Torn P)
  | .run t ch => s.run cfg poller t ch
  | .stop => if s.callable then some s.stop else none
  | .destructor => if s.callable then some (s.destructor cfg) else none
  | .go =>
      match s.left with
      | [] => none
      | f :: rest => s.piece poller f rest
  | .poller e =>
      match s.left with
      | .updateChannel :: rest => s.updateChannel poller e rest
      | _ => none
  | .moved n =>
      match s.left with
      | .wakeup l :: rest =>
          ((s.server.shared.loop l).wakeup n).map fun x => { s.setLoop l x with left := rest }
      | _ => none
  | .free c =>
      if c < s.app.accepted ∧ s.gone (.conn c) = false ∧ s.unowned cfg c then
        some (s.destroy (.conn c))
      else none

/-- The runs of a started server that is stopped or destroyed at some time. -/
def lts : Lts (Torn P) (TearStep E) where
  init s := s = { server := TcpServer.started poller }
  step := step cfg poller

end Torn

end Muduox.Net
