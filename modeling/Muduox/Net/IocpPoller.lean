import Mathlib.Data.List.Perm.Basic
import Muduox.Net.Channel

/-!
# `IocpPoller`

`muduox/net/poller/IocpPoller.cpp`, for channels of any type `K`. A completion
port has no notion of readiness: the poller posts a receive or a send of no
bytes and takes its completion packet for the event. What it knows of an
operation is a flag; what the kernel knows is how many are outstanding, and that
is kept beside the flag. Contexts are numbered as they are allocated. An
`OVERLAPPED` leads back to its context and says which of the two it is, because
`kMagic` stands only where a context begins.

`poll` first retries what could not be posted (`retryPosts`) and then waits and
takes up to 128 packets (`dequeue`). The kernel decides which calls fail and
which packets come; a packet needs an operation that is outstanding. The sets
and maps are ordered by address, which is to say in any order.
-/

namespace Muduox.Net

/-- One of a context's two operations: `readPending` or `writePending`, and what
the kernel has not completed. -/
structure Operation where
  pending : Bool := false
  outstanding : Nat := 0
  deriving DecidableEq, Repr

namespace Operation

/-- `postRead` and `postWrite`; `posted` says whether the call succeeded. -/
def post (o : Operation) (posted : Bool) : Operation :=
  if !o.pending && posted then ⟨true, o.outstanding + 1⟩ else o

/-- The packet of an operation is taken, and the flag cleared. -/
def complete (o : Operation) : Operation := ⟨false, o.outstanding - 1⟩

end Operation

structure IocpContext (K : Type) where
  read : Operation := {}
  write : Operation := {}
  channel : Option K := none

/-- A completion packet: the operation it is of, and whether it succeeded.
`posted` is what becomes of the receive posted in its place, if one is. -/
structure Packet where
  ctx : Nat
  isRead : Bool
  ok : Bool := true
  posted : Bool := true
  deriving DecidableEq, Repr

/-- What is decided outside in a call. -/
structure IocpChoice (K : Type) where
  /-- Whether `CreateIoCompletionPort` succeeds. -/
  bound : Bool := true
  /-- The channels whose `WSARecv` fails when it is retried. -/
  recvFails : List K := []
  sendFails : List K := []
  packets : List Packet := []
  /-- The order of `channelRevents`. -/
  order : List K := []
  /-- The channels `select` finds readable. -/
  selected : List K := []

structure IocpPoller (K : Type) where
  contexts : Nat → IocpContext K := fun _ => {}
  allocated : Nat := 0
  /-- `Channel::context()`. -/
  context_ : K → Option Nat := fun _ => none
  index_ : K → Int := fun _ => -1
  channels_ : Int → Option K := fun _ => none
  deadContexts_ : List Nat := []
  pendingPosts_ : List K := []
  selectChannels_ : List K := []

/-- `poll` while it takes packets; `found` are the keys of `channelRevents`. -/
structure IocpRound (K : Type) where
  poller : IocpPoller K
  found : List K := []
  channelRevents : K → Events := fun _ => kNoneEvent

namespace IocpPoller

variable {K : Type}

def setContext (p : IocpPoller K) (i : Nat) (ctx : IocpContext K) : IocpPoller K :=
  { p with contexts := Function.update p.contexts i ctx }

variable [DecidableEq K]

/-- `new IocpContext`, for channel `k`. -/
def newContext (p : IocpPoller K) (k : K) : IocpPoller K :=
  { p with
    contexts := Function.update p.contexts p.allocated { channel := some k }
    allocated := p.allocated + 1
    context_ := Function.update p.context_ k (some p.allocated) }

/-- `updateChannel` after `setIndex(0)`. -/
def register (p : IocpPoller K) (k : K) (x : Channel) (acceptConn : Bool) : IocpPoller K :=
  { p with
    index_ := Function.update p.index_ k 0
    channels_ := Function.update p.channels_ x.fd_ (some k)
    pendingPosts_ :=
      if !acceptConn && (x.isReading || x.isWriting) then p.pendingPosts_.insert k
      else p.pendingPosts_
    selectChannels_ :=
      if acceptConn then p.selectChannels_.insert k else p.selectChannels_ }

/-- `updateChannel`; `bound` says whether `CreateIoCompletionPort` succeeded and
`acceptConn` whether the socket is listening. `none` is a failed `any_cast`. -/
def updateChannel (p : IocpPoller K) (k : K) (x : Channel) (bound acceptConn : Bool) :
    Option (IocpPoller K) :=
  if p.index_ k < 0 then
    if bound then some ((p.newContext k).register k x acceptConn) else some p
  else if (p.context_ k).isSome then some (p.register k x acceptConn)
  else none

/-- `removeChannel`; `none` is a failed `any_cast`. -/
def removeChannel (p : IocpPoller K) (k : K) (x : Channel) : Option (IocpPoller K) :=
  (p.context_ k).map fun i =>
    { p with
      contexts := Function.update p.contexts i { p.contexts i with channel := none }
      context_ := Function.update p.context_ k none
      index_ := Function.update p.index_ k (-1)
      channels_ := Function.update p.channels_ x.fd_ none
      deadContexts_ := p.deadContexts_ ++ [i]
      pendingPosts_ := p.pendingPosts_.filter (· != k)
      selectChannels_ := p.selectChannels_.filter (· != k) }

/-- The retry of channel `k`, with context `i`. -/
def retryPost (p : IocpPoller K) (xs : K → Channel) (e : IocpChoice K) (k : K) (i : Nat) :
    IocpPoller K :=
  let ctx := p.contexts i
  let erased := { p with pendingPosts_ := p.pendingPosts_.filter (· != k) }
  if ctx.channel.isNone then erased
  else
    let read := if (xs k).isReading then ctx.read.post (k ∉ e.recvFails) else ctx.read
    let write := if (xs k).isWriting then ctx.write.post (k ∉ e.sendFails) else ctx.write
    let done := (!(xs k).isReading || read.pending) && (!(xs k).isWriting || write.pending)
    (if done then erased else p).setContext i { ctx with read := read, write := write }

/-- The first loop of `poll`; `none` is a failed `any_cast`. -/
def retryPosts (p : IocpPoller K) (xs : K → Channel) (e : IocpChoice K) : Option (IocpPoller K) :=
  p.pendingPosts_.foldlM (fun p k => (p.context_ k).map (p.retryPost xs e k)) p

end IocpPoller

namespace IocpRound

variable {K : Type} [DecidableEq K]

/-- `channelRevents[channel] |= revents`. -/
def add (r : IocpRound K) (k : K) (revents : Events) : IocpRound K :=
  if revents = kNoneEvent then r
  else
    { r with
      found := r.found.insert k
      channelRevents := Function.update r.channelRevents k ((r.channelRevents k).or revents) }

/-- The packet of a receive, of channel `k`. -/
def completeRead (r : IocpRound K) (xs : K → Channel) (q : Packet) (k : K) : IocpRound K :=
  let ctx := r.poller.contexts q.ctx
  let revents : Events :=
    if !q.ok then { error := true }
    else if (xs k).isReading then { read := true }
    else kNoneEvent
  let alreadyHasRead := (r.channelRevents k).read
  let read :=
    if (xs k).isReading && !revents.error && !alreadyHasRead then ctx.read.complete.post q.posted
    else ctx.read.complete
  { r with poller := r.poller.setContext q.ctx { ctx with read := read } }.add k revents

/-- The packet of a send, of channel `k`. -/
def completeWrite (r : IocpRound K) (xs : K → Channel) (q : Packet) (k : K) : IocpRound K :=
  let ctx := r.poller.contexts q.ctx
  let revents : Events :=
    if !q.ok then { error := true }
    else if (xs k).isWriting then { write := true }
    else kNoneEvent
  { r with poller := r.poller.setContext q.ctx { ctx with write := ctx.write.complete } }.add k
    revents

/-- The packet of a context whose channel was removed. -/
def completeDead (r : IocpRound K) (q : Packet) : IocpRound K :=
  let ctx := r.poller.contexts q.ctx
  let read := if q.isRead then ctx.read.complete else ctx.read
  let write := if q.isRead then ctx.write else ctx.write.complete
  { r with
    poller := r.poller.setContext q.ctx
      { ctx with read := { read with pending := false }, write := { write with pending := false } } }

/-- One iteration of the second loop; `none` is a packet of nothing that is
outstanding. -/
def complete (xs : K → Channel) (r : IocpRound K) (q : Packet) : Option (IocpRound K) :=
  let ctx := r.poller.contexts q.ctx
  if (if q.isRead then ctx.read else ctx.write).outstanding = 0 then none
  else
    match ctx.channel with
    | none => some (r.completeDead q)
    | some k => some (if q.isRead then r.completeRead xs q k else r.completeWrite xs q k)

/-- What is pushed onto `activeChannels`: the entries of `channelRevents`, then
what `select` adds to them. -/
def active (r : IocpRound K) (xs : K → Channel) (e : IocpChoice K) : List (K × Events) :=
  e.order.map (fun k => (k, r.channelRevents k)) ++
    (e.selected.filter fun k => (xs k).isReading && decide (k ∉ r.found)).map
      fun k => (k, { read := true })

end IocpRound

namespace IocpPoller

variable {K : Type} [DecidableEq K]

/-- `poll` from where it waits. -/
def dequeue (p : IocpPoller K) (xs : K → Channel) (e : IocpChoice K) :
    Option (IocpPoller K × List (K × Events)) :=
  if 128 < e.packets.length then none
  else
    match e.packets.foldlM (IocpRound.complete xs) { poller := p } with
    | none => none
    | some r =>
        if e.order.Perm r.found ∧ e.selected.Nodup ∧ ∀ k ∈ e.selected, k ∈ p.selectChannels_ then
          some (r.poller, r.active xs e)
        else none

def poll (p : IocpPoller K) (xs : K → Channel) (e : IocpChoice K) :
    Option (IocpPoller K × List (K × Events)) :=
  (p.retryPosts xs e).bind fun p => p.dequeue xs e

end IocpPoller

end Muduox.Net
