import Mathlib.Logic.Function.Basic

/-!
# `Channel` and the interface of `Poller`

`muduox/net/core/Channel.h` and `Poller.h`. The event masks are `int`s used as
four flags. A channel's `index_` and `context_` are written by its loop's
poller alone, so they are part of the poller's state here and not of the
channel's; its callbacks are its owner's, and its owner dispatches them.

`Poller` is an abstract class. An implementation is a state with three
operations, each under whatever the kernel decides, and a predicate for the
channels the kernel may report: those that were updated and not removed since.
A call of `poll` may be several steps; the last one hands over the active
channels with the events found for each.
-/

namespace Muduox.Net

/-- `kReadEvent`, `kWriteEvent`, `kErrorEvent` and `kCloseEvent`. -/
structure Events where
  read : Bool := false
  write : Bool := false
  error : Bool := false
  close : Bool := false
  deriving DecidableEq, Repr

def kNoneEvent : Events := {}

/-- `a | b`. -/
def Events.or (a b : Events) : Events :=
  ⟨a.read || b.read, a.write || b.write, a.error || b.error, a.close || b.close⟩

structure Channel where
  fd_ : Int := -1
  events_ : Events := kNoneEvent
  revents_ : Events := kNoneEvent
  deriving DecidableEq, Repr

namespace Channel

def isReading (c : Channel) : Bool := c.events_.read
def isWriting (c : Channel) : Bool := c.events_.write

def setRevents (c : Channel) (revt : Events) : Channel := { c with revents_ := revt }

/-- The assignments to `events_` in `enableReading` and its siblings; the call
of `update()` that follows each is its caller's. -/
def enableReading (c : Channel) : Channel := { c with events_ := { c.events_ with read := true } }
def disableReading (c : Channel) : Channel := { c with events_ := { c.events_ with read := false } }
def enableWriting (c : Channel) : Channel := { c with events_ := { c.events_ with write := true } }
def disableWriting (c : Channel) : Channel :=
  { c with events_ := { c.events_ with write := false } }
def disableAll (c : Channel) : Channel := { c with events_ := kNoneEvent }

end Channel

/-- The object of a connection, in the order of acceptance. -/
abbrev ConnId := Nat

/-- Whose channel it is. -/
inductive ChannelId where
  | acceptor
  | conn (c : ConnId)
  deriving DecidableEq, Repr

/-- A poller: its state `P`, with the `index_` and `context_` of its channels,
and what the kernel decides, `E`. `none` is an exception or a failed assertion. -/
structure Poller (P E : Type) where
  new : P
  updateChannel : P → ChannelId → Channel → E → Option P
  removeChannel : P → ChannelId → Channel → Option P
  poll : P → (ChannelId → Channel) → E → Option (P × Option (List (ChannelId × Events)))
  registered : P → ChannelId → Prop
  not_registered_new : ∀ {k}, ¬ registered new k
  registered_update : ∀ {p k x e p' j},
    updateChannel p k x e = some p' → registered p' j → registered p j ∨ j = k
  registered_remove : ∀ {p k x p' j},
    removeChannel p k x = some p' → registered p' j → registered p j ∧ j ≠ k
  registered_poll : ∀ {p xs e r j}, poll p xs e = some r → registered r.1 j → registered p j
  poll_registered : ∀ {p xs e p' active j rev},
    poll p xs e = some (p', some active) → (j, rev) ∈ active → registered p j

/-- The most general poller: it may report any channels that are registered,
with any events. -/
def anyPoller : Poller (List ChannelId) (List (ChannelId × Events)) where
  new := []
  updateChannel p k _ _ := some (k :: p)
  removeChannel p k _ := some (p.filter (· != k))
  poll p _ active := if active.all (fun a => a.1 ∈ p) then some (p, some active) else none
  registered p k := k ∈ p
  not_registered_new := List.not_mem_nil
  registered_update h hj := by
    cases h
    exact (List.mem_cons.mp hj).symm
  registered_remove h hj := by
    cases h
    simpa using hj
  registered_poll h hj := by
    split at h
    · cases h; exact hj
    · cases h
  poll_registered h hj := by
    split at h
    · next hall => cases h; simpa using List.all_eq_true.mp hall _ hj
    · cases h

end Muduox.Net
