import Muduox.Lib.Threads

/-!
# `EventLoop`: one loop per thread, a functor queue, and a wakeup socket

`muduox/net/core/EventLoop.h` and `EventLoop.cpp`, for any number of loops and
of other threads. A thread is a stack of frames (`Threads`); the frames of this
file are the pieces of `loop`, `quit`, `runInLoop`, `queueInLoop`, `wakeup`,
`handleWakeup` and `doPendingFunctors` between two points at which another
thread can be seen. What channels and functors do is the application's: its
code is a parameter (`App`), and so is the poller, because `Poller` is an
abstract class. User code is the frame `user`: it calls the application's
interface, queues functors of its own, asks a loop to quit, or returns.

A loop's `pendingFunctors_` carries, beside each functor, the thread that
pushed it; nothing computes with that. `wakeupBytes` counts the unread bytes at
`wakeupFds_[0]`. The poller reports the wakeup channel whenever there are some,
at a place among the active channels that the environment chooses.
-/

namespace Muduox.Net

abbrev LoopId := Nat

/-- A loop's own thread, or any other. -/
inductive ThreadId where
  | loop (l : LoopId)
  | user (n : Nat)
  deriving DecidableEq, Repr

/-- The code a thread may have left to run, `A` being the application's. -/
inductive Frame (A : Type) where
  | user
  | code (a : A)
  | runInLoop (l : LoopId) (cb : Frame A)
  | queueInLoop (l : LoopId) (cb : Frame A)
  | wakeup (l : LoopId)
  | quit (l : LoopId)
  | loop (l : LoopId)
  /-- `loop` after `looping_ = true`. -/
  | clearQuit (l : LoopId)
  /-- The test of the loop. -/
  | whileNotQuit (l : LoopId)
  | poll (l : LoopId)
  | handleWakeup (l : LoopId)
  | doPendingFunctors (l : LoopId)
  /-- `func()` inside `doPendingFunctors`. -/
  | functor (l : LoopId) (cb : Frame A)
  deriving DecidableEq, Repr

/-- What the environment decides for the frame that runs. -/
inductive Choice (A Ch : Type) where
  /-- Nothing to decide. -/
  | go
  /-- User code returns. -/
  | ret
  | call (a : A)
  | callRunInLoop (l : LoopId)
  | callQueueInLoop (l : LoopId)
  | callQuit (l : LoopId)
  /-- The bytes a send or receive on the wakeup sockets moved. -/
  | moved (n : Nat)
  | app (c : Ch)
  /-- The poller's choice, and the place of the wakeup channel. -/
  | poll (c : Ch) (place : Nat)
  deriving DecidableEq, Repr

structure EventLoop (A : Type) where
  looping_ : Bool := false
  quit_ : Bool := false
  pendingFunctors_ : List (ThreadId × Frame A) := []
  wakeupBytes : Nat := 0

/-- Code an application may leave to run: none of the loop's own frames, and no
functor made of one. -/
def Frame.plain {A : Type} : Frame A → Bool
  | .user | .code _ => true
  | .runInLoop _ cb | .queueInLoop _ cb => cb.plain
  | _ => false

/-- An application over the loops: its code, what user code may call, and its
poller. A call of `poll` either continues inside the poller or returns the code
of the active channels' handlers. -/
structure App (A Ch S : Type) where
  exec : ThreadId → A → Ch → S → Option (S × List (Frame A))
  api : ThreadId → S → A → Bool
  poll : LoopId → Ch → S → Option (S × Option (List A))
  exec_plain : ∀ {t a c s r}, exec t a c s = some r → ∀ f ∈ r.2, f.plain = true

/-- The loops and the application's state. -/
structure Reactor (A S : Type) where
  loop : LoopId → EventLoop A
  app : S

variable {A Ch S : Type}

namespace EventLoop

/-- The critical section of `queueInLoop`, entered by thread `t`. -/
def queueInLoop (e : EventLoop A) (t : ThreadId) (cb : Frame A) : EventLoop A :=
  { e with pendingFunctors_ := e.pendingFunctors_ ++ [(t, cb)] }

/-- The critical section of `doPendingFunctors`. -/
def swapPending (e : EventLoop A) : EventLoop A × List (Frame A) :=
  ({ e with pendingFunctors_ := [] }, e.pendingFunctors_.map Prod.snd)

/-- `send` on the wakeup socket moves up to eight bytes; it moves none only
when the socket is full, which leaves unread bytes behind. -/
def wakeup (e : EventLoop A) (n : Nat) : Option (EventLoop A) :=
  if n ≤ 8 ∧ (n = 0 → 0 < e.wakeupBytes) then
    some { e with wakeupBytes := e.wakeupBytes + n }
  else none

/-- `recv` on the wakeup socket takes up to eight of the unread bytes. -/
def handleWakeup (e : EventLoop A) (n : Nat) : Option (EventLoop A) :=
  if n ≤ 8 ∧ n ≤ e.wakeupBytes then some { e with wakeupBytes := e.wakeupBytes - n }
  else none

/-- What one iteration has left after `poll` returned `handlers`: dispatch
them, with the wakeup channel among them if it is readable, then run the
queue. -/
def iteration (e : EventLoop A) (l : LoopId) (handlers : List A) (place : Nat) :
    List (Frame A) :=
  let active := handlers.map Frame.code
  (if 0 < e.wakeupBytes then active.take place ++ .handleWakeup l :: active.drop place
    else active) ++ [.doPendingFunctors l, .whileNotQuit l]

end EventLoop

namespace Reactor

def setLoop (s : Reactor A S) (l : LoopId) (e : EventLoop A) : Reactor A S :=
  { s with loop := Function.update s.loop l e }

/-- `isInLoopThread()`. -/
def isInLoopThread (t : ThreadId) (l : LoopId) : Bool := t == .loop l

/-- One frame, run by thread `t`. -/
def exec (P : App A Ch S) (t : ThreadId) (f : Frame A) (c : Choice A Ch)
    (s : Reactor A S) : Option (Reactor A S × List (Frame A)) :=
  match f, c with
  | .user, .ret => some (s, [])
  | .user, .call a => if P.api t s.app a then some (s, [.code a, .user]) else none
  | .user, .callRunInLoop l => some (s, [.runInLoop l .user, .user])
  | .user, .callQueueInLoop l => some (s, [.queueInLoop l .user, .user])
  | .user, .callQuit l => some (s, [.quit l, .user])
  | .code a, .app c =>
      match P.exec t a c s.app with
      | some (x, next) => some ({ s with app := x }, next)
      | none => none
  | .runInLoop l cb, .go =>
      some (s, if isInLoopThread t l then [cb] else [.queueInLoop l cb])
  | .queueInLoop l cb, .go =>
      some (s.setLoop l ((s.loop l).queueInLoop t cb),
        if isInLoopThread t l then [] else [.wakeup l])
  | .wakeup l, .moved n =>
      match (s.loop l).wakeup n with
      | some e => some (s.setLoop l e, [])
      | none => none
  | .quit l, .go =>
      some (s.setLoop l { s.loop l with quit_ := true },
        if isInLoopThread t l then [] else [.wakeup l])
  | .loop l, .go =>
      if isInLoopThread t l then
        some (s.setLoop l { s.loop l with looping_ := true }, [.clearQuit l])
      else none
  | .clearQuit l, .go =>
      some (s.setLoop l { s.loop l with quit_ := false }, [.whileNotQuit l])
  | .whileNotQuit l, .go =>
      if (s.loop l).quit_ then some (s.setLoop l { s.loop l with looping_ := false }, [])
      else some (s, [.poll l])
  | .poll l, .poll c place =>
      match P.poll l c s.app with
      | some (x, none) => some ({ s with app := x }, [.poll l])
      | some (x, some handlers) =>
          some ({ s with app := x }, (s.loop l).iteration l handlers place)
      | none => none
  | .handleWakeup l, .moved n =>
      match (s.loop l).handleWakeup n with
      | some e => some (s.setLoop l e, [])
      | none => none
  | .doPendingFunctors l, .go =>
      let (e, functors) := (s.loop l).swapPending
      some (s.setLoop l e, functors.map (.functor l))
  | .functor _ cb, .go => some (s, [cb])
  | _, _ => none

/-- The reactor as threads over its state. -/
def code (P : App A Ch S) : Threads.Code ThreadId (Frame A) (Choice A Ch) (Reactor A S) :=
  ⟨exec P⟩

/-- Loops that were just constructed. A loop's thread may run user code before
it calls `loop()`, and may call it again; other threads run application or user
code. -/
def Init (s : Threads.Config ThreadId (Frame A) (Reactor A S)) : Prop :=
  (∀ l, s.shared.loop l = {}) ∧
    (∀ l, ∀ f ∈ s.stack (.loop l), f = .user ∨ f = .loop l) ∧
    ∀ n, ∀ f ∈ s.stack (.user n), f.plain = true

/-- The reactor's runs, from `init`. -/
def lts (P : App A Ch S) (init : Threads.Config ThreadId (Frame A) (Reactor A S) → Prop) :
    Lts (Threads.Config ThreadId (Frame A) (Reactor A S)) (ThreadId × Choice A Ch) :=
  (code P).lts init

end Reactor

end Muduox.Net
