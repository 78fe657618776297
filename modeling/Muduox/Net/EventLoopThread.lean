import Muduox.Net.EventLoop

/-!
# `EventLoopThread`

`EventLoopThread` of `muduox/net/core/EventLoopThreadPool.h` and
`EventLoopThreadPool.cpp`, over the reactor. The object for loop `l` has `l` as
its `loop_` and `.loop l` as its `thread_`; it is started once. Any other thread
may start it, and once `loop_` is published any other thread may stop it, ask the
loop to quit, and run whatever user code of the reactor it likes.

The frames of this file are the pieces of `startLoop`, `stop` and `threadFunc`;
the rest are the reactor's, which run as they do there. `log` records what became
of `quit_`, and nothing reads it.
-/

namespace Muduox.Net

/-- The code a thread may have left to run. -/
inductive LoopFrame (A : Type) where
  /-- `startLoop` at `cond_.wait`, with the lock. -/
  | wait (l : LoopId)
  | blocked (l : LoopId)
  /-- `thread_.join()`. -/
  | join (l : LoopId)
  | threadFunc (l : LoopId)
  /-- The critical section of `threadFunc`. -/
  | publish (l : LoopId)
  | notifyOne (l : LoopId)
  /-- `loop_->loop()`. -/
  | callLoop (l : LoopId)
  /-- `threadFunc` returns. -/
  | exit (l : LoopId)
  | inner (f : Frame A)
  deriving DecidableEq, Repr

/-- What the environment decides for the frame that runs. -/
inductive LoopChoice (A Ch : Type) where
  | go
  /-- User code calls `startLoop`. -/
  | startLoop (l : LoopId)
  /-- User code calls `stop`. -/
  | stop (l : LoopId)
  /-- Who is woken by `notify_one`, if anyone waits. -/
  | wake (w : Option ThreadId)
  /-- A wait ends by itself. -/
  | spurious
  | inner (c : Choice A Ch)

/-- What happened to a loop's `quit_`. -/
inductive QuitEvent where
  /-- `loop()` stored false. -/
  | cleared
  /-- `quit()` stored true. -/
  | asked
  /-- `loop()` read false: an iteration starts. -/
  | iterate
  /-- `loop()` read true. -/
  | left
  deriving DecidableEq, Repr

structure EventLoopThread where
  /-- `loop_ != nullptr`. -/
  loop_ : Bool := false
  /-- `thread_.joinable()`. -/
  joinable : Bool := false
  /-- The thread is through `threadFunc`. -/
  returned : Bool := false
  /-- Who is blocked in `cond_.wait`. -/
  waiting : List ThreadId := []
  log : List QuitEvent := []

/-- A reactor whose loops run in these threads. -/
structure LoopThreads (A S : Type) where
  reactor : Reactor A S
  thread : LoopId → EventLoopThread

variable {A Ch S : Type}

namespace LoopThreads

def setThread (s : LoopThreads A S) (l : LoopId) (x : EventLoopThread) : LoopThreads A S :=
  { s with thread := Function.update s.thread l x }

/-- What a frame of the reactor does to `quit_`. -/
def quitEvent (s : Reactor A S) : Frame A → Option (LoopId × QuitEvent)
  | .clearQuit l => some (l, .cleared)
  | .quit l => some (l, .asked)
  | .whileNotQuit l => some (l, if (s.loop l).quit_ then .left else .iterate)
  | _ => none

def record (s : LoopThreads A S) : Option (LoopId × QuitEvent) → LoopThreads A S
  | some (l, e) => s.setThread l { s.thread l with log := (s.thread l).log ++ [e] }
  | none => s

/-- User code can only have a loop that was published. -/
def known (s : LoopThreads A S) : Choice A Ch → Bool
  | .callRunInLoop l | .callQueueInLoop l | .callQuit l => (s.thread l).loop_
  | _ => true

/-- One frame, run by thread `t`. -/
def exec (P : App A Ch S) (t : ThreadId) (f : LoopFrame A) (c : LoopChoice A Ch)
    (s : LoopThreads A S) : Option (LoopThreads A S × List (LoopFrame A)) :=
  match f, c with
  | .inner .user, .startLoop l =>
      if (s.thread l).joinable then some (s, [.inner .user])
      else if (s.thread l).returned then none
      else some (s.setThread l { s.thread l with joinable := true }, [.wait l, .inner .user])
  | .inner .user, .stop l =>
      if (s.thread l).loop_ ∧ t ≠ .loop l then
        some (s, [.inner (.quit l), .join l, .inner .user])
      else none
  | .wait l, .go =>
      if (s.thread l).loop_ then some (s, [])
      else some (s.setThread l { s.thread l with waiting := t :: (s.thread l).waiting },
        [.blocked l])
  | .blocked l, .go => if t ∈ (s.thread l).waiting then none else some (s, [.wait l])
  | .blocked l, .spurious =>
      some (s.setThread l
        { s.thread l with waiting := (s.thread l).waiting.filter (· ≠ t) }, [.wait l])
  | .join l, .go =>
      if !(s.thread l).joinable then some (s, [])
      else if (s.thread l).returned then
        some (s.setThread l { s.thread l with joinable := false }, [])
      else none
  -- The thread exists once `startLoop` has made it.
  | .threadFunc l, .go => if (s.thread l).joinable then some (s, [.publish l]) else none
  | .publish l, .go =>
      some (s.setThread l { s.thread l with loop_ := true }, [.notifyOne l, .callLoop l, .exit l])
  | .notifyOne l, .wake none => if (s.thread l).waiting = [] then some (s, []) else none
  | .notifyOne l, .wake (some w) =>
      if w ∈ (s.thread l).waiting then
        some (s.setThread l
          { s.thread l with waiting := (s.thread l).waiting.filter (· ≠ w) }, [])
      else none
  | .callLoop l, .go => some (s, [.inner (.loop l)])
  | .exit l, .go => some (s.setThread l { s.thread l with returned := true }, [])
  | .inner f, .inner c =>
      if s.known c then
        match Reactor.exec P t f c s.reactor with
        | some (x, next) =>
            some ({ s.record (quitEvent s.reactor f) with reactor := x }, next.map .inner)
        | none => none
      else none
  | _, _ => none

/-- These threads over their state. -/
def code (P : App A Ch S) :
    Threads.Code ThreadId (LoopFrame A) (LoopChoice A Ch) (LoopThreads A S) := ⟨exec P⟩

/-- Threads that were not started; the others run user code. -/
def start (x : S) : Threads.Config ThreadId (LoopFrame A) (LoopThreads A S) where
  shared := ⟨⟨fun _ => {}, x⟩, fun _ => {}⟩
  stack
    | .loop l => [.threadFunc l]
    | .user _ => [.inner .user]

/-- The runs from there. -/
def lts (P : App A Ch S) (x : S) :
    Lts (Threads.Config ThreadId (LoopFrame A) (LoopThreads A S))
      (ThreadId × LoopChoice A Ch) :=
  (code P).lts (· = start x)

end LoopThreads

end Muduox.Net
