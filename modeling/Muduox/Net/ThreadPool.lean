import Muduox.Lib.Threads

/-!
# `BlockQueue` and `ThreadPool`

`muduox/net/core/BlockQueue.h`, `ThreadPool.h` and `ThreadPool.cpp`, for tasks of
any type. A frame is a piece between two points where another thread can be
seen: a lock, the test of the predicate, the wait, an unlock, a notification. A
thread in `waiting` is blocked in `cond_.wait`; a notification takes it out, or
the wait ends by itself, and then it still needs the lock. Other threads, and
tasks, may push and may stop the queue.

`log` is the history of the queue: each entry is written in a critical section.
-/

namespace Muduox.Net

/-- A worker of the pool, or any other thread. -/
inductive PoolThread where
  | worker (i : Nat)
  | other (n : Nat)
  deriving DecidableEq, Repr

/-- The code a thread may have left to run. -/
inductive PoolFrame (T : Type) where
  /-- User code. -/
  | user
  /-- The loop of `ThreadPool::work`, about to call `pop`. -/
  | work
  | task (x : T)
  | insert (x : T)
  | emplace (x : T)
  | notifyOne
  | pop
  /-- The predicate of `cond_.wait`. -/
  | test
  /-- `cond_.wait` is about to block. -/
  | wait
  | blocked
  /-- `pop` after `cond_.wait`. -/
  | take
  | stop
  /-- `stop_ = true`. -/
  | setStop
  | notifyAll
  /-- The destructor of the lock. -/
  | unlock
  deriving DecidableEq, Repr

/-- What the environment decides for the frame that runs. -/
inductive PoolChoice (T : Type) where
  | go
  /-- User code or a task returns. -/
  | ret
  | push (x : T)
  | stop
  /-- Who is woken by `notify_one`, if anyone waits. -/
  | wake (w : Option PoolThread)
  /-- A wait ends by itself. -/
  | spurious
  deriving DecidableEq, Repr

/-- What happened to the queue. -/
inductive PoolEvent (T : Type) where
  | pushed (x : T)
  /-- `pop` returned true. -/
  | popped (t : PoolThread) (x : T)
  /-- `pop` returned false. -/
  | refused (t : PoolThread)
  | stopped
  deriving DecidableEq, Repr

structure BlockQueue (T : Type) where
  queue_ : List T := []
  stop_ : Bool := false
  /-- Who holds `mutex_`. -/
  mutex_ : Option PoolThread := none
  waiting : List PoolThread := []
  log : List (PoolEvent T) := []

namespace BlockQueue

variable {T : Type}

/-- Take the lock and go on with `next`. -/
def lock (s : BlockQueue T) (t : PoolThread) (next : List (PoolFrame T)) :
    Option (BlockQueue T × List (PoolFrame T)) :=
  if s.mutex_ = none then some ({ s with mutex_ := some t }, next) else none

/-- Thread `w` is no longer blocked. -/
def wake (s : BlockQueue T) (w : PoolThread) : BlockQueue T :=
  { s with waiting := s.waiting.filter (· ≠ w) }

/-- One frame, run by thread `t`. -/
def exec (t : PoolThread) (f : PoolFrame T) (c : PoolChoice T) (s : BlockQueue T) :
    Option (BlockQueue T × List (PoolFrame T)) :=
  match f, c with
  | .user, .ret => some (s, [])
  | .user, .push x => some (s, [.insert x, .user])
  | .user, .stop => some (s, [.stop, .user])
  | .task _, .ret => some (s, [])
  | .task x, .push y => some (s, [.insert y, .task x])
  | .task x, .stop => some (s, [.stop, .task x])
  | .work, .go => some (s, [.pop])
  | .insert x, .go => s.lock t [.emplace x]
  | .emplace x, .go =>
      some ({ s with queue_ := s.queue_ ++ [x], log := s.log ++ [.pushed x] },
        [.unlock, .notifyOne])
  | .unlock, .go => some ({ s with mutex_ := none }, [])
  | .notifyOne, .wake none => if s.waiting = [] then some (s, []) else none
  | .notifyOne, .wake (some w) => if w ∈ s.waiting then some (s.wake w, []) else none
  | .pop, .go => s.lock t [.test]
  | .test, .go => some (s, if !s.queue_.isEmpty || s.stop_ then [.take] else [.wait])
  | .wait, .go => some ({ s with mutex_ := none, waiting := t :: s.waiting }, [.blocked])
  | .blocked, .go => if t ∈ s.waiting then none else s.lock t [.test]
  | .blocked, .spurious => if t ∈ s.waiting then some (s.wake t, [.blocked]) else none
  | .take, .go =>
      match s.queue_, s.stop_ with
      | x :: rest, false =>
          some ({ s with queue_ := rest, log := s.log ++ [.popped t x] },
            [.unlock, .task x, .work])
      | _, _ => some ({ s with log := s.log ++ [.refused t] }, [.unlock])
  | .stop, .go => s.lock t [.setStop]
  | .setStop, .go =>
      some ({ s with stop_ := true, log := s.log ++ [.stopped] }, [.unlock, .notifyAll])
  | .notifyAll, .go => some ({ s with waiting := [] }, [])
  | _, _ => none

/-- The queue as threads over its state. -/
def code : Threads.Code PoolThread (PoolFrame T) (PoolChoice T) (BlockQueue T) := ⟨exec⟩

end BlockQueue

namespace ThreadPool

/-- `numThreads_`. -/
def numThreads_ (numThreads : Int) : Nat := (max 1 numThreads).toNat

/-- A pool that was just constructed: its workers are about to run, and other
threads run user code. -/
def start (T : Type) (numThreads : Int) :
    Threads.Config PoolThread (PoolFrame T) (BlockQueue T) where
  shared := {}
  stack
    | .worker i => if i < numThreads_ numThreads then [.work] else []
    | .other _ => [.user]

/-- The runs of a pool. -/
def lts (T : Type) (numThreads : Int) :
    Lts (Threads.Config PoolThread (PoolFrame T) (BlockQueue T))
      (PoolThread × PoolChoice T) :=
  BlockQueue.code.lts (· = start T numThreads)

end ThreadPool

end Muduox.Net
