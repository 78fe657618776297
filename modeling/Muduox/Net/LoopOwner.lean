import Mathlib.Logic.Function.Basic
import Muduox.Lib.Lts

/-!
# An `EventLoopThread` started again

`EventLoopThread` of `muduox/net/core/EventLoopThreadPool.cpp`, with one thread
that owns it and calls `startLoop` and `stop` as often as it likes. Of the
threads it spawns one at a time is alive, since `startLoop` spawns none while
`thread_` is joinable. The loops are numbered as they are constructed, one by
each thread; the assignment to `loop_` destroys the one that was there. Of a
loop only `quit_` is kept: its callbacks may call `quit()`, and so may `stop`.
-/

namespace Muduox.Net

/-- Where the spawned thread is in `threadFunc`. -/
inductive ThreadFunc where
  /-- `std::make_unique<EventLoop>()`. -/
  | construct
  /-- The critical section, with the loop constructed. -/
  | publish (loop : Nat)
  | notifyOne
  /-- `loop_->loop()`. -/
  | callLoop
  /-- `quit_ = false`, in the loop's `loop()`. -/
  | clearQuit (loop : Nat)
  | whileNotQuit (loop : Nat)
  | returned
  deriving DecidableEq, Repr

/-- The assignment to `loop_` is still to come. -/
def ThreadFunc.unpublished : ThreadFunc → Bool
  | .construct | .publish _ => true
  | _ => false

/-- Where the owner is. -/
inductive OwnerCode where
  | user
  /-- `startLoop` at `cond_.wait`, with the lock. -/
  | wait
  | blocked
  /-- `return loop_.get()`. -/
  | returnLoop
  /-- `stop`. -/
  | quit
  | join
  deriving DecidableEq, Repr

structure LoopOwner where
  loop_ : Option Nat := none
  /-- The thread of `thread_`, while that is joinable. -/
  thread_ : Option ThreadFunc := none
  owner : OwnerCode := .user
  /-- `quit_` of each loop. -/
  quit_ : Nat → Bool := fun _ => false
  constructed : Nat := 0
  destroyed : List Nat := []
  /-- The loop that the last spawned thread has constructed. -/
  own : Option Nat := none
  /-- What `startLoop` returned, until it is called again. -/
  returned : Option (Option Nat) := none

inductive OwnerCall where
  | startLoop
  | stop
  /-- The owner runs on. -/
  | owner
  /-- Its wait ends by itself. -/
  | spurious
  /-- The spawned thread runs on; `asked` says whether a callback of an iteration
  calls `quit()`. -/
  | thread (asked : Bool)
  deriving DecidableEq, Repr

namespace LoopOwner

def startLoop (s : LoopOwner) : LoopOwner :=
  if s.thread_.isSome then { s with owner := .returnLoop, returned := none }
  else
    { s with owner := .wait, thread_ := some .construct, own := none, returned := none }

/-- The owner's next piece. -/
def runOwner (s : LoopOwner) : Option LoopOwner :=
  match s.owner with
  | .user | .blocked => none
  | .wait => some { s with owner := if s.loop_.isSome then .returnLoop else .blocked }
  | .returnLoop => some { s with owner := .user, returned := some s.loop_ }
  | .quit =>
      match s.loop_ with
      | some l => some { s with owner := .join, quit_ := Function.update s.quit_ l true }
      | none => some { s with owner := .join }
  | .join =>
      match s.thread_ with
      | none => some { s with owner := .user }
      | some .returned => some { s with owner := .user, thread_ := none }
      | some _ => none

/-- The spawned thread's next piece. -/
def runThread (s : LoopOwner) (asked : Bool) : Option LoopOwner :=
  match s.thread_ with
  | none | some .returned => none
  | some .construct =>
      some
        { s with
          thread_ := some (.publish s.constructed)
          own := some s.constructed
          constructed := s.constructed + 1 }
  | some (.publish l) =>
      some
        { s with
          thread_ := some .notifyOne
          loop_ := some l
          destroyed := s.destroyed ++ s.loop_.toList }
  | some .notifyOne =>
      some
        { s with
          thread_ := some .callLoop
          owner := if s.owner = .blocked then .wait else s.owner }
  | some .callLoop => s.loop_.map fun l => { s with thread_ := some (.clearQuit l) }
  | some (.clearQuit l) =>
      some
        { s with thread_ := some (.whileNotQuit l), quit_ := Function.update s.quit_ l false }
  | some (.whileNotQuit l) =>
      if s.quit_ l then some { s with thread_ := some .returned }
      else some { s with quit_ := Function.update s.quit_ l asked }

def step (s : LoopOwner) : OwnerCall → Option LoopOwner
  | .startLoop => if s.owner = .user then some s.startLoop else none
  | .stop => if s.owner = .user then some { s with owner := .quit } else none
  | .owner => s.runOwner
  | .spurious => if s.owner = .blocked then some { s with owner := .wait } else none
  | .thread asked => s.runThread asked

/-- The runs of an `EventLoopThread` that was just constructed. -/
def lts : Lts LoopOwner OwnerCall where
  init s := s = {}
  step := step

end LoopOwner

end Muduox.Net
