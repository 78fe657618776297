import Muduox.Lib.Lts

/-!
# `AsyncLogging`

`muduox/base/logging/AsyncLogging.h` and `AsyncLogging.cpp`, with `FixedBuffer`.
A step is a critical section of `mutex_`, or a piece of `threadFunc` between two
of them; `append` is one critical section. A null pointer that is followed and a
failed assertion are `none`. How long `wait_for` waits, and what `LogFile` does
with the bytes it is passed, is not modelled: the one may end at any time, and
the other is the list `passed`.

The destructor runs its body and then destroys the members in the reverse of
their order; the last of them that matters is `thread_`, which joins. What the
background thread does to a member that is being destroyed has no meaning, so
its control is lost there (`undefined`).
-/

namespace Muduox.Base

/-- `FixedBuffer<SIZE>`: the bytes from `data_` to `cur_`. Nothing reads those
behind, so `bzero` does nothing here. -/
structure FixedBuffer (SIZE : Nat) where
  data : List UInt8
  fits : data.length ≤ SIZE

namespace FixedBuffer

variable {SIZE : Nat}

def new : FixedBuffer SIZE := ⟨[], Nat.zero_le _⟩

def length (b : FixedBuffer SIZE) : Nat := b.data.length

def avail (b : FixedBuffer SIZE) : Nat := SIZE - b.length

def append (b : FixedBuffer SIZE) (buf : List UInt8) : FixedBuffer SIZE :=
  ⟨b.data ++ buf.take (min b.avail buf.length), by
    have := b.fits
    simp only [List.length_append, List.length_take, avail, length]
    omega⟩

def reset (_ : FixedBuffer SIZE) : FixedBuffer SIZE := new

/-- An append keeps what fits of the whole. -/
theorem data_append (b : FixedBuffer SIZE) (buf : List UInt8) :
    (b.append buf).data = (b.data ++ buf).take SIZE := by
  show b.data ++ buf.take (min (SIZE - b.data.length) buf.length) = _
  rw [List.take_append, List.take_of_length_le b.fits, ← List.take_eq_take_min]

end FixedBuffer

def kLargeBuffer : Nat := 4 * 1000 * 1000

abbrev Buffer := FixedBuffer kLargeBuffer

/-- What `append` may be given. -/
abbrev Line := { l : List UInt8 // l.length ≤ kLargeBuffer }

/-- Where `threadFunc` is. -/
inductive BackPc where
  | notStarted
  /-- Before the loop. -/
  | begin
  /-- `while (!stoken.stop_requested())`. -/
  | test
  /-- Before the critical section of the loop. -/
  | enter
  /-- In `cond_.wait_for`. -/
  | waiting
  | writing
  | recycle
  /-- Before the last critical section. -/
  | final
  /-- Writing what the last critical section took. -/
  | draining
  | flush
  | returned
  | undefined
  deriving DecidableEq, Repr

/-- The members that the background thread shares. -/
inductive Member where
  | mutex_
  | cond_
  | currentBuffer_
  | nextBuffer_
  | buffers_
  deriving DecidableEq, Repr

/-- Where the destructor is. -/
inductive Dtor where
  | alive
  /-- It has these members and then `thread_` to destroy. -/
  | members (ms : List Member)
  | done
  deriving DecidableEq, Repr

structure AsyncLogging where
  stopRequested : Bool := false
  currentBuffer_ : Option Buffer := some .new
  nextBuffer_ : Option Buffer := some .new
  buffers_ : List Buffer := []
  pc : BackPc := .notStarted
  newBuffer1 : Option Buffer := none
  newBuffer2 : Option Buffer := none
  buffersToWrite : List Buffer := []
  /-- How many of `buffersToWrite` were written. -/
  written : Nat := 0
  /-- What `LogFile::append` was given. -/
  passed : List UInt8 := []
  /-- The lines appended, in the order of the lock. -/
  appended : List Line := []
  /-- Those of them before the last critical section of `threadFunc`. -/
  beforeFinal : List Line := []
  dtor : Dtor := .alive
  destroyed : List Member := []
  /-- The members `threadFunc` used after their destruction began. -/
  misused : List Member := []

namespace AsyncLogging

/-- `append`. -/
def append (s : AsyncLogging) (line : Line) : Option AsyncLogging :=
  match s.currentBuffer_ with
  | none => none
  | some b =>
      let s := { s with appended := s.appended ++ [line] }
      if b.avail > line.1.length then some { s with currentBuffer_ := some (b.append line.1) }
      else
        let fresh := s.nextBuffer_.getD .new
        some { s with
          buffers_ := s.buffers_ ++ [b]
          nextBuffer_ := none
          currentBuffer_ := some (fresh.append line.1) }

/-- The critical section of the loop, after the wait. -/
def swap (s : AsyncLogging) : Option AsyncLogging :=
  match s.currentBuffer_ with
  | none => none
  | some b =>
      let s := { s with
        buffersToWrite := s.buffers_ ++ [b]
        buffers_ := s.buffersToWrite
        written := 0
        currentBuffer_ := s.newBuffer1
        newBuffer1 := none
        pc := .writing }
      some (if s.nextBuffer_.isNone then { s with nextBuffer_ := s.newBuffer2, newBuffer2 := none }
        else s)

/-- One round of `for (const auto& buf : buffersToWrite)`, or its end. -/
def write (s : AsyncLogging) (after : BackPc) : AsyncLogging :=
  match s.buffersToWrite[s.written]? with
  | none => { s with pc := after }
  | some b =>
      { s with
        written := s.written + 1
        passed := if b.length > 0 then s.passed ++ b.data else s.passed }

/-- `newBuffer = std::move(buffersToWrite.back())` and what follows, unless there
is one. -/
def refill (newBuffer : Option Buffer) (buffersToWrite : List Buffer) :
    Option (Option Buffer × List Buffer) :=
  match newBuffer with
  | some b => some (some b, buffersToWrite)
  | none =>
      match buffersToWrite.getLast? with
      | none => none
      | some b => some (some b.reset, buffersToWrite.dropLast)

/-- The end of the loop's body. -/
def recycle (s : AsyncLogging) : Option AsyncLogging :=
  let bufs := if s.buffersToWrite.length > 2 then s.buffersToWrite.take 2 else s.buffersToWrite
  (refill s.newBuffer1 bufs).bind fun (b1, bufs) =>
    (refill s.newBuffer2 bufs).map fun (b2, _) =>
      { s with newBuffer1 := b1, newBuffer2 := b2, buffersToWrite := [], written := 0, pc := .test }

/-- The critical section after the loop. -/
def last (s : AsyncLogging) : Option AsyncLogging :=
  match s.currentBuffer_ with
  | none => none
  | some b =>
      let s := { s with beforeFinal := s.appended, written := 0, pc := .draining }
      some (if b.length > 0 then
          { s with
            buffersToWrite := s.buffers_ ++ [b]
            buffers_ := s.buffersToWrite
            currentBuffer_ := s.newBuffer1
            newBuffer1 := none }
        else { s with buffersToWrite := s.buffers_, buffers_ := s.buffersToWrite })

/-- The next piece of `threadFunc`. -/
def threadFunc (s : AsyncLogging) : Option AsyncLogging :=
  match s.pc with
  | .begin => some { s with newBuffer1 := some .new, newBuffer2 := some .new, pc := .test }
  | .test => some { s with pc := if s.stopRequested then .final else .enter }
  | .enter => some { s with pc := .waiting }
  | .waiting => s.swap
  | .writing => some (s.write .recycle)
  | .recycle => s.recycle
  | .final => s.last
  | .draining => some (s.write .flush)
  | .flush => some { s with pc := .returned }
  | .notStarted | .returned | .undefined => none

/-- The members the next piece uses. -/
def uses : BackPc → List Member
  | .enter => [.mutex_, .cond_]
  | .waiting => [.cond_, .mutex_, .buffers_, .currentBuffer_, .nextBuffer_]
  | .final => [.mutex_, .currentBuffer_, .buffers_]
  | _ => []

/-- The next piece of `threadFunc`, among members that are being destroyed. -/
def background (s : AsyncLogging) : Option AsyncLogging :=
  let gone := (uses s.pc).filter (· ∈ s.destroyed)
  if gone = [] then s.threadFunc else some { s with misused := gone, pc := .undefined }

/-- What a member holds is destroyed with it. -/
def clear (s : AsyncLogging) : Member → AsyncLogging
  | .buffers_ => { s with buffers_ := [] }
  | .nextBuffer_ => { s with nextBuffer_ := none }
  | .currentBuffer_ => { s with currentBuffer_ := none }
  | .mutex_ | .cond_ => s

/-- The next piece of `~AsyncLogging()`. -/
def destroy (s : AsyncLogging) : Option AsyncLogging :=
  match s.dtor with
  | .alive =>
      some { s with
        stopRequested := true
        dtor := .members [.buffers_, .nextBuffer_, .currentBuffer_, .cond_, .mutex_] }
  | .members (m :: ms) => some { s.clear m with destroyed := m :: s.destroyed, dtor := .members ms }
  | .members [] =>
      if s.pc = .returned ∨ s.pc = .notStarted then some { s with dtor := .done } else none
  | .done => none

/-- The steps of a run: those of the object's users, while it is alive, of the
background thread, and of the destructor. -/
inductive Step where
  | start
  | append (line : Line)
  | stop
  | background
  | destroy

def step (s : AsyncLogging) (a : Step) : Option AsyncLogging :=
  match a with
  | .start =>
      -- A new `std::jthread` has a new stop state.
      if s.dtor = .alive ∧ s.pc = .notStarted then
        some { s with stopRequested := false, pc := .begin }
      else none
  | .append line => if s.dtor = .alive then s.append line else none
  | .stop => if s.dtor = .alive then some { s with stopRequested := true } else none
  | .background => s.background
  | .destroy => s.destroy

/-- The runs of an object that was just constructed. -/
def lts : Lts AsyncLogging Step := ⟨(· = {}), step⟩

/-! ## Loglines of any length -/

/-- What an empty buffer takes of a logline. -/
def cut (logline : List UInt8) : Line :=
  ⟨logline.take kLargeBuffer, by rw [List.length_take]; exact Nat.min_le_left _ _⟩

/-- `append`, whatever the length: a buffer takes what fits. -/
def appendAny (s : AsyncLogging) (logline : List UInt8) : Option AsyncLogging :=
  match s.currentBuffer_ with
  | none => none
  | some b =>
      let s := { s with appended := s.appended ++ [cut logline] }
      if b.avail > logline.length then some { s with currentBuffer_ := some (b.append logline) }
      else
        let fresh := s.nextBuffer_.getD .new
        some { s with
          buffers_ := s.buffers_ ++ [b]
          nextBuffer_ := none
          currentBuffer_ := some (fresh.append logline) }

/-- The steps of the users and of `threadFunc`, before the destructor. -/
inductive LiveStep where
  | start
  | append (logline : List UInt8)
  | stop
  | background

def liveStep (s : AsyncLogging) : LiveStep → Option AsyncLogging
  | .start => s.step .start
  | .append logline => s.appendAny logline
  | .stop => s.step .stop
  | .background => s.step .background

def live : Lts AsyncLogging LiveStep := ⟨(· = {}), liveStep⟩

end AsyncLogging

end Muduox.Base
