import Mathlib.Algebra.Group.Nat.Defs
import Muduox.Lib.Lts

/-!
# `LogFile`

`muduox/base/logging/LogFile.h` and `LogFile.cpp`. What the environment decides
is an argument: what the clock reads, whether `fopen` succeeds and how many
bytes `fwrite` takes. `off_t` has 64 bits, so no file goes on behind `offMax`,
and what `fwrite` is given beyond it is not taken.

A stream keeps everything that was written to it since it was opened, how much
of that is with the operating system, and for how long and how many writes the
rest has been waiting. Only `fflush` and `fclose` hand bytes over: when `stdio`
empties its own full buffer is not modelled. A call is one step, since `append`
and `flush` hold the mutex where there is one.
-/

namespace Muduox.Base

/-- The largest `off_t`. -/
def offMax : Nat := 2 ^ 63 - 1

/-- Addition of `off_t`. -/
def addOff (a b : Int) : Int := (a + b).bmod (2 ^ 64)

/-- A `std::FILE` since its `fopen`. -/
structure FILE where
  filename : String
  bytes : List UInt8 := []
  fits : bytes.length ≤ offMax
  /-- How many of the bytes the operating system has. -/
  flushed : Nat := 0
  flushedAt : Int
  /-- The writes since then. -/
  writes : Nat := 0

namespace FILE

def fopen (filename : String) (now : Int) : FILE :=
  { filename, bytes := [], fits := Nat.zero_le _, flushedAt := now }

/-- `fwrite(data, 1, data.length, fp)`: the stream, and how many bytes it took. -/
def fwrite (fp : FILE) (data : List UInt8) (takes : Nat) : FILE × Nat :=
  let d := data.take (min takes (offMax - fp.bytes.length))
  ({ fp with
      bytes := fp.bytes ++ d
      fits := by
        have := fp.fits
        simp only [d, List.length_append, List.length_take]
        omega
      writes := fp.writes + 1 }, d.length)

def fflush (fp : FILE) (now : Int) : FILE :=
  { fp with flushed := fp.bytes.length, flushedAt := now, writes := 0 }

/-- Nothing written is still to be handed over. -/
def Clean (fp : FILE) : Prop := fp.flushed = fp.bytes.length

instance (fp : FILE) : Decidable fp.Clean := inferInstanceAs (Decidable (_ = _))

end FILE

/-- What the process has to say about a file's name: `strftime` of
`.%Y%m%d-%H%M%S.` at a local time, and its id. -/
structure Host where
  strftime : Int → String
  getpid : Nat

/-- What an `append` meets: how many bytes `fwrite` takes, what the clock says
where `append_unlocked` may read it and, after that, where `rollFile` may, and
whether `fopen` succeeds. -/
structure Outcome where
  takes : Nat
  now : Int
  rollNow : Int
  opens : Bool

def kRollPerSeconds : Int := 60 * 60 * 24

/-- `now / kRollPerSeconds * kRollPerSeconds`. -/
def startOf (now : Int) : Int := now.tdiv kRollPerSeconds * kRollPerSeconds

structure LogFile where
  basename_ : String
  rollSize_ : Int
  flushInterval_ : Int
  checkEveryN_ : Int
  count_ : Int := 0
  startOfPeriod_ : Int := 0
  lastRoll_ : Int := 0
  lastFlush_ : Int := 0
  fp_ : Option FILE := none
  writtenBytes_ : Int := 0
  /-- The streams closed so far, in their order. -/
  closed : List FILE := []

namespace LogFile

variable (host : Host)

def getLogFileName (basename : String) (now : Int) : String :=
  basename ++ host.strftime now ++ "." ++ toString host.getpid ++ ".log"

/-- `fclose(fp_)`, if there is a stream. -/
def close (f : LogFile) (now : Int) : LogFile :=
  { f with closed := f.closed ++ (f.fp_.map (·.fflush now)).toList, fp_ := none }

def rollFile (f : LogFile) (now : Int) (opens : Bool) : LogFile × Bool :=
  let filename := getLogFileName host f.basename_ now
  let start := startOf now
  if now > f.lastRoll_ then
    let f := { f with lastRoll_ := now, lastFlush_ := now, startOfPeriod_ := start }
    let f := f.close now
    if opens then ({ f with fp_ := some (.fopen filename now), writtenBytes_ := 0 }, true)
    else (f, false)
  else (f, false)

/-- The constructor. -/
def new (basename : String) (rollSize flushInterval checkEveryN now : Int) (opens : Bool) :
    Option LogFile :=
  let f : LogFile :=
    { basename_ := basename, rollSize_ := rollSize, flushInterval_ := flushInterval,
      checkEveryN_ := checkEveryN }
  if '/' ∈ basename.toList then none else some (f.rollFile host now opens).1

def append_unlocked (f : LogFile) (logline : List UInt8) (o : Outcome) : LogFile :=
  match f.fp_ with
  | none => f
  | some fp =>
      let written := (fp.fwrite logline o.takes).2
      let fp := (fp.fwrite logline o.takes).1
      let f : LogFile := { f with fp_ := some fp, writtenBytes_ := addOff f.writtenBytes_ written }
      if f.writtenBytes_ > f.rollSize_ ∧ f.rollSize_ > 0 then (f.rollFile host o.rollNow o.opens).1
      else
        let f := { f with count_ := f.count_ + 1 }
        if f.count_ ≥ f.checkEveryN_ then
          let f := { f with count_ := 0 }
          let thisPeriod := startOf o.now
          if thisPeriod ≠ f.startOfPeriod_ then (f.rollFile host o.rollNow o.opens).1
          else if o.now - f.lastFlush_ > f.flushInterval_ then
            { f with lastFlush_ := o.now, fp_ := some (fp.fflush o.now) }
          else f
        else f

def flush (f : LogFile) (now : Int) : LogFile := { f with fp_ := f.fp_.map (·.fflush now) }

/-- The streams, in the order in which they were opened. -/
def streams (f : LogFile) : List FILE := f.closed ++ f.fp_.toList

/-- `LogFile.h`: "Periodic flush: every flushInterval seconds or checkEveryN
writes". The append is in such a place. -/
def Due (f : LogFile) (o : Outcome) : Prop :=
  ∃ fp ∈ f.fp_, o.now - fp.flushedAt > f.flushInterval_ ∨ (fp.writes + 1 : Nat) = f.checkEveryN_

instance (f : LogFile) (o : Outcome) : Decidable (f.Due o) :=
  inferInstanceAs (Decidable (∃ fp ∈ f.fp_, _))

/-- Everything written so far is with the operating system. -/
def Flushed (f : LogFile) : Prop := ∀ fp ∈ f.streams, fp.Clean

instance (f : LogFile) : Decidable f.Flushed := inferInstanceAs (Decidable (∀ fp ∈ f.streams, _))

end LogFile

/-- A call, with what the environment decides in it. -/
inductive LogCall where
  | append (logline : List UInt8) (o : Outcome)
  | flush (now : Int)
  | rollFile (now : Int) (opens : Bool)

/-- A log file with what was done to it. -/
structure LogRun where
  file : LogFile
  /-- The last reading of the clock. -/
  clock : Int
  appended : List (List UInt8) := []
  /-- How many appends that were due left bytes behind. -/
  missed : Nat := 0

namespace LogRun

variable (host : Host)

def call (r : LogRun) : LogCall → LogRun
  | .append logline o =>
      let file := r.file.append_unlocked host logline o
      { file
        clock := o.rollNow
        appended := r.appended ++ [logline]
        missed := r.missed + if r.file.Due o ∧ ¬ file.Flushed then 1 else 0 }
  | .flush now => { r with file := r.file.flush now, clock := now }
  | .rollFile now opens => { r with file := (r.file.rollFile host now opens).1, clock := now }

/-- What a constructor may have left. -/
def Constructed (r : LogRun) : Prop :=
  ∃ basename rollSize flushInterval checkEveryN now opens file,
    LogFile.new host basename rollSize flushInterval checkEveryN now opens = some file ∧
      r = { file, clock := now }

def lts : Lts LogRun LogCall := ⟨Constructed host, fun r a => some (r.call host a)⟩

/-- The runs that start with an open stream. -/
def opened : Lts LogRun LogCall :=
  ⟨fun r => Constructed host r ∧ r.file.fp_.isSome, (lts host).step⟩

end LogRun

end Muduox.Base
