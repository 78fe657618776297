import Muduox.Base.AsyncLogging
import Muduox.Base.LogFile

/-!
# `AsyncLogging` with its `LogFile`

`AsyncLogging` takes the bytes it passes on for a list; here they go where
`threadFunc` sends them. Its local `output` is constructed before the loop,
gets one `append` for each buffer that is not empty, one `flush` at the end, and
is destroyed with the frame of the function. What the file's calls meet is part
of the label of a step of the background thread; the steps of the others carry
it for nothing.
-/

namespace Muduox.Base

/-- The members of `AsyncLogging` that its constructor fixes. -/
structure LogConfig where
  basename_ : String
  rollSize_ : Int
  flushInterval_ : Int

/-- The default of `LogFile`'s `checkEveryN`. -/
def kCheckEveryN : Int := 1024

structure LogPipeline where
  log : AsyncLogging := {}
  /-- `threadFunc`'s local, from its constructor on. -/
  output : Option LogRun := none

namespace LogPipeline

variable (host : Host) (cfg : LogConfig)

/-- What the next piece of `threadFunc` calls on `output`. -/
def call (s : AsyncLogging) (o : Outcome) : Option LogCall :=
  match s.pc with
  | .writing | .draining =>
      (s.buffersToWrite[s.written]?).bind fun buf =>
        if buf.length > 0 then some (.append buf.data o) else none
  | .flush => some (.flush o.now)
  | _ => none

/-- `~LogFile()`. -/
def closeOutput (r : LogRun) (now : Int) : LogRun := { r with file := r.file.close now }

/-- What the next piece of `threadFunc` does to `output`. -/
def write (s : AsyncLogging) (o : Outcome) (output : Option LogRun) : Option LogRun :=
  let output := match call s o with
    | none => output
    | some c => output.map (·.call host c)
  if s.pc = .flush then output.map (closeOutput · o.now) else output

def step (p : LogPipeline) : AsyncLogging.Step × Outcome → Option LogPipeline
  | (.background, o) =>
      p.log.background.bind fun log =>
        if log.pc = .undefined then some { p with log }
        else if p.log.pc = .begin then
          (LogFile.new host cfg.basename_ cfg.rollSize_ cfg.flushInterval_ kCheckEveryN o.now
            o.opens).map fun file => { log, output := some { file, clock := o.now } }
        else some { log, output := write host p.log o p.output }
  | (a, _) => (p.log.step a).map fun log => { p with log }

/-- The runs of a logger that was just constructed, down to the files. -/
def lts : Lts LogPipeline (AsyncLogging.Step × Outcome) := ⟨(· = {}), step host cfg⟩

/-- The files opened so far, in their order. -/
def files (p : LogPipeline) : List FILE := p.output.toList.flatMap fun r => r.file.streams

end LogPipeline

end Muduox.Base
