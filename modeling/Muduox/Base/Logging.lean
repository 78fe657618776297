import Muduox.Base.AsyncLogging

/-!
# `Logger`

`muduox/base/logging/Logging.h` and `Logging.cpp`: a log record from its
constructor to its destructor, and the `TimeCache` that the records of a thread
share. Texts are bytes, C strings without the zero that ends them.

What the environment decides is an argument: the local time of a second, the
thread's id, what `std::vformat` returns, and where the clock stands when
`formatPrefix` asks it, once through `std::time` and once through
`system_clock::now`, in nanoseconds since the epoch. A `vformat` that throws makes
no record, and the macros only decide whether there is one; neither is modelled.
-/

namespace Muduox.Base

/-- The bytes of an ASCII text of the source. -/
def ascii (s : String) : List UInt8 := s.toList.map fun c => c.toNat.toUInt8

/-- An integer filled up with zeros, `{:06d}` and `%04d`: the sign counts. -/
def zeroPadded (width : Nat) (n : Int) : List UInt8 :=
  let sign := if n < 0 then ascii "-" else []
  let digits := ascii (toString n.natAbs)
  sign ++ List.replicate (width - sign.length - digits.length) 48 ++ digits

/-- `std::time`: the seconds of a clock that stands at `ns`. -/
def seconds (ns : Int) : Int := ns / 1000000000

/-- The microseconds that are printed: `duration_cast<microseconds>`, and the
remainder of its count by `1000000`. Both truncate. -/
def micros (ns : Int) : Int := (ns.tdiv 1000).tmod 1000000

/-- The fields of a `struct tm` that are printed. -/
structure Tm where
  tm_year : Int
  tm_mon : Int
  tm_mday : Int
  tm_hour : Int
  tm_min : Int
  tm_sec : Int
  deriving DecidableEq, Repr

/-- The thread that logs: `localtime_r`, and `std::hash` of its id. -/
structure LogHost where
  localtime : Int → Tm
  tid : Nat

/-- `std::source_location`. -/
structure SourceLocation where
  file_name : List UInt8
  line : Nat
  deriving DecidableEq, Repr

inductive LogLevel where
  | TRACE
  | DEBUG
  | INFO
  | WARN
  | ERROR
  | FATAL
  deriving DecidableEq, Repr

/-- `Logger::TimeCache`, one a thread. -/
structure TimeCache where
  t_ : Int := 0
  data_ : List UInt8 := []
  deriving DecidableEq, Repr

def TimeCache.kLen : Nat := 24

/-- `update`, where `std::time` returns `now`; `snprintf` writes no more than
`kLen` bytes. -/
def TimeCache.update (tc : TimeCache) (host : LogHost) (now : Int) : TimeCache :=
  if now ≠ tc.t_ then
    let tm_time := host.localtime now
    { t_ := now
      data_ := (zeroPadded 4 (tm_time.tm_year + 1900) ++ zeroPadded 2 (tm_time.tm_mon + 1) ++
        zeroPadded 2 tm_time.tm_mday ++ ascii " " ++ zeroPadded 2 tm_time.tm_hour ++
        ascii ":" ++ zeroPadded 2 tm_time.tm_min ++ ascii ":" ++
        zeroPadded 2 tm_time.tm_sec).take kLen }
  else tc

/-- `std::strrchr`: where `c` is in `s` for the last time. -/
def strrchr (s : List UInt8) (c : UInt8) : Option Nat :=
  (s.reverse.findIdx? (· == c)).map fun i => s.length - 1 - i

/-- The file's name without its directories, after a slash or a backslash. -/
def SourceLocation.fname (loc : SourceLocation) : List UInt8 :=
  let slash := strrchr loc.file_name 47
  let bslash := strrchr loc.file_name 92
  let fname := match slash with
    | some i => loc.file_name.drop (i + 1)
    | none => loc.file_name
  match bslash with
  | some j => if slash.all (· < j) then loc.file_name.drop (j + 1) else fname
  | none => fname

def Logger.kBufferSize : Nat := 4000

structure Logger where
  buffer_ : FixedBuffer Logger.kBufferSize := .new
  level_ : LogLevel

namespace Logger

def kLevelNames : LogLevel → List UInt8
  | .TRACE => ascii "TRACE"
  | .DEBUG => ascii "DEBUG"
  | .INFO => ascii "INFO "
  | .WARN => ascii "WARN "
  | .ERROR => ascii "ERROR"
  | .FATAL => ascii "FATAL"

/-- What `formatMessage` is called with: the format alone, which may be null, or
with arguments, for which `std::vformat` has its result. -/
inductive Message where
  | plain (fmt : Option (List UInt8))
  | formatted (msg : List UInt8)
  deriving DecidableEq, Repr

/-- A record to be made, and where the clock stands when it is read: in
`std::time` and in `system_clock::now`. -/
structure Entry where
  level : LogLevel
  loc : SourceLocation
  message : Message
  time : Int
  now : Int
  deriving DecidableEq, Repr

/-- The result of `std::format` in `formatPrefix`. -/
def prefixText (host : LogHost) (tc : TimeCache) (e : Entry) : List UInt8 :=
  tc.data_ ++ ascii " " ++ zeroPadded 6 (micros e.now) ++ ascii " " ++
    ascii (toString host.tid) ++ ascii " " ++ kLevelNames e.level ++ ascii " " ++
    e.loc.fname ++ ascii ":" ++ ascii (toString e.loc.line) ++ ascii " - "

def formatPrefix (l : Logger) (host : LogHost) (tc : TimeCache) (e : Entry) :
    Logger × TimeCache :=
  let tc := tc.update host (seconds e.time)
  ({ l with buffer_ := l.buffer_.append (prefixText host tc e) }, tc)

def formatMessage (l : Logger) : Message → Logger
  | .plain (some (c :: fmt)) => { l with buffer_ := l.buffer_.append (c :: fmt) }
  | .plain _ => l
  | .formatted msg => { l with buffer_ := l.buffer_.append msg }

/-- The constructor up to its last statement. -/
def fill (host : LogHost) (tc : TimeCache) (e : Entry) : Logger × TimeCache :=
  let l : Logger := { level_ := e.level }
  let (l, tc) := l.formatPrefix host tc e
  (l.formatMessage e.message, tc)

/-- `Logger::Logger`. -/
def construct (host : LogHost) (tc : TimeCache) (e : Entry) : Logger × TimeCache :=
  let (l, tc) := fill host tc e
  ({ l with buffer_ := l.buffer_.append (ascii "\n") }, tc)

/-- What the destructor does: the calls of `g_output` and `g_flush`, and
`std::abort`. -/
inductive Effect where
  | output (msg : List UInt8)
  | flush
  | abort
  deriving DecidableEq, Repr

/-- `Logger::~Logger`. -/
def destroy (l : Logger) : List Effect :=
  .output l.buffer_.data :: if l.level_ = .FATAL then [.flush, .abort] else []

end Logger

/-- A thread that logs. -/
structure LogThread where
  timeCache : TimeCache := {}
  /-- The last reading of the clock. -/
  clock : Int
  /-- The times printed: the second in the cache and the microsecond. -/
  stamps : List (Int × Int) := []
  effects : List Logger.Effect := []

namespace LogThread

/-- One record. The clock does not go back between two readings. -/
def step (host : LogHost) (s : LogThread) (e : Logger.Entry) : Option LogThread :=
  if .abort ∉ s.effects ∧ s.clock ≤ e.time ∧ e.time ≤ e.now then
    let (l, tc) := Logger.construct host s.timeCache e
    some
      { timeCache := tc
        clock := e.now
        stamps := s.stamps ++ [(tc.t_, micros e.now)]
        effects := s.effects ++ l.destroy }
  else none

/-- The records of a thread, from whenever it begins to log. -/
def lts (host : LogHost) : Lts LogThread Logger.Entry where
  init s := s.timeCache = {} ∧ s.stamps = [] ∧ s.effects = []
  step := step host

end LogThread

end Muduox.Base
