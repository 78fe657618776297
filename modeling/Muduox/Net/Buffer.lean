import Mathlib.Algebra.Group.Nat.Defs
import Muduox.Lib.Lts
import Muduox.Lib.Mem

/-!
# `Buffer`: the application-level byte buffer

`muduox/net/tcp/Buffer.h` and `Buffer.cpp`. The vector is the list of its
bytes, the two indices are `size_t`, and every sum and difference the source
computes on them is taken modulo `2 ^ 64` (`addSz`, `subSz`). Ranges handed to
`std::copy`, to `std::string` or to the kernel are checked against the vector:
a range that is not inside it is a `Fault`, and so is a `std::copy` whose
destination starts inside its own source. `vector::resize` throws above
`maxSize`; below it allocation succeeds.

`readFd` is two functions, one a platform. What the kernel returns is an
argument, the bytes it delivered or an error; that it delivers no more than the
space it was offered is the callers' assumption, not the buffer's check.
-/

namespace Muduox.Net

/-- `size_t` addition. -/
def addSz (a b : Nat) : Nat := (a + b) % 2 ^ 64

/-- `size_t` subtraction. -/
def subSz (a b : Nat) : Nat := (2 ^ 64 + a - b) % 2 ^ 64

/-- `std::vector<char>::max_size()`. -/
def maxSize : Nat := 2 ^ 63 - 1

/-- What can go wrong inside a buffer operation. -/
inductive Fault where
  /-- `vector::resize` threw `std::length_error`. -/
  | lengthError
  /-- A range that is not inside `buffer_` was read or written. -/
  | outOfRange
  /-- `std::copy` was given a destination inside its source range. -/
  | overlap
  deriving DecidableEq, Repr

structure Buffer where
  buffer_ : List UInt8
  readIndex_ : Nat
  writeIndex_ : Nat
  deriving DecidableEq, Repr

/-- The outcome of `readv` or `recv`: an error, or the bytes delivered, none of
them meaning end of file. -/
inductive RecvResult where
  | error (savedErrno : Int)
  | bytes (d : List UInt8)
  deriving DecidableEq, Repr

namespace Buffer

def kInitialSize : Nat := 1024
def kPrependSize : Nat := 8

/-- The size of `extrabuf`, and what the Windows `readFd` makes room for. -/
def kExtraSize : Nat := 65536

/-- `Buffer::Buffer()`. -/
def new : Buffer := ⟨List.replicate (kPrependSize + kInitialSize) 0, kPrependSize, kPrependSize⟩

def readableBytes (b : Buffer) : Nat := subSz b.writeIndex_ b.readIndex_

def writableBytes (b : Buffer) : Nat := subSz b.buffer_.length b.writeIndex_

def prependableBytes (b : Buffer) : Nat := b.readIndex_

def empty (b : Buffer) : Bool := b.readableBytes == 0

/-- Reading `len` bytes from `peek()` on. -/
def peek (b : Buffer) (len : Nat) : Except Fault (List UInt8) :=
  match Mem.read b.buffer_ b.readIndex_ (addSz b.readIndex_ len) with
  | some d => .ok d
  | none => .error .outOfRange

def retrieveAll (b : Buffer) : Buffer :=
  { b with readIndex_ := kPrependSize, writeIndex_ := kPrependSize }

def retrieve (b : Buffer) (len : Nat) : Buffer :=
  if len ≥ b.readableBytes then b.retrieveAll
  else { b with readIndex_ := addSz b.readIndex_ len }

def retrieveAsString (b : Buffer) (len : Nat) : Except Fault (Buffer × List UInt8) := do
  let len := min len b.readableBytes
  let result ← b.peek len
  return (b.retrieve len, result)

def retrieveAllAsString (b : Buffer) : Except Fault (Buffer × List UInt8) :=
  b.retrieveAsString b.readableBytes

/-- `std::vector<char>::resize`, which value-initialises what it adds. -/
def resize (m : List UInt8) (n : Nat) : Except Fault (List UInt8) :=
  if n ≤ maxSize then .ok (m.take n ++ List.replicate (n - m.length) 0)
  else .error .lengthError

/-- The test of `makeSpace`: the room before and after the readable bytes
suffices, so they are moved to the front. -/
def compacts (b : Buffer) (len : Nat) : Bool :=
  decide (addSz b.prependableBytes b.writableBytes ≥ addSz len kPrependSize)

/-- `std::copy(begin() + readIndex_, begin() + writeIndex_, begin() + kPrependSize)`. -/
def moveToFront (b : Buffer) : Except Fault (List UInt8) :=
  if b.writeIndex_ < b.readIndex_ then .error .outOfRange
  else if b.readIndex_ ≤ kPrependSize ∧ kPrependSize < b.writeIndex_ then .error .overlap
  else
    match Mem.copyForward b.buffer_ b.readIndex_ kPrependSize
        (b.writeIndex_ - b.readIndex_) with
    | some m => .ok m
    | none => .error .outOfRange

def makeSpace (b : Buffer) (len : Nat) : Except Fault Buffer := do
  if b.compacts len then
    let readable := b.readableBytes
    let m ← b.moveToFront
    return { buffer_ := m, readIndex_ := kPrependSize, writeIndex_ := addSz kPrependSize readable }
  else
    let m ← resize b.buffer_ (addSz b.writeIndex_ len)
    return { b with buffer_ := m }

def ensureWritable (b : Buffer) (len : Nat) : Except Fault Buffer :=
  if b.writableBytes < len then b.makeSpace len else .ok b

/-- Bytes that arrive at `begin() + writeIndex_`, from `std::copy` or from the
kernel; the indices stay. -/
def store (b : Buffer) (d : List UInt8) : Except Fault Buffer :=
  match Mem.write b.buffer_ b.writeIndex_ d with
  | some m => .ok { b with buffer_ := m }
  | none => .error .outOfRange

def append (b : Buffer) (data : List UInt8) : Except Fault Buffer := do
  let b ← b.ensureWritable data.length
  let b ← b.store data
  return { b with writeIndex_ := addSz b.writeIndex_ data.length }

/-- `Buffer::readFd` on Linux: `readv` fills the writable tail of the vector
first and a 64 KiB stack buffer after it. -/
def readFd (b : Buffer) (r : RecvResult) : Except Fault (Buffer × Int) :=
  match r with
  | .error _ => .ok (b, -1)
  | .bytes d => do
      let n := d.length
      let b ← b.store (d.take b.writableBytes)
      if n ≤ b.writableBytes then
        return ({ b with writeIndex_ := addSz b.writeIndex_ n }, n)
      else
        let writable := b.writableBytes
        let b := { b with writeIndex_ := b.buffer_.length }
        let b ← b.append (d.drop writable)
        return (b, n)

/-- `Buffer::readFd` on Windows: no `readv`, so room is made first and `recv`
fills it. -/
def recvFd (b : Buffer) (r : RecvResult) : Except Fault (Buffer × Int) := do
  let b ← b.ensureWritable kExtraSize
  match r with
  | .error _ => return (b, -1)
  | .bytes [] => return (b, 0)
  | .bytes d =>
      let b ← b.store d
      return ({ b with writeIndex_ := addSz b.writeIndex_ d.length }, d.length)

/-- The calls a user of the buffer makes. -/
inductive Op where
  | append (data : List UInt8)
  | retrieve (len : Nat)
  | retrieveAll
  | retrieveAsString (len : Nat)
  | retrieveAllAsString
  | ensureWritable (len : Nat)
  | readFd (r : RecvResult)
  | recvFd (r : RecvResult)
  deriving DecidableEq, Repr

/-- One call: the buffer afterwards and the string it returned, empty where the
call returns none. -/
def exec (b : Buffer) : Op → Except Fault (Buffer × List UInt8)
  | .append data => (b.append data).map fun b => (b, [])
  | .retrieve len => .ok (b.retrieve len, [])
  | .retrieveAll => .ok (b.retrieveAll, [])
  | .retrieveAsString len => b.retrieveAsString len
  | .retrieveAllAsString => b.retrieveAllAsString
  | .ensureWritable len => (b.ensureWritable len).map fun b => (b, [])
  | .readFd r => (b.readFd r).map fun p => (p.1, [])
  | .recvFd r => (b.recvFd r).map fun p => (p.1, [])

/-- A sequence of calls, with the strings they returned. -/
def run (b : Buffer) : List Op → Except Fault (Buffer × List (List UInt8))
  | [] => .ok (b, [])
  | op :: ops => do
      let (b, out) ← b.exec op
      let (b, outs) ← run b ops
      return (b, out :: outs)

/-! ## The state behind an exception -/

/-- `makeSpace` with the buffer it leaves, also where it throws. A `resize` that
throws has not changed the vector. -/
def makeSpaceOn (b : Buffer) (len : Nat) : Except Fault Unit × Buffer :=
  if b.compacts len then
    let readable := b.readableBytes
    match b.moveToFront with
    | .error e => (.error e, b)
    | .ok m =>
        let b := { b with buffer_ := m }
        let b := { b with readIndex_ := kPrependSize }
        (.ok (), { b with writeIndex_ := addSz kPrependSize readable })
  else
    match resize b.buffer_ (addSz b.writeIndex_ len) with
    | .error e => (.error e, b)
    | .ok m => (.ok (), { b with buffer_ := m })

def ensureWritableOn (b : Buffer) (len : Nat) : Except Fault Unit × Buffer :=
  if b.writableBytes < len then b.makeSpaceOn len else (.ok (), b)

/-- The buffer a call leaves when `resize` throws in it. Only `readFd` on Linux
has written before that: what the kernel put into the vector stays. -/
def thrown (b : Buffer) : Op → Buffer
  | .readFd (.bytes d) =>
      match b.store (d.take b.writableBytes) with
      | .ok b => { b with writeIndex_ := b.buffer_.length }
      | .error _ => b
  | _ => b

/-- One call of a user who goes on after a `length_error`. -/
def step (b : Buffer) (op : Op) : Option Buffer :=
  match b.exec op with
  | .ok p => some p.1
  | .error .lengthError => some (b.thrown op)
  | .error .outOfRange | .error .overlap => none

def lts : Lts Buffer Op := ⟨(· = new), step⟩

end Buffer

end Muduox.Net
