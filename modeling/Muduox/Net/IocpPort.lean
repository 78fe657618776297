import Mathlib.Data.Fintype.Defs
import Muduox.Lib.Lts
import Muduox.Net.IocpPoller

/-!
# A completion port in memory

`IocpPoller.cpp` with the addresses it works on. The kernel hands back the
address of an `OVERLAPPED`; `contextFromOverlapped` guesses that it is a
`readOl`, steps back to where the context would begin and tests for `kMagic`,
and if that fails guesses that it is a `writeOl`. The first guess about a
`writeOl` reads four bytes in the middle of the context.

Here `poll` goes one packet at a time, for any number of packets, and the memory
is whatever it is outside the contexts. `operator new` gives any block that no
context occupies; contexts are deleted by the destructor alone. What `select`
adds to the active channels is no completion's, and is left out.
-/

namespace Muduox.Net

/-- `IocpContext::kMagic`. -/
def kMagic : Nat := 0x494F4350

abbrev Memory := Nat → UInt8

/-- The four bytes at `a` as a `uint32_t`. -/
def Memory.uint32 (mem : Memory) (a : Nat) : Nat :=
  (mem a).toNat + 256 * ((mem (a + 1)).toNat + 256 * ((mem (a + 2)).toNat + 256 * (mem (a + 3)).toNat))

/-- Where a compiler puts the members of `IocpContext`; `magic` is the first. -/
structure ContextLayout where
  readOl : Nat
  readPending : Nat
  writeOl : Nat
  size : Nat
  /-- `readPending` is as far from the beginning as the two `OVERLAPPED` are
  apart. -/
  apart : writeOl = readOl + readPending
  nonempty : 0 < size

namespace ContextLayout

/-- An `OVERLAPPED` of 32 bytes and a `WSABUF` of 16. -/
def x64 : ContextLayout := ⟨8, 64, 72, 144, rfl, by decide⟩

/-- The address of one of the two operations of the context at `ctx`. -/
def overlapped (L : ContextLayout) (ctx : Nat) (isRead : Bool) : Nat :=
  if isRead then ctx + L.readOl else ctx + L.writeOl

/-- The address of the context, and `outIsRead`. -/
def contextFromOverlapped (L : ContextLayout) (mem : Memory) (ol : Nat) : Option (Nat × Bool) :=
  if mem.uint32 (ol - L.readOl) = kMagic ∧ ol - L.readOl + L.readOl = ol then
    some (ol - L.readOl, true)
  else if mem.uint32 (ol - L.writeOl) = kMagic ∧ ol - L.writeOl + L.writeOl = ol then
    some (ol - L.writeOl, false)
  else none

end ContextLayout

/-- A poller, its channels by their addresses, and its contexts by theirs. -/
structure IocpPort (K : Type) where
  poller : IocpPoller K := {}
  channel : K → Channel
  /-- The addresses of the contexts. -/
  address : Nat → Nat := fun _ => 0
  freed : List Nat := []
  /-- `~IocpPoller` has run. -/
  destroyed : Bool := false
  /-- `poll` while it takes packets. -/
  round : Option (IocpRound K) := none
  /-- The packets of this round for which a channel was found: the context their
  operation was posted through, and the channel. -/
  completions : List (Nat × K) := []
  /-- What `poll` has just pushed onto `activeChannels` from `channelRevents`. -/
  completed : List K := []

/-- The calls of the poller, a call of `poll` in several steps. -/
inductive PortCall (K : Type) where
  /-- `updateChannel`, with what `channel` is by now; a new context would be at
  `a`. -/
  | update (k : K) (x : Channel) (bound acceptConn : Bool) (a : Nat)
  | remove (k : K)
  | poll (e : IocpChoice K)
  /-- The packet of an operation of context `i`, found in memory `mem`. -/
  | packet (i : Nat) (isRead ok posted : Bool) (mem : Memory)
  | polled (order : List K)
  | destroy

namespace IocpPort

variable {K : Type} [DecidableEq K]

omit [DecidableEq K] in
/-- What memory shows of the contexts. -/
def Laid (L : ContextLayout) (s : IocpPort K) (mem : Memory) : Prop :=
  ∀ i < s.poller.allocated, i ∉ s.freed → mem.uint32 (s.address i) = kMagic ∧
    mem (s.address i + L.readPending) = if (s.poller.contexts i).read.pending then 1 else 0

omit [DecidableEq K] in
/-- A block that `operator new` may give out. -/
def Free (L : ContextLayout) (s : IocpPort K) (a : Nat) : Prop :=
  ∀ i < s.poller.allocated, i ∉ s.freed → s.address i + L.size ≤ a ∨ a + L.size ≤ s.address i

omit [DecidableEq K] in
/-- The operation of context `i` that a packet is of. -/
def operation (s : IocpPort K) (i : Nat) (isRead : Bool) : Operation :=
  if isRead then (s.poller.contexts i).read else (s.poller.contexts i).write

omit [DecidableEq K] in
/-- The context at address `a`. -/
def contextAt (s : IocpPort K) (a : Nat) : Option Nat :=
  (List.range s.poller.allocated).find? fun i => s.address i == a

instance (L : ContextLayout) (s : IocpPort K) (mem : Memory) : Decidable (s.Laid L mem) := by
  unfold Laid
  infer_instance

instance (L : ContextLayout) (s : IocpPort K) (a : Nat) : Decidable (s.Free L a) := by
  unfold Free
  infer_instance

/-- The body of the second loop, for a packet of context `i`. -/
def takePacket (L : ContextLayout) (s : IocpPort K) (r : IocpRound K) (i : Nat)
    (isRead ok posted : Bool) (mem : Memory) : Option (IocpPort K) :=
  match L.contextFromOverlapped mem (L.overlapped (s.address i) isRead) with
  | none => some s
  | some (a, isRead) => do
      let j ← s.contextAt a
      let r ← r.complete s.channel ⟨j, isRead, ok, posted⟩
      some
        { s with
          poller := r.poller
          round := some r
          completions := s.completions ++ ((s.poller.contexts j).channel.map (i, ·)).toList }

def step (L : ContextLayout) (s : IocpPort K) : PortCall K → Option (IocpPort K)
  | .update k x bound acceptConn a =>
      if s.destroyed || s.round.isSome || !decide (s.Free L a) then none
      else
        (s.poller.updateChannel k x bound acceptConn).map fun p =>
          { s with
            poller := p
            channel := Function.update s.channel k x
            address := Function.update s.address s.poller.allocated a
            completions := []
            completed := [] }
  | .remove k =>
      if s.destroyed || s.round.isSome then none
      else
        (s.poller.removeChannel k (s.channel k)).map fun p =>
          { s with poller := p, completions := [], completed := [] }
  | .poll e =>
      if s.destroyed || s.round.isSome then none
      else
        (s.poller.retryPosts s.channel e).map fun p =>
          { s with poller := p, round := some { poller := p }, completions := [], completed := [] }
  | .packet i isRead ok posted mem =>
      match s.round with
      | none => none
      | some r =>
          if 0 < (s.operation i isRead).outstanding ∧ s.Laid L mem then
            s.takePacket L r i isRead ok posted mem
          else none
  | .polled order =>
      match s.round with
      | none => none
      | some r => if order.Perm r.found then some { s with round := none, completed := order } else none
  | .destroy =>
      if s.destroyed || s.round.isSome then none
      else some { s with destroyed := true, freed := s.poller.deadContexts_ }

/-- The runs over channels of which none is registered. -/
def lts (L : ContextLayout) (K : Type) [DecidableEq K] : Lts (IocpPort K) (PortCall K) where
  init s := ∃ channel, s = { channel := channel }
  step := step L

end IocpPort

end Muduox.Net
