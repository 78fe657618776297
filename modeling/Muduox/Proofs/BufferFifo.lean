import Muduox.Lib.Fifo
import Muduox.Net.Buffer

/-!
# The buffer is a byte queue

`Buffer` keeps its unread bytes in the window between two indices of a vector
that is compacted, grown and reset under them. This file proves that none of
that is visible: a call does to the window what the corresponding queue
operation does to a list of bytes, and never reads or writes outside the
vector.

The invariant is `Buffer.Wf`, the chain `kPrependSize ≤ readIndex_ ≤
writeIndex_ ≤ buffer_.size()` together with the vector's own size limit. It is
what makes the `size_t` arithmetic harmless: under it every difference is exact,
and a sum `writeIndex_ + len` that does not wrap bounds every other sum the
call computes (`NoWrap`).

`makeSpace` is the one interesting operation. It is only called when the tail
is too small for the request, so its test can succeed only if the prependable
area is strictly longer than `kPrependSize` (`compacts_lt`): the copy goes
strictly downwards, where the forward loop is faithful.
-/

namespace Muduox.Net

theorem addSz_eq {a b : Nat} (h : a + b < 2 ^ 64) : addSz a b = a + b := Nat.mod_eq_of_lt h

theorem subSz_eq {a b : Nat} (hle : b ≤ a) (ha : a < 2 ^ 64) : subSz a b = a - b := by
  unfold subSz
  omega

namespace Buffer

/-- The bytes that were stored and not yet retrieved. -/
def readable (b : Buffer) : List UInt8 := Mem.window b.buffer_ b.readIndex_ b.writeIndex_

/-- The order of the indices, and the limit every vector obeys. -/
structure Wf (b : Buffer) : Prop where
  prepend_le : kPrependSize ≤ b.readIndex_
  read_le : b.readIndex_ ≤ b.writeIndex_
  write_le : b.writeIndex_ ≤ b.buffer_.length
  size_le : b.buffer_.length ≤ maxSize

/-- No `size_t` sum of a request for `len` bytes wraps. -/
def NoWrap (b : Buffer) (len : Nat) : Prop := b.writeIndex_ + len < 2 ^ 64

theorem Wf.size_lt {b : Buffer} (h : b.Wf) : b.buffer_.length < 2 ^ 64 := by
  have := h.size_le
  unfold maxSize at this
  omega

theorem Wf.readableBytes_eq {b : Buffer} (h : b.Wf) :
    b.readableBytes = b.writeIndex_ - b.readIndex_ :=
  subSz_eq h.read_le (Nat.lt_of_le_of_lt h.write_le h.size_lt)

theorem Wf.writableBytes_eq {b : Buffer} (h : b.Wf) :
    b.writableBytes = b.buffer_.length - b.writeIndex_ :=
  subSz_eq h.write_le h.size_lt

theorem Wf.readable_length {b : Buffer} (h : b.Wf) :
    b.readable.length = b.readableBytes := by
  rw [readable, Mem.window_length _ h.write_le, h.readableBytes_eq]

theorem Wf.empty_iff {b : Buffer} (h : b.Wf) : b.empty = true ↔ b.readable = [] := by
  rw [empty, beq_iff_eq, ← h.readable_length, List.length_eq_zero_iff]

theorem new_wf : new.Wf := by
  refine ⟨Nat.le_refl _, Nat.le_refl _, ?_, ?_⟩
  · simp only [new, List.length_replicate]
    omega
  · simp only [new, List.length_replicate]
    decide

@[simp] theorem new_readable : new.readable = [] := Mem.window_self _ _

/-! ## Taking bytes out -/

theorem retrieveAll_wf {b : Buffer} (h : b.Wf) : b.retrieveAll.Wf := by
  have h1 := h.prepend_le
  have h2 := h.read_le
  have h3 := h.write_le
  exact ⟨Nat.le_refl _, Nat.le_refl _, by simp only [retrieveAll]; omega, h.size_le⟩

@[simp] theorem retrieveAll_readable (b : Buffer) : b.retrieveAll.readable = [] :=
  Mem.window_self _ _

theorem retrieve_wf {b : Buffer} (h : b.Wf) (len : Nat) : (b.retrieve len).Wf := by
  unfold retrieve
  split
  · exact retrieveAll_wf h
  · next hlt =>
      have hb := h.readableBytes_eq
      have h1 := h.prepend_le
      have h2 := h.read_le
      have h3 := h.write_le
      have h4 := h.size_lt
      have hadd : addSz b.readIndex_ len = b.readIndex_ + len := addSz_eq (by omega)
      exact ⟨by simp only [hadd]; omega, by simp only [hadd]; omega, h3, h.size_le⟩

/-- `retrieve` drops bytes at the front, `retrieveAll`'s reset being what is
left of a window that lost everything. -/
theorem retrieve_readable {b : Buffer} (h : b.Wf) (len : Nat) :
    (b.retrieve len).readable = b.readable.drop len := by
  unfold retrieve
  split
  · next hle =>
      rw [retrieveAll_readable, List.drop_of_length_le (by rw [h.readable_length]; exact hle)]
  · next hlt =>
      have hb := h.readableBytes_eq
      have h3 := h.write_le
      have h4 := h.size_lt
      have hadd : addSz b.readIndex_ len = b.readIndex_ + len := addSz_eq (by omega)
      rw [readable, readable, Mem.window_drop, hadd]

theorem peek_ok {b : Buffer} (h : b.Wf) {len : Nat} (hle : len ≤ b.readableBytes) :
    b.peek len = .ok (b.readable.take len) := by
  have hb := h.readableBytes_eq
  have h2 := h.read_le
  have h3 := h.write_le
  have h4 := h.size_lt
  have hadd : addSz b.readIndex_ len = b.readIndex_ + len := addSz_eq (by omega)
  rw [peek, hadd, Mem.read_eq (by omega) (by omega), readable, Mem.window_take (by omega)]

theorem retrieveAsString_ok {b : Buffer} (h : b.Wf) (len : Nat) :
    ∃ b', b.retrieveAsString len = .ok (b', (Fifo.pop b.readable len).1) ∧ b'.Wf ∧
      b'.readable = (Fifo.pop b.readable len).2 := by
  have hlen := h.readable_length
  refine ⟨b.retrieve (min len b.readableBytes), ?_, retrieve_wf h _, ?_⟩
  · rw [retrieveAsString, peek_ok h (Nat.min_le_right _ _), ← hlen, ← List.take_eq_take_min]
    rfl
  · rw [retrieve_readable h, ← hlen, ← List.drop_eq_drop_min]
    rfl

/-! ## Making room -/

/-- A request the tail cannot hold passes the compaction test only when the
prependable area is strictly longer than `kPrependSize`, and then the two areas
together hold it. -/
theorem compacts_lt {b : Buffer} (h : b.Wf) {len : Nat} (hw : b.NoWrap len)
    (hfull : b.writableBytes < len) (hc : b.compacts len = true) :
    kPrependSize < b.readIndex_ ∧
      kPrependSize + (b.writeIndex_ - b.readIndex_) + len ≤ b.buffer_.length := by
  have hwr := h.writableBytes_eq
  have h1 := h.prepend_le
  have h2 := h.read_le
  have h3 := h.write_le
  have h4 := h.size_lt
  unfold NoWrap at hw
  rw [compacts, decide_eq_true_iff, prependableBytes, addSz_eq (by omega),
    addSz_eq (by omega)] at hc
  omega

theorem moveToFront_ok {b : Buffer} (h : b.Wf) (hlt : kPrependSize < b.readIndex_) :
    ∃ m, b.moveToFront = .ok m ∧ m.length = b.buffer_.length ∧
      Mem.window m kPrependSize (kPrependSize + (b.writeIndex_ - b.readIndex_)) =
        b.readable := by
  have h2 := h.read_le
  have h3 := h.write_le
  have hsrc : b.readIndex_ + (b.writeIndex_ - b.readIndex_) = b.writeIndex_ := by omega
  have hcopy := Mem.copyForward_eq (m := b.buffer_) (Nat.le_of_lt hlt)
    (by rw [hsrc]; exact h3 : b.readIndex_ + (b.writeIndex_ - b.readIndex_) ≤ _)
  refine ⟨_, ?_, Mem.copyForward_length (Nat.le_of_lt hlt) (by omega) hcopy, ?_⟩
  · rw [moveToFront, if_neg (by omega), if_neg (by omega), hcopy]
  · rw [Mem.copyForward_window (Nat.le_of_lt hlt) (by omega) hcopy, hsrc, readable]

theorem makeSpace_compact {b : Buffer} (h : b.Wf) {len : Nat} (hw : b.NoWrap len)
    (hfull : b.writableBytes < len) (hc : b.compacts len = true) :
    ∃ b', b.makeSpace len = .ok b' ∧ b'.Wf ∧ b'.readable = b.readable ∧
      len ≤ b'.writableBytes := by
  have h3 := h.write_le
  have h4 := h.size_lt
  obtain ⟨hlt, hroom⟩ := compacts_lt h hw hfull hc
  obtain ⟨m, hm, hlen, hwin⟩ := moveToFront_ok h hlt
  have hadd : addSz kPrependSize b.readableBytes =
      kPrependSize + (b.writeIndex_ - b.readIndex_) := by
    rw [h.readableBytes_eq, addSz_eq (by omega)]
  have hwf : Wf ⟨m, kPrependSize, addSz kPrependSize b.readableBytes⟩ :=
    ⟨Nat.le_refl _, by simp only [hadd]; omega, by simp only [hadd, hlen]; omega,
      by simp only [hlen]; exact h.size_le⟩
  refine ⟨_, ?_, hwf, ?_, ?_⟩
  · rw [makeSpace, if_pos hc, hm]
    rfl
  · rw [readable]
    simp only [hadd]
    exact hwin
  · rw [hwf.writableBytes_eq]
    simp only [hadd, hlen]
    omega

theorem resize_ok {m : List UInt8} {n : Nat} (hle : m.length ≤ n) (hmax : n ≤ maxSize) :
    resize m n = .ok (m ++ List.replicate (n - m.length) 0) := by
  rw [resize, if_pos hmax, List.take_of_length_le hle]

theorem makeSpace_grow {b : Buffer} (h : b.Wf) {len : Nat} (hw : b.NoWrap len)
    (hfull : b.writableBytes < len) (hc : ¬ b.compacts len = true) :
    b.makeSpace len = .error .lengthError ∨
      ∃ b', b.makeSpace len = .ok b' ∧ b'.Wf ∧ b'.readable = b.readable ∧
        len ≤ b'.writableBytes := by
  have hwr := h.writableBytes_eq
  have h3 := h.write_le
  rw [makeSpace, if_neg hc, addSz_eq hw]
  by_cases hmax : b.writeIndex_ + len ≤ maxSize
  · right
    have hlen : (b.buffer_ ++ List.replicate (b.writeIndex_ + len - b.buffer_.length)
        (0 : UInt8)).length = b.writeIndex_ + len := by
      rw [List.length_append, List.length_replicate]
      omega
    have hwin := Mem.window_append_left
      (List.replicate (b.writeIndex_ + len - b.buffer_.length) (0 : UInt8)) b.readIndex_ h3
    rw [resize_ok (by omega) hmax]
    generalize b.buffer_ ++ List.replicate (b.writeIndex_ + len - b.buffer_.length) 0 = m
      at hlen hwin ⊢
    refine ⟨{ b with buffer_ := m }, rfl, ⟨h.prepend_le, h.read_le, ?_, ?_⟩, ?_, ?_⟩
    · show b.writeIndex_ ≤ m.length
      omega
    · show m.length ≤ maxSize
      omega
    · exact hwin
    · show len ≤ subSz m.length b.writeIndex_
      rw [hlen, subSz_eq (by omega) hw]
      omega
  · left
    rw [resize, if_neg hmax]
    rfl

/-- What `ensureWritable` promises: it throws `length_error`, or the request
fits and the unread bytes are the same. -/
theorem ensureWritable_spec {b : Buffer} (h : b.Wf) {len : Nat} (hw : b.NoWrap len) :
    b.ensureWritable len = .error .lengthError ∨
      ∃ b', b.ensureWritable len = .ok b' ∧ b'.Wf ∧ b'.readable = b.readable ∧
        len ≤ b'.writableBytes := by
  unfold ensureWritable
  split
  · next hfull =>
      by_cases hc : b.compacts len = true
      · exact .inr (makeSpace_compact h hw hfull hc)
      · exact makeSpace_grow h hw hfull hc
  · next hroom => exact .inr ⟨b, rfl, h, rfl, by omega⟩

/-- `vector::resize` would throw for `len` more bytes: neither the tail nor a
move to the front has the room, and the vector cannot grow that far. -/
def Refuses (b : Buffer) (len : Nat) : Prop :=
  b.writableBytes < len ∧ b.compacts len = false ∧ maxSize < b.writeIndex_ + len

theorem ensureWritable_error_iff {b : Buffer} (h : b.Wf) {len : Nat} (hw : b.NoWrap len) :
    b.ensureWritable len = .error .lengthError ↔ b.Refuses len := by
  unfold ensureWritable Refuses
  split
  · next hfull =>
      by_cases hc : b.compacts len = true
      · obtain ⟨b', he, -⟩ := makeSpace_compact h hw hfull hc
        simp [he, hc]
      · rw [makeSpace, if_neg hc, addSz_eq hw, resize]
        split
        · next hmax => simp [bind, Except.bind, pure, Except.pure, Nat.not_lt.mpr hmax]
        · next hmax => simp [bind, Except.bind, hfull, hc, Nat.not_le.mp hmax]
  · next hroom => simp [hroom]

/-! ## Putting bytes in -/

/-- Storing bytes that fit and moving `writeIndex_` past them. -/
theorem store_spec {b : Buffer} (h : b.Wf) {d : List UInt8}
    (hfit : d.length ≤ b.writableBytes) :
    ∃ b₁, b.store d = .ok b₁ ∧ b₁.writableBytes = b.writableBytes ∧
      b₁.buffer_.length = b.buffer_.length ∧ b₁.writeIndex_ = b.writeIndex_ ∧
      Wf { b₁ with writeIndex_ := addSz b₁.writeIndex_ d.length } ∧
      readable { b₁ with writeIndex_ := addSz b₁.writeIndex_ d.length } =
        b.readable ++ d := by
  have hwr := h.writableBytes_eq
  have h2 := h.read_le
  have h3 := h.write_le
  have h4 := h.size_lt
  obtain ⟨m, hm⟩ : ∃ m, Mem.write b.buffer_ b.writeIndex_ d = some m :=
    ⟨_, Mem.write_eq (by omega)⟩
  have hlen := Mem.write_length hm
  have hadd : addSz b.writeIndex_ d.length = b.writeIndex_ + d.length := addSz_eq (by omega)
  refine ⟨{ b with buffer_ := m }, by rw [store, hm], ?_, hlen, rfl,
    ⟨h.prepend_le, ?_, ?_, ?_⟩, ?_⟩
  · rw [writableBytes, hlen, writableBytes]
  · show b.readIndex_ ≤ addSz b.writeIndex_ d.length
    omega
  · show addSz b.writeIndex_ d.length ≤ m.length
    omega
  · show m.length ≤ maxSize
    rw [hlen]
    exact h.size_le
  · show Mem.window m b.readIndex_ (addSz b.writeIndex_ d.length) = b.readable ++ d
    rw [hadd]
    exact Mem.write_window h2 hm

theorem append_spec {b : Buffer} (h : b.Wf) {d : List UInt8} (hw : b.NoWrap d.length) :
    b.append d = .error .lengthError ∨
      ∃ b', b.append d = .ok b' ∧ b'.Wf ∧ b'.readable = b.readable ++ d := by
  rcases ensureWritable_spec h hw with he | ⟨b₁, he, hwf, hrd, hroom⟩
  · left
    rw [append, he]
    rfl
  · obtain ⟨b₂, hs, _, _, _, hwf₂, hrd₂⟩ := store_spec hwf hroom
    right
    refine ⟨{ b₂ with writeIndex_ := addSz b₂.writeIndex_ d.length }, ?_, hwf₂, ?_⟩
    · rw [append, he]
      simp only [Except.bind, bind, hs]
      rfl
    · rw [hrd₂, hrd]

/-- When an `append` throws. -/
theorem append_error_iff {b : Buffer} (h : b.Wf) {d : List UInt8} (hw : b.NoWrap d.length) :
    b.append d = .error .lengthError ↔ b.Refuses d.length := by
  rw [← ensureWritable_error_iff h hw]
  rcases ensureWritable_spec h hw with he | ⟨b₁, he, hwf, -, hroom⟩
  · simp [append, he, bind, Except.bind]
  · obtain ⟨b₂, hs, -⟩ := store_spec hwf hroom
    simp [append, he, hs, bind, Except.bind, pure, Except.pure]

/-! ## Reading from a socket

On Linux what the kernel delivers is split at the end of the vector: the head
is already in place when `readv` returns, the tail is appended from the stack
buffer, by a call that finds no room at all and so compacts or grows. -/

/-- The bytes a read delivered. -/
def delivered : RecvResult → List UInt8
  | .error _ => []
  | .bytes d => d

/-- What the system call returned. -/
def returned : RecvResult → Int
  | .error _ => -1
  | .bytes d => d.length

theorem readFd_spec {b : Buffer} (h : b.Wf) {r : RecvResult}
    (hw : b.NoWrap (delivered r).length) :
    b.readFd r = .error .lengthError ∨
      ∃ p, b.readFd r = .ok p ∧ p.1.Wf ∧ p.1.readable = b.readable ++ delivered r ∧
        p.2 = returned r := by
  cases r with
  | error e => exact .inr ⟨_, rfl, h, (List.append_nil _).symm, rfl⟩
  | bytes d =>
      have hhead : (d.take b.writableBytes).length ≤ b.writableBytes := List.length_take_le _ _
      obtain ⟨b₁, hs, hroom, hlen, hwi, hwf, hrd⟩ := store_spec h hhead
      simp only [readFd, hs, bind, Except.bind, hroom]
      split
      · next hle =>
          rw [List.take_of_length_le hle] at hwf hrd
          exact .inr ⟨_, rfl, hwf, hrd, rfl⟩
      · next hgt =>
          -- The head filled the vector: `writeIndex_ = buffer_.size()` is the
          -- index after it.
          have hwr := h.writableBytes_eq
          have h3 := h.write_le
          have h4 := h.size_lt
          have htk : (d.take b.writableBytes).length = b.writableBytes := by
            rw [List.length_take]; omega
          have hend : addSz b₁.writeIndex_ (d.take b.writableBytes).length =
              b₁.buffer_.length := by
            rw [htk, hwi, addSz_eq (by omega)]
            omega
          rw [hend] at hwf hrd
          have hw₂ : NoWrap { b₁ with writeIndex_ := b₁.buffer_.length }
              (d.drop b.writableBytes).length := by
            show b₁.buffer_.length + (d.drop b.writableBytes).length < 2 ^ 64
            have hn : b.writeIndex_ + d.length < 2 ^ 64 := hw
            rw [List.length_drop, hlen]
            omega
          rcases append_spec hwf hw₂ with he | ⟨b₂, he, hwf₂, hrd₂⟩
          · left
            rw [he]
          · right
            refine ⟨(b₂, d.length), by rw [he]; rfl, hwf₂, ?_, rfl⟩
            show b₂.readable = b.readable ++ d
            rw [hrd₂, hrd, List.append_assoc, List.take_append_drop]

/-- What the Windows kernel was offered: the writable tail after room was made. -/
def offered (b : Buffer) : Nat :=
  match b.ensureWritable kExtraSize with
  | .ok b => b.writableBytes
  | .error _ => 0

theorem recvFd_spec {b : Buffer} (h : b.Wf) {r : RecvResult} (hw : b.NoWrap kExtraSize)
    (hoff : (delivered r).length ≤ b.offered) :
    b.recvFd r = .error .lengthError ∨
      ∃ p, b.recvFd r = .ok p ∧ p.1.Wf ∧ p.1.readable = b.readable ++ delivered r ∧
        p.2 = returned r := by
  rcases ensureWritable_spec h hw with he | ⟨b₁, he, hwf, hrd, _⟩
  · left
    rw [recvFd, he]
    rfl
  · right
    simp only [recvFd, he, bind, Except.bind]
    match r with
    | .error e => exact ⟨_, rfl, hwf, by rw [hrd]; exact (List.append_nil _).symm, rfl⟩
    | .bytes [] => exact ⟨_, rfl, hwf, by rw [hrd]; exact (List.append_nil _).symm, rfl⟩
    | .bytes (x :: xs) =>
        rw [offered, he] at hoff
        obtain ⟨b₂, hs, _, _, _, hwf₂, hrd₂⟩ := store_spec hwf hoff
        rw [hrd] at hrd₂
        simp only [delivered] at hs
        simp only [hs]
        exact ⟨_, rfl, hwf₂, hrd₂, rfl⟩

/-! ## The refinement

`Op.spec` is the queue's side of each call: what it leaves and what it
returns. -/

/-- The abstract queue under a call: the queue afterwards, and what came out. -/
def Op.spec (q : List UInt8) : Op → List UInt8 × List UInt8
  | .append data => (Fifo.push q data, [])
  | .retrieve len => ((Fifo.pop q len).2, [])
  | .retrieveAll => ((Fifo.pop q q.length).2, [])
  | .retrieveAsString len => ((Fifo.pop q len).2, (Fifo.pop q len).1)
  | .retrieveAllAsString => ((Fifo.pop q q.length).2, (Fifo.pop q q.length).1)
  | .ensureWritable _ => (q, [])
  | .readFd r => (Fifo.push q (delivered r), [])
  | .recvFd r => (Fifo.push q (delivered r), [])

/-- The abstract queue under a sequence of calls. -/
def specRun (q : List UInt8) : List Op → List UInt8 × List (List UInt8)
  | [] => (q, [])
  | op :: ops =>
      let (q, out) := op.spec q
      let (q, outs) := specRun q ops
      (q, out :: outs)

/-- How many bytes a call makes room for. -/
def Op.request : Op → Nat
  | .append data => data.length
  | .ensureWritable len => len
  | .readFd r => (delivered r).length
  | .recvFd _ => kExtraSize
  | _ => 0

/-- The kernel delivers at most what it was offered. -/
def Op.Offered (b : Buffer) : Op → Prop
  | .readFd r => (delivered r).length ≤ b.writableBytes + kExtraSize
  | .recvFd r => (delivered r).length ≤ b.offered
  | _ => True

instance (b : Buffer) (op : Op) : Decidable (op.Offered b) := by
  cases op <;> unfold Op.Offered <;> infer_instance

/-- Each call of the sequence, in the state it meets, computes no sum that
wraps, and each read delivers what it was offered. -/
def Admissible (b : Buffer) : List Op → Prop
  | [] => True
  | op :: ops =>
      (b.NoWrap op.request ∧ op.Offered b) ∧
        match b.exec op with
        | .ok p => Admissible p.1 ops
        | .error _ => True

instance (b : Buffer) (len : Nat) : Decidable (b.NoWrap len) := Nat.decLt _ _

instance decidableAdmissible : (b : Buffer) → (ops : List Op) → Decidable (b.Admissible ops)
  | _, [] => .isTrue trivial
  | b, op :: ops =>
      match he : b.exec op with
      | .ok p =>
          have := decidableAdmissible p.1 ops
          decidable_of_iff ((b.NoWrap op.request ∧ op.Offered b) ∧ p.1.Admissible ops)
            (by rw [Admissible, he])
      | .error _ =>
          decidable_of_iff (b.NoWrap op.request ∧ op.Offered b) (by simp [Admissible, he])

theorem exec_spec {b : Buffer} (h : b.Wf) {op : Op} (hw : b.NoWrap op.request)
    (hoff : op.Offered b) :
    b.exec op = .error .lengthError ∨
      ∃ p, b.exec op = .ok p ∧ p.1.Wf ∧ op.spec b.readable = (p.1.readable, p.2) := by
  cases op with
  | append data =>
      rcases append_spec h hw with he | ⟨b', he, hwf, hrd⟩
      · exact .inl (by rw [exec, he]; rfl)
      · exact .inr ⟨(b', []), by rw [exec, he]; rfl, hwf, by rw [hrd]; rfl⟩
  | retrieve len =>
      exact .inr ⟨_, rfl, retrieve_wf h len, by rw [retrieve_readable h]; rfl⟩
  | retrieveAll =>
      refine .inr ⟨_, rfl, retrieveAll_wf h, ?_⟩
      rw [retrieveAll_readable, Op.spec, Fifo.pop_all (Nat.le_refl _)]
  | retrieveAsString len =>
      obtain ⟨b', he, hwf, hrd⟩ := retrieveAsString_ok h len
      exact .inr ⟨_, he, hwf, by rw [hrd]; rfl⟩
  | retrieveAllAsString =>
      obtain ⟨b', he, hwf, hrd⟩ := retrieveAsString_ok h b.readableBytes
      refine .inr ⟨(b', _), he, hwf, ?_⟩
      rw [hrd, ← h.readable_length]
      rfl
  | ensureWritable len =>
      rw [Op.request] at hw
      rcases ensureWritable_spec h hw with he | ⟨b', he, hwf, hrd, _⟩
      · exact .inl (by rw [exec, he]; rfl)
      · exact .inr ⟨(b', []), by rw [exec, he]; rfl, hwf, by rw [hrd]; rfl⟩
  | readFd r =>
      rcases readFd_spec h hw with he | ⟨p, he, hwf, hrd, _⟩
      · exact .inl (by rw [exec, he]; rfl)
      · exact .inr ⟨(p.1, []), by rw [exec, he]; rfl, hwf, by rw [hrd]; rfl⟩
  | recvFd r =>
      rcases recvFd_spec h hw hoff with he | ⟨p, he, hwf, hrd, _⟩
      · exact .inl (by rw [exec, he]; rfl)
      · exact .inr ⟨(p.1, []), by rw [exec, he]; rfl, hwf, by rw [hrd]; rfl⟩

theorem run_spec {ops : List Op} : ∀ {b : Buffer}, b.Wf → b.Admissible ops →
    b.run ops = .error .lengthError ∨
      ∃ p, b.run ops = .ok p ∧ p.1.Wf ∧ specRun b.readable ops = (p.1.readable, p.2) := by
  induction ops with
  | nil => exact fun h _ => .inr ⟨_, rfl, h, rfl⟩
  | cons op ops ih =>
      intro b h hadm
      obtain ⟨⟨hw, hoff⟩, hrest⟩ := hadm
      rcases exec_spec h hw hoff with he | ⟨p, he, hwf, hspec⟩
      · left
        rw [run, he]
        rfl
      · rw [he] at hrest
        rcases ih hwf hrest with hr | ⟨p', hr, hwf', hspec'⟩
        · left
          simp only [run, he, bind, Except.bind, hr]
        · right
          refine ⟨(p'.1, p.2 :: p'.2), ?_, hwf', ?_⟩
          · simp only [run, he, bind, Except.bind, hr]
            rfl
          · simp only [specRun, hspec, hspec']

/-- Every sequence of calls on a fresh buffer, short of an allocation that is
refused, leaves the indices in order and the unread bytes of the queue, and
returned what the queue returns; and wherever it leaves the buffer, a request
that would compact it copies strictly downwards. That no other fault is
possible is the claim that every range lies inside the vector. -/
theorem run_refines_fifo (ops : List Op) (h : new.Admissible ops) :
    new.run ops = .error .lengthError ∨
      ∃ p, new.run ops = .ok p ∧ p.1.Wf ∧ specRun [] ops = (p.1.readable, p.2) ∧
        ∀ len, p.1.NoWrap len → p.1.writableBytes < len → p.1.compacts len = true →
          kPrependSize < p.1.readIndex_ := by
  rcases run_spec new_wf h with he | ⟨p, he, hwf, hspec⟩
  · exact .inl he
  · rw [new_readable] at hspec
    exact .inr ⟨p, he, hwf, hspec, fun len hw hfull hc => (compacts_lt hwf hw hfull hc).1⟩

theorem run_refines_fifo_hello :
    ∃ p, new.run [.append [104, 101, 108, 108, 111], .retrieveAsString 2,
        .readFd (.bytes [33])] = .ok p ∧ p.1.readable = [108, 108, 111, 33] ∧
      p.2 = [[], [104, 101], []] := by
  rcases run_refines_fifo [.append [104, 101, 108, 108, 111], .retrieveAsString 2,
    .readFd (.bytes [33])] (by decide +kernel) with he | ⟨p, he, _, hspec, _⟩
  · exact absurd he (by decide +kernel)
  · have hq : specRun [] [.append [104, 101, 108, 108, 111], .retrieveAsString 2,
        .readFd (.bytes [33])] = ([108, 108, 111, 33], [[], [104, 101], []]) := by decide
    rw [hq, Prod.mk.injEq] at hspec
    exact ⟨p, he, hspec.1.symm, hspec.2.symm⟩

end Buffer

/-! ## Buffers by construction

What a connection holds is a buffer together with its invariant, and what it
appends is an object in memory, so no index sum can wrap. An operation has no
outcome when the vector's limit stops it or when the kernel would have
delivered more than it was offered. -/

/-- A buffer with its indices in order. -/
abbrev WfBuffer := { b : Buffer // b.Wf }

/-- The contents of an object in memory. -/
abbrev Bytes := { d : List UInt8 // d.length ≤ maxSize }

inductive Platform where
  | linux
  | windows
  deriving DecidableEq, Repr

namespace WfBuffer

def new : WfBuffer := ⟨.new, Buffer.new_wf⟩

def bytes (b : WfBuffer) : List UInt8 := b.1.readable

def empty (b : WfBuffer) : Bool := b.1.empty

def retrieve (b : WfBuffer) (n : Nat) : WfBuffer := ⟨b.1.retrieve n, Buffer.retrieve_wf b.2 n⟩

@[simp] theorem new_bytes : new.bytes = [] := Buffer.new_readable

theorem empty_iff {b : WfBuffer} : b.empty = true ↔ b.bytes = [] := b.2.empty_iff

@[simp] theorem retrieve_bytes (b : WfBuffer) (n : Nat) :
    (b.retrieve n).bytes = b.bytes.drop n := Buffer.retrieve_readable b.2 n

theorem noWrap (b : WfBuffer) {n : Nat} (h : n ≤ b.1.writableBytes + Buffer.kExtraSize ∨
    n ≤ maxSize) : b.1.NoWrap n := by
  have hw := b.2.writableBytes_eq
  have h1 := b.2.write_le
  have h2 := b.2.size_le
  unfold Buffer.NoWrap
  simp only [Buffer.kExtraSize, maxSize] at h h2
  omega

theorem append_wf {b : WfBuffer} {d : Bytes} {b' : Buffer} (h : b.1.append d.1 = .ok b') :
    b'.Wf ∧ b'.readable = b.bytes ++ d.1 := by
  rcases Buffer.append_spec b.2 (b.noWrap (.inr d.2)) with he | ⟨b₁, he, hwf, hrd⟩
  · rw [he] at h
    cases h
  · rw [he, Except.ok.injEq] at h
    exact h ▸ ⟨hwf, hrd⟩

def append (b : WfBuffer) (d : Bytes) : Option WfBuffer :=
  match h : b.1.append d.1 with
  | .ok b' => some ⟨b', (append_wf h).1⟩
  | .error _ => none

theorem append_bytes {b b' : WfBuffer} {d : Bytes} (h : b.append d = some b') :
    b'.bytes = b.bytes ++ d.1 := by
  unfold append at h
  split at h
  · next b₁ he =>
      cases h
      exact (append_wf he).2
  · cases h

theorem append_isSome_iff {b : WfBuffer} {d : Bytes} :
    (b.append d).isSome ↔ ¬ b.1.Refuses d.1.length := by
  rw [← Buffer.append_error_iff b.2 (b.noWrap (.inr d.2))]
  unfold append
  split
  · next b' he => simp [he]
  · next e he =>
      rcases Buffer.append_spec b.2 (b.noWrap (.inr d.2)) with hl | ⟨b₁, hok, -⟩
      · simp [hl]
      · rw [hok] at he
        cases he

/-- `readFd` of either platform. -/
def readOn : Platform → Buffer → RecvResult → Except Fault (Buffer × Int)
  | .linux => Buffer.readFd
  | .windows => Buffer.recvFd

/-- The room the kernel is offered. -/
def offered (b : WfBuffer) : Platform → Nat
  | .linux => b.1.writableBytes + Buffer.kExtraSize
  | .windows => b.1.offered

theorem readOn_wf {b : WfBuffer} {pl : Platform} {r : RecvResult} {p : Buffer × Int}
    (hoff : (Buffer.delivered r).length ≤ b.offered pl) (h : readOn pl b.1 r = .ok p) :
    p.1.Wf ∧ p.1.readable = b.bytes ++ Buffer.delivered r ∧ p.2 = Buffer.returned r := by
  have hspec : readOn pl b.1 r = .error .lengthError ∨
      ∃ p, readOn pl b.1 r = .ok p ∧ p.1.Wf ∧ p.1.readable = b.bytes ++ Buffer.delivered r ∧
        p.2 = Buffer.returned r := by
    cases pl with
    | linux => exact Buffer.readFd_spec b.2 (b.noWrap (.inl hoff))
    | windows => exact Buffer.recvFd_spec b.2 (b.noWrap (.inl (Nat.le_add_left _ _))) hoff
  rcases hspec with he | ⟨p', he, hp⟩
  · rw [he] at h
    cases h
  · rw [he, Except.ok.injEq] at h
    exact h ▸ hp

def readFd (b : WfBuffer) (pl : Platform) (r : RecvResult) : Option (WfBuffer × Int) :=
  if hoff : (Buffer.delivered r).length ≤ b.offered pl then
    match h : readOn pl b.1 r with
    | .ok p => some (⟨p.1, (readOn_wf hoff h).1⟩, p.2)
    | .error _ => none
  else none

theorem readFd_bytes {b b' : WfBuffer} {pl : Platform} {r : RecvResult} {n : Int}
    (h : b.readFd pl r = some (b', n)) :
    b'.bytes = b.bytes ++ Buffer.delivered r ∧ n = Buffer.returned r := by
  unfold readFd at h
  split at h
  · next hoff =>
      split at h
      · next p hp =>
          cases h
          exact (readOn_wf hoff hp).2
      · cases h
  · cases h

end WfBuffer

end Muduox.Net
