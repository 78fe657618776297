import Muduox.Base.AsyncLogging

/-!
# Log lines are passed on once and in order

A line goes from `currentBuffer_` to `buffers_`, from there to `buffersToWrite`
and then to `LogFile::append`. The three together with what was passed are
always the lines that were appended (`Intact.bytes`). Buffers that come back are
empty before they are used again (`Intact.spare`, `Slots.spare`), so nothing is
passed twice.

The assertions of `recycle` hold because a buffer that `threadFunc` gave away
came back as another: `newBuffer2` goes to `nextBuffer_` only if `append` took
the one that was there, which it did to put a full buffer into `buffers_`.
-/

namespace Muduox.Base

namespace FixedBuffer

variable {SIZE : Nat}

/-- What fits is appended as a whole. -/
theorem append_data {b : FixedBuffer SIZE} {buf : List UInt8} (h : buf.length ≤ b.avail) :
    (b.append buf).data = b.data ++ buf := by
  simp only [append, Nat.min_eq_right h, List.take_length]

theorem avail_of_nil {b : FixedBuffer SIZE} (h : b.data = []) : b.avail = SIZE := by
  rw [avail, length, h]
  rfl

end FixedBuffer

/-- The bytes of some lines. -/
def bytes (lines : List Line) : List UInt8 := lines.flatMap Subtype.val

/-- The bytes of some buffers. -/
def contents (bufs : List Buffer) : List UInt8 := bufs.flatMap FixedBuffer.data

theorem bytes_append (as bs : List Line) : bytes (as ++ bs) = bytes as ++ bytes bs :=
  List.flatMap_append

theorem contents_append (as bs : List Buffer) :
    contents (as ++ bs) = contents as ++ contents bs := List.flatMap_append

theorem contents_singleton (b : Buffer) : contents [b] = b.data := List.flatMap_singleton ..

/-- The members whose destruction did not begin, in the order in which it will. -/
def Dtor.left : Dtor → List Member
  | .alive => [.buffers_, .nextBuffer_, .currentBuffer_, .cond_, .mutex_]
  | .members ms => ms
  | .done => []

namespace AsyncLogging

/-- What of `buffersToWrite` was not passed yet. -/
def unwritten (s : AsyncLogging) : List UInt8 := contents (s.buffersToWrite.drop s.written)

/-- What `buffers_` and `currentBuffer_` hold. -/
def queued (s : AsyncLogging) : List UInt8 := contents s.buffers_ ++ contents s.currentBuffer_.toList

/-- `threadFunc` is past its last critical section. -/
def pastFinal : BackPc → Bool
  | .draining | .flush | .returned => true
  | _ => false

/-- `threadFunc` has both its spare buffers. -/
def ready : BackPc → Bool
  | .test | .enter | .waiting | .final => true
  | _ => false

/-- `threadFunc` has swapped and has not given its spare buffers back. -/
def given : BackPc → Bool
  | .writing | .recycle => true
  | _ => false

/-- `threadFunc` has passed all it took. -/
def finished : BackPc → Bool
  | .recycle | .flush | .returned => true
  | _ => false

/-- The buffers of `threadFunc`. -/
structure Slots (s : AsyncLogging) : Prop where
  idle : given s.pc = false → pastFinal s.pc = false → s.pc ≠ .undefined → s.buffersToWrite = []
  ready : ready s.pc = true → s.newBuffer1 ≠ none ∧ s.newBuffer2 ≠ none
  given : given s.pc = true → s.buffersToWrite ≠ [] ∧
    (s.newBuffer2 = none → 2 ≤ s.buffersToWrite.length)
  finished : finished s.pc = true → s.buffersToWrite.length ≤ s.written
  spare : (∀ b ∈ s.newBuffer1, b.data = []) ∧ ∀ b ∈ s.newBuffer2, b.data = []

/-- The shared members. -/
structure Intact (s : AsyncLogging) : Prop where
  current : s.currentBuffer_ ≠ none
  bytes : s.passed ++ s.unwritten ++ s.queued = bytes s.appended
  spare : ∀ b ∈ s.nextBuffer_, b.data = []
  refilled : s.nextBuffer_ = none → pastFinal s.pc = false → s.buffers_ ≠ []

/-- What the last critical section took is passed, or about to be. -/
structure Drained (s : AsyncLogging) : Prop where
  bytes : s.passed ++ s.unwritten = bytes s.beforeFinal
  lines : s.beforeFinal <+: s.appended

/-- What every run keeps. -/
structure Inv (s : AsyncLogging) : Prop where
  slots : Slots s
  intact : s.destroyed = [] → Intact s
  drained : pastFinal s.pc = true → Drained s
  order : s.destroyed.reverse ++ s.dtor.left = Dtor.left .alive
  undefined : s.pc = .undefined → s.destroyed ≠ []

theorem queued_of_current {s : AsyncLogging} {b : Buffer} (h : s.currentBuffer_ = some b) :
    s.queued = contents s.buffers_ ++ b.data := by
  rw [queued, h, Option.toList_some, contents_singleton]

section Pieces

variable {s s' : AsyncLogging}

theorem unwritten_of_finished (h : s.buffersToWrite.length ≤ s.written) : s.unwritten = [] := by
  rw [unwritten, List.drop_eq_nil_of_le h]
  rfl

theorem unwritten_of_nil (h : s.buffersToWrite = []) : s.unwritten = [] := by
  rw [unwritten, h, List.drop_nil]
  rfl

/-! ### `append` -/

theorem Intact.append (h : Intact s) {line : Line} (hs : s.append line = some s') :
    Intact s' := by
  unfold AsyncLogging.append at hs
  split at hs
  · cases hs
  · next b hb =>
      have hbytes := h.bytes
      rw [queued_of_current hb] at hbytes
      have hline : Muduox.Base.bytes (s.appended ++ [line]) =
          Muduox.Base.bytes s.appended ++ line.1 := by
        rw [bytes_append]
        exact congrArg _ (List.flatMap_singleton ..)
      dsimp only at hs
      split at hs
      · next hfit =>
          cases hs
          refine ⟨by simp, ?_, h.spare, h.refilled⟩
          rw [hline, ← hbytes, queued_of_current rfl,
            FixedBuffer.append_data (Nat.le_of_lt hfit)]
          simp only [List.append_assoc]
          rfl
      · next hfull =>
          cases hs
          have hfresh : (s.nextBuffer_.getD .new).data = [] := by
            cases hn : s.nextBuffer_ with
            | none => rfl
            | some c => exact h.spare c hn
          refine ⟨by simp, ?_, by simp, fun _ _ => by simp⟩
          rw [hline, ← hbytes, queued_of_current rfl, FixedBuffer.append_data, hfresh,
            contents_append, contents_singleton]
          · simp only [List.append_assoc, List.nil_append]
            rfl
          · rw [FixedBuffer.avail_of_nil hfresh]
            exact line.2

/-- `append` touches nothing of the background thread's. -/
theorem append_frame {line : Line} (hs : s.append line = some s') :
    s'.pc = s.pc ∧ s'.newBuffer1 = s.newBuffer1 ∧ s'.newBuffer2 = s.newBuffer2 ∧
      s'.buffersToWrite = s.buffersToWrite ∧ s'.written = s.written ∧ s'.passed = s.passed ∧
      s'.beforeFinal = s.beforeFinal ∧ s'.appended = s.appended ++ [line] ∧
      s'.dtor = s.dtor ∧ s'.destroyed = s.destroyed := by
  unfold AsyncLogging.append at hs
  split at hs
  · cases hs
  · dsimp only at hs
    split at hs <;> cases hs <;> simp

theorem Inv.append (h : Inv s) {line : Line} (hs : s.append line = some s') : Inv s' := by
  obtain ⟨hpc, h1, h2, hw, hn, hp, hf, ha, hd, hm⟩ := append_frame hs
  have hun : s'.unwritten = s.unwritten := by rw [unwritten, hw, hn]; rfl
  refine ⟨⟨?_, ?_, ?_, ?_, ?_⟩, fun he => ?_, fun he => ?_, ?_, ?_⟩
  · rw [hpc, hw]
    exact h.slots.idle
  · rw [hpc, h1, h2]
    exact h.slots.ready
  · rw [hpc, h2, hw]
    exact h.slots.given
  · rw [hpc, hw, hn]
    exact h.slots.finished
  · rw [h1, h2]
    exact h.slots.spare
  · exact (h.intact (hm ▸ he)).append hs
  · obtain ⟨hb, hl⟩ := h.drained (hpc ▸ he)
    refine ⟨by rw [hp, hun, hf]; exact hb, ?_⟩
    rw [hf, ha]
    exact hl.trans (List.prefix_append _ _)
  · rw [hd, hm]
    exact h.order
  · rw [hpc, hm]
    exact h.undefined

/-! ### `threadFunc` -/

/-- What `threadFunc` has taken out, the members' bytes being what was theirs. -/
theorem unwritten_taken {bufs : List Buffer} (h : s'.buffersToWrite = bufs) (hw : s'.written = 0) :
    s'.unwritten = contents bufs := by
  rw [unwritten, h, hw, List.drop_zero]

theorem Inv.swap (h : Inv s) (hpc : s.pc = .waiting) (hd : s.destroyed = [])
    (hs : s.swap = some s') : Inv s' := by
  have hin := h.intact hd
  have hidle : s.buffersToWrite = [] :=
    h.slots.idle (by rw [hpc]; rfl) (by rw [hpc]; rfl) (by simp [hpc])
  obtain ⟨h1, h2⟩ := h.slots.ready (by rw [hpc]; rfl)
  have hrefilled : s.nextBuffer_ = none → s.buffers_ ≠ [] := fun hn =>
    hin.refilled hn (by rw [hpc]; rfl)
  obtain ⟨c, hc⟩ := Option.ne_none_iff_exists'.mp h1
  have hspare : c.data = [] := h.slots.spare.1 c hc
  unfold AsyncLogging.swap at hs
  split at hs
  · cases hs
  · next b hb =>
      have hbytes := hin.bytes
      rw [unwritten_of_nil hidle, queued_of_current hb, List.append_nil] at hbytes
      have hall : s.passed ++ contents (s.buffers_ ++ [b]) ++ (contents s.buffersToWrite ++ c.data) =
          Muduox.Base.bytes s.appended := by
        rw [← hbytes, contents_append, contents_singleton, hidle, hspare]
        simp [contents]
      cases hn : s.nextBuffer_ with
      | some n =>
          simp only [hn, Option.isNone_some, Bool.false_eq_true, if_false, Option.some.injEq] at hs
          subst hs
          refine ⟨⟨?_, ?_, fun _ => ⟨by simp, fun h => absurd h h2⟩, ?_, by simp,
            h.slots.spare.2⟩, fun _ => ⟨h1, ?_, ?_, ?_⟩, ?_, h.order, by simp⟩
          · simp [given]
          · simp [AsyncLogging.ready]
          · simp [finished]
          · rw [unwritten_taken rfl rfl, queued_of_current hc]
            exact hall
          · rw [← hn]
            exact hin.spare
          · simp
          · simp [pastFinal]
      | none =>
          simp only [hn, Option.isNone_none, if_true, Option.some.injEq] at hs
          subst hs
          have hlen := List.length_pos_iff.mpr (hrefilled hn)
          refine ⟨⟨?_, ?_, fun _ => ⟨by simp, fun _ => ?_⟩, ?_, by simp, by simp⟩,
            fun _ => ⟨h1, ?_, h.slots.spare.2, fun hn _ => absurd hn h2⟩, ?_, h.order, by simp⟩
          · simp [given]
          · simp [AsyncLogging.ready]
          · simp only [List.length_append, List.length_singleton]
            omega
          · simp [finished]
          · rw [unwritten_taken rfl rfl, queued_of_current hc]
            exact hall
          · simp [pastFinal]

/-- A buffer is written, or all are. -/
theorem write_eq (s : AsyncLogging) (after : BackPc) :
    (∃ b, s.buffersToWrite[s.written]? = some b ∧
      s.write after = { s with written := s.written + 1, passed := s.passed ++ b.data }) ∨
    s.buffersToWrite.length ≤ s.written ∧ s.write after = { s with pc := after } := by
  unfold AsyncLogging.write
  cases hb : s.buffersToWrite[s.written]? with
  | none => exact .inr ⟨List.getElem?_eq_none_iff.mp hb, rfl⟩
  | some b =>
      refine .inl ⟨b, rfl, ?_⟩
      dsimp only
      split
      · rfl
      · next hempty =>
          have hnil : b.data = [] := List.length_eq_zero_iff.mp (Nat.eq_zero_of_not_pos hempty)
          rw [hnil, List.append_nil]

theorem Inv.write (h : Inv s) {after : BackPc}
    (hpc : s.pc = .writing ∧ after = .recycle ∨ s.pc = .draining ∧ after = .flush) :
    Inv (s.write after) := by
  rcases write_eq s after with ⟨b, hb, heq⟩ | ⟨hlen, heq⟩
  · -- The bytes of one buffer move from `buffersToWrite` to what was passed.
    obtain ⟨hlt, hget⟩ := List.getElem?_eq_some_iff.mp hb
    have hmove : s.passed ++ s.unwritten =
        (s.passed ++ b.data) ++ contents (s.buffersToWrite.drop (s.written + 1)) := by
      rw [unwritten, List.drop_eq_getElem_cons hlt, hget, List.append_assoc]
      rfl
    rw [heq]
    refine ⟨⟨h.slots.idle, h.slots.ready, h.slots.given, fun hf => ?_, h.slots.spare⟩,
      fun hd => ?_, fun hp => ?_, h.order, h.undefined⟩
    · have := h.slots.finished hf
      omega
    · have hin := h.intact hd
      refine ⟨hin.current, ?_, hin.spare, hin.refilled⟩
      rw [← hin.bytes, hmove]
      rfl
    · obtain ⟨hbytes, hlines⟩ := h.drained hp
      refine ⟨?_, hlines⟩
      rw [← hbytes, hmove]
      rfl
  · rw [heq]
    rcases hpc with ⟨hpc, rfl⟩ | ⟨hpc, rfl⟩
    · have hgiven := h.slots.given (by rw [hpc]; rfl)
      refine ⟨⟨by simp [given], by simp [AsyncLogging.ready], fun _ => hgiven, fun _ => hlen,
        h.slots.spare⟩, fun hd => ?_, by simp [pastFinal], h.order, by simp⟩
      have hin := h.intact hd
      exact ⟨hin.current, hin.bytes, hin.spare, fun hn _ => hin.refilled hn (by rw [hpc]; rfl)⟩
    · refine ⟨⟨by simp [pastFinal], by simp [AsyncLogging.ready], by simp [given], fun _ => hlen,
        h.slots.spare⟩, fun hd => ?_, fun _ => ?_, h.order, by simp⟩
      · have hin := h.intact hd
        exact ⟨hin.current, hin.bytes, hin.spare, by simp [pastFinal]⟩
      · have hdr := h.drained (by rw [hpc]; rfl)
        exact ⟨hdr.bytes, hdr.lines⟩

/-- A spare buffer is there after `refill`, and it is empty. -/
theorem refill_eq {newBuffer : Option Buffer} (bufs : List Buffer)
    (hspare : ∀ b ∈ newBuffer, b.data = []) (hbufs : newBuffer = none → bufs ≠ []) :
    ∃ b rest, refill newBuffer bufs = some (some b, rest) ∧ b.data = [] ∧
      bufs.length ≤ rest.length + if newBuffer = none then 1 else 0 := by
  unfold refill
  cases newBuffer with
  | some b => exact ⟨b, bufs, rfl, hspare b rfl, by simp⟩
  | none =>
      cases hlast : bufs.getLast? with
      | none => exact absurd (List.getLast?_eq_none_iff.mp hlast) (hbufs rfl)
      | some b =>
          refine ⟨b.reset, bufs.dropLast, rfl, rfl, ?_⟩
          rw [List.length_dropLast, if_pos rfl]
          omega

/-- The assertions of the loop's body hold. -/
theorem Slots.recycle (h : Slots s) (hpc : s.pc = .recycle) :
    ∃ b1 b2 : Buffer, b1.data = [] ∧ b2.data = [] ∧
      s.recycle = some { s with
        newBuffer1 := some b1, newBuffer2 := some b2, buffersToWrite := [], written := 0,
        pc := .test } := by
  obtain ⟨hne, htwo⟩ := h.given (by rw [hpc]; rfl)
  have hpos := List.length_pos_iff.mpr hne
  have hbufs : ∃ bufs, bufs = (if s.buffersToWrite.length > 2 then s.buffersToWrite.take 2
      else s.buffersToWrite) ∧ 0 < bufs.length ∧ (s.newBuffer2 = none → 2 ≤ bufs.length) := by
    refine ⟨_, rfl, ?_, fun hn => ?_⟩
    · split
      · simp only [List.length_take]
        omega
      · exact hpos
    · have := htwo hn
      split
      · simp only [List.length_take]
        omega
      · exact this
  obtain ⟨bufs, hbufs, hlen, hlen2⟩ := hbufs
  obtain ⟨b1, rest, hr1, hb1, hrest⟩ :=
    refill_eq bufs h.spare.1 fun _ => List.length_pos_iff.mp hlen
  obtain ⟨b2, rest2, hr2, hb2, -⟩ := refill_eq rest h.spare.2 fun hn => by
    have := hlen2 hn
    refine List.length_pos_iff.mp ?_
    split at hrest <;> omega
  refine ⟨b1, b2, hb1, hb2, ?_⟩
  rw [AsyncLogging.recycle, ← hbufs, hr1, Option.bind_some]
  dsimp only
  rw [hr2, Option.map_some]

theorem Inv.recycle (h : Inv s) (hpc : s.pc = .recycle) (hs : s.recycle = some s') : Inv s' := by
  obtain ⟨b1, b2, hb1, hb2, heq⟩ := h.slots.recycle hpc
  have hfin : s.unwritten = [] := unwritten_of_finished (h.slots.finished (by rw [hpc]; rfl))
  rw [heq, Option.some.injEq] at hs
  subst hs
  refine ⟨⟨by simp, by simp, by simp [given], by simp [finished], by simp [hb1, hb2]⟩,
    fun hd => ?_, by simp [pastFinal], h.order, by simp⟩
  have hin := h.intact hd
  have hbytes := hin.bytes
  rw [hfin] at hbytes
  refine ⟨hin.current, ?_, hin.spare, fun hn _ => hin.refilled hn (by rw [hpc]; rfl)⟩
  rw [unwritten_of_nil rfl]
  exact hbytes

theorem Inv.last (h : Inv s) (hpc : s.pc = .final) (hd : s.destroyed = [])
    (hs : s.last = some s') : Inv s' := by
  have hin := h.intact hd
  have hidle : s.buffersToWrite = [] :=
    h.slots.idle (by rw [hpc]; rfl) (by rw [hpc]; rfl) (by simp [hpc])
  obtain ⟨h1, -⟩ := h.slots.ready (by rw [hpc]; rfl)
  obtain ⟨c, hc⟩ := Option.ne_none_iff_exists'.mp h1
  have hspare : c.data = [] := h.slots.spare.1 c hc
  unfold AsyncLogging.last at hs
  split at hs
  · cases hs
  · next b hb =>
      have hbytes := hin.bytes
      rw [unwritten_of_nil hidle, queued_of_current hb, List.append_nil] at hbytes
      dsimp only at hs
      split at hs
      · cases hs
        have htaken : s.passed ++ contents (s.buffers_ ++ [b]) = Muduox.Base.bytes s.appended := by
          rw [← hbytes, contents_append, contents_singleton]
        refine ⟨⟨by simp [pastFinal], by simp [AsyncLogging.ready], by simp [given],
          by simp [finished], by simp, h.slots.spare.2⟩, fun _ => ⟨h1, ?_, hin.spare, ?_⟩,
          fun _ => ⟨?_, List.prefix_refl _⟩, h.order, by simp⟩
        · rw [unwritten_taken rfl rfl, queued_of_current hc, htaken, hspare, hidle]
          simp [contents]
        · simp [pastFinal]
        · rw [unwritten_taken rfl rfl]
          exact htaken
      · next hempty =>
          cases hs
          -- An empty `currentBuffer_` stays: it holds no line.
          have hnil : b.data = [] := List.length_eq_zero_iff.mp (Nat.eq_zero_of_not_pos hempty)
          rw [hnil, List.append_nil] at hbytes
          refine ⟨⟨by simp [pastFinal], by simp [AsyncLogging.ready], by simp [given],
            by simp [finished], h.slots.spare⟩, fun _ => ⟨hin.current, ?_, hin.spare, ?_⟩,
            fun _ => ⟨?_, List.prefix_refl _⟩, h.order, by simp⟩
          · rw [unwritten_taken rfl rfl, queued_of_current (b := b), hbytes, hnil, hidle]
            · simp [contents]
            · exact hb
          · simp [pastFinal]
          · rw [unwritten_taken rfl rfl]
            exact hbytes

theorem Inv.threadFunc (h : Inv s)
    (hd : s.pc = .waiting ∨ s.pc = .final → s.destroyed = [])
    (hs : s.threadFunc = some s') : Inv s' := by
  unfold AsyncLogging.threadFunc at hs
  cases hpc : s.pc with
  | notStarted | returned | undefined => rw [hpc] at hs; cases hs
  | begin =>
      rw [hpc] at hs
      cases hs
      have hidle := h.slots.idle (by rw [hpc]; rfl) (by rw [hpc]; rfl) (by simp [hpc])
      exact ⟨⟨fun _ _ _ => hidle, by simp, by simp [given], by simp [finished], by simp [FixedBuffer.new]⟩,
        fun hd => ⟨(h.intact hd).current, (h.intact hd).bytes, (h.intact hd).spare,
          fun hn _ => (h.intact hd).refilled hn (by rw [hpc]; rfl)⟩,
        by simp [pastFinal], h.order, by simp⟩
  | test =>
      rw [hpc] at hs
      cases hs
      have hidle := h.slots.idle (by rw [hpc]; rfl) (by rw [hpc]; rfl) (by simp [hpc])
      have hready := h.slots.ready (by rw [hpc]; rfl)
      have hin : s.destroyed = [] → s.nextBuffer_ = none → s.buffers_ ≠ [] := fun hd hn =>
        (h.intact hd).refilled hn (by rw [hpc]; rfl)
      refine ⟨⟨fun _ _ _ => hidle, fun _ => hready, ?_, ?_, h.slots.spare⟩,
        fun hd => ⟨(h.intact hd).current, (h.intact hd).bytes, (h.intact hd).spare,
          fun hn _ => hin hd hn⟩, ?_, h.order, ?_⟩ <;>
        cases s.stopRequested <;> simp [given, finished, pastFinal]
  | enter =>
      rw [hpc] at hs
      cases hs
      have hidle := h.slots.idle (by rw [hpc]; rfl) (by rw [hpc]; rfl) (by simp [hpc])
      have hready := h.slots.ready (by rw [hpc]; rfl)
      exact ⟨⟨fun _ _ _ => hidle, fun _ => hready, by simp [given], by simp [finished],
        h.slots.spare⟩,
        fun hd => ⟨(h.intact hd).current, (h.intact hd).bytes, (h.intact hd).spare,
          fun hn _ => (h.intact hd).refilled hn (by rw [hpc]; rfl)⟩,
        by simp [pastFinal], h.order, by simp⟩
  | waiting =>
      rw [hpc] at hs
      exact h.swap hpc (hd (.inl hpc)) hs
  | writing =>
      rw [hpc] at hs
      cases hs
      exact h.write (.inl ⟨hpc, rfl⟩)
  | recycle =>
      rw [hpc] at hs
      exact h.recycle hpc hs
  | final =>
      rw [hpc] at hs
      exact h.last hpc (hd (.inr hpc)) hs
  | draining =>
      rw [hpc] at hs
      cases hs
      exact h.write (.inr ⟨hpc, rfl⟩)
  | flush =>
      rw [hpc] at hs
      cases hs
      have hfin := h.slots.finished (by rw [hpc]; rfl)
      have hdr := h.drained (by rw [hpc]; rfl)
      exact ⟨⟨by simp [pastFinal], by simp [AsyncLogging.ready], by simp [given], fun _ => hfin,
        h.slots.spare⟩,
        fun hd => ⟨(h.intact hd).current, (h.intact hd).bytes, (h.intact hd).spare,
          by simp [pastFinal]⟩,
        fun _ => ⟨hdr.bytes, hdr.lines⟩, h.order, by simp⟩

/-- The member that is destroyed first. -/
theorem Inv.buffers_gone (h : Inv s) (hd : s.destroyed ≠ []) : .buffers_ ∈ s.destroyed := by
  have horder := h.order
  cases hr : s.destroyed.reverse with
  | nil => exact absurd (List.reverse_eq_nil_iff.mp hr) hd
  | cons m ms =>
      rw [hr, List.cons_append, Dtor.left, List.cons.injEq] at horder
      rw [← List.mem_reverse, hr, horder.1]
      exact List.mem_cons_self

theorem Inv.background (h : Inv s) (hs : s.background = some s') : Inv s' := by
  unfold AsyncLogging.background at hs
  dsimp only at hs
  split at hs
  · next hgone =>
      refine h.threadFunc (fun hpc => ?_) hs
      refine Decidable.byContradiction fun hd => ?_
      -- These pieces use `buffers_`.
      have hmem : Member.buffers_ ∈ uses s.pc := by
        rcases hpc with hpc | hpc <;> rw [hpc] <;> decide
      have := List.filter_eq_nil_iff.mp hgone _ hmem
      exact this (by simpa using h.buffers_gone hd)
  · next hgone =>
      cases hs
      obtain ⟨m, hm⟩ := List.exists_mem_of_ne_nil _ hgone
      have hd : s.destroyed ≠ [] := by
        have := (List.mem_filter.mp hm).2
        exact List.ne_nil_of_mem (by simpa using this)
      exact ⟨⟨by simp, by simp [AsyncLogging.ready], by simp [given], by simp [finished],
        h.slots.spare⟩, fun he => absurd he hd, by simp [pastFinal], h.order, fun _ => hd⟩

/-! ### The other steps -/

/-- Destroying a member touches nothing of the background thread's. -/
theorem clear_frame (s : AsyncLogging) (m : Member) :
    (s.clear m).pc = s.pc ∧ (s.clear m).newBuffer1 = s.newBuffer1 ∧
      (s.clear m).newBuffer2 = s.newBuffer2 ∧ (s.clear m).buffersToWrite = s.buffersToWrite ∧
      (s.clear m).written = s.written ∧ (s.clear m).passed = s.passed ∧
      (s.clear m).beforeFinal = s.beforeFinal ∧ (s.clear m).appended = s.appended := by
  cases m <;> simp [clear]

theorem Inv.destroy (h : Inv s) (hs : s.destroy = some s') : Inv s' := by
  have horder := h.order
  unfold AsyncLogging.destroy at hs
  split at hs
  · next hd =>
      cases hs
      rw [hd] at horder
      exact ⟨⟨h.slots.idle, h.slots.ready, h.slots.given, h.slots.finished, h.slots.spare⟩,
        fun hd => ⟨(h.intact hd).current, (h.intact hd).bytes, (h.intact hd).spare,
          (h.intact hd).refilled⟩,
        fun hp => ⟨(h.drained hp).bytes, (h.drained hp).lines⟩, horder, h.undefined⟩
  · next m ms hd =>
      cases hs
      obtain ⟨hpc, h1, h2, hw, hn, hp, hf, ha⟩ := clear_frame s m
      refine ⟨⟨?_, ?_, ?_, ?_, ?_⟩, by simp, fun hpast => ?_, ?_, by simp⟩
      · simpa only [hpc, hw] using h.slots.idle
      · simpa only [hpc, h1, h2] using h.slots.ready
      · simpa only [hpc, h2, hw] using h.slots.given
      · simpa only [hpc, hw, hn] using h.slots.finished
      · simpa only [h1, h2] using h.slots.spare
      · obtain ⟨hb, hl⟩ := h.drained (by simpa only [hpc] using hpast)
        refine ⟨?_, by simpa only [hf, ha] using hl⟩
        simpa only [unwritten, hw, hn, hp, hf] using hb
      · rw [hd] at horder
        rw [List.reverse_cons, List.append_assoc]
        exact horder
  · next hd =>
      split at hs
      · cases hs
        rw [hd] at horder
        exact ⟨⟨h.slots.idle, h.slots.ready, h.slots.given, h.slots.finished, h.slots.spare⟩,
          fun hd => ⟨(h.intact hd).current, (h.intact hd).bytes, (h.intact hd).spare,
            (h.intact hd).refilled⟩,
          fun hp => ⟨(h.drained hp).bytes, (h.drained hp).lines⟩, horder, h.undefined⟩
      · cases hs
  · cases hs

theorem Inv.start (h : Inv s) (hpc : s.pc = .notStarted) :
    Inv { s with stopRequested := false, pc := .begin } := by
  have hidle := h.slots.idle (by rw [hpc]; rfl) (by rw [hpc]; rfl) (by simp [hpc])
  exact ⟨⟨fun _ _ _ => hidle, by simp [AsyncLogging.ready], by simp [given], by simp [finished],
    h.slots.spare⟩,
    fun hd => ⟨(h.intact hd).current, (h.intact hd).bytes, (h.intact hd).spare,
      fun hn _ => (h.intact hd).refilled hn (by rw [hpc]; rfl)⟩,
    by simp [pastFinal], h.order, by simp⟩

theorem Inv.stop (h : Inv s) : Inv { s with stopRequested := true } :=
  ⟨⟨h.slots.idle, h.slots.ready, h.slots.given, h.slots.finished, h.slots.spare⟩,
    fun hd => ⟨(h.intact hd).current, (h.intact hd).bytes, (h.intact hd).spare,
      (h.intact hd).refilled⟩,
    fun hp => ⟨(h.drained hp).bytes, (h.drained hp).lines⟩, h.order, h.undefined⟩

theorem Inv.step (h : Inv s) {a : Step} (hs : lts.step s a = some s') : Inv s' := by
  change AsyncLogging.step s a = some s' at hs
  unfold AsyncLogging.step at hs
  cases a with
  | start =>
      dsimp only at hs
      split at hs
      · next hc =>
          cases hs
          exact h.start hc.2
      · cases hs
  | append line =>
      dsimp only at hs
      split at hs
      · exact h.append hs
      · cases hs
  | stop =>
      dsimp only at hs
      split at hs
      · cases hs
        exact h.stop
      · cases hs
  | background => exact h.background hs
  | destroy => exact h.destroy hs

end Pieces

theorem inv_new : Inv {} :=
  ⟨⟨by simp, by simp [AsyncLogging.ready], by simp [given], by simp [finished], by simp⟩,
    fun _ => ⟨by simp, by simp [unwritten, queued, contents, bytes, FixedBuffer.new],
      by simp [FixedBuffer.new], by simp⟩,
    by simp [pastFinal], rfl, by simp⟩

theorem inv {s : AsyncLogging} (h : lts.Reach s) : Inv s :=
  h.inv (fun _ hs => hs ▸ inv_new) fun _ _ _ hi hs => hi.step hs

/-- No member is gone while the object is alive. -/
theorem Inv.not_destroyed {s : AsyncLogging} (h : Inv s) (hd : s.dtor = .alive) :
    s.destroyed = [] := by
  have horder := h.order
  rw [hd] at horder
  exact List.reverse_eq_nil_iff.mp (List.append_left_eq_self.mp horder)

/-! ### Nothing stops the two threads -/

theorem Intact.append_isSome {s : AsyncLogging} (h : Intact s) (line : Line) :
    (s.append line).isSome := by
  obtain ⟨b, hb⟩ := Option.ne_none_iff_exists'.mp h.current
  unfold AsyncLogging.append
  rw [hb]
  dsimp only
  split <;> rfl

/-- No piece of `threadFunc` follows a null pointer or fails an assertion. -/
theorem Inv.background_isSome {s : AsyncLogging} (h : Inv s) (hd : s.destroyed = [])
    (hstart : s.pc ≠ .notStarted) (hret : s.pc ≠ .returned) : (s.background).isSome := by
  obtain ⟨b, hb⟩ := Option.ne_none_iff_exists'.mp (h.intact hd).current
  have hgone : (uses s.pc).filter (· ∈ s.destroyed) = [] := by simp [hd]
  have hundef : s.pc ≠ .undefined := fun hpc => h.undefined hpc hd
  unfold AsyncLogging.background AsyncLogging.threadFunc
  rw [if_pos hgone]
  cases hpc : s.pc with
  | notStarted => exact absurd hpc hstart
  | returned => exact absurd hpc hret
  | undefined => exact absurd hpc hundef
  | begin | test | enter | writing | draining | flush => rfl
  | waiting =>
      dsimp only
      rw [AsyncLogging.swap, hb]
      rfl
  | recycle =>
      obtain ⟨b1, b2, -, -, heq⟩ := h.slots.recycle hpc
      dsimp only
      rw [heq]
      rfl
  | final =>
      dsimp only
      rw [AsyncLogging.last, hb]
      rfl

/-- While the object is alive, what was passed to `LogFile`, what waits in
`buffersToWrite`, in `buffers_` and in `currentBuffer_` are together the lines
that were appended, once and in their order; neither `append` nor `threadFunc`
gets stuck; and once `threadFunc` returned, the lines appended before its last
critical section are what was passed. -/
theorem log_delivered {s : AsyncLogging} (h : lts.Reach s) (halive : s.dtor = .alive) :
    s.passed ++ s.unwritten ++ s.queued = bytes s.appended ∧
      (s.pc = .returned → s.passed = bytes s.beforeFinal ∧ s.beforeFinal <+: s.appended) ∧
      (∀ line, (lts.step s (.append line)).isSome) ∧
      (s.pc ≠ .notStarted → s.pc ≠ .returned → (lts.step s .background).isSome) := by
  have hi := inv h
  have hd := hi.not_destroyed halive
  refine ⟨(hi.intact hd).bytes, fun hret => ?_, fun line => ?_, fun hstart hret => ?_⟩
  · obtain ⟨hbytes, hlines⟩ := hi.drained (by rw [hret]; rfl)
    have hun := unwritten_of_finished (hi.slots.finished (by rw [hret]; rfl))
    rw [hun, List.append_nil] at hbytes
    exact ⟨hbytes, hlines⟩
  · change (AsyncLogging.step s (.append line)).isSome
    rw [AsyncLogging.step, if_pos halive]
    exact (hi.intact hd).append_isSome line
  · exact hi.background_isSome hd hstart hret

/-- Two lines of three bytes; `stop()` comes when the first is being written. -/
theorem log_delivered_stopped :
    ∃ s : AsyncLogging, s.pc = .returned ∧ s.passed = [1, 2, 3, 4, 5, 6] := by
  obtain ⟨s, hs, hp⟩ := Lts.exists_reach lts
    [.start, .background, .append ⟨[1, 2, 3], by decide⟩, .background, .background, .background,
      .stop, .append ⟨[4, 5, 6], by decide⟩, .background, .background, .background, .background,
      .background, .background, .background, .background]
    (fun s => decide (s.dtor = .alive ∧ s.pc = .returned ∧
      bytes s.beforeFinal = [1, 2, 3, 4, 5, 6])) rfl (by decide +kernel)
  obtain ⟨halive, hret, hbytes⟩ := of_decide_eq_true hp
  obtain ⟨_, hpassed, _, _⟩ := log_delivered hs halive
  exact ⟨s, hret, (hpassed hret).1.trans hbytes⟩

end AsyncLogging

end Muduox.Base
