import Muduox.Base.LogPipeline
import Muduox.Lib.Cuts
import Muduox.Proofs.LogDelivery
import Muduox.Proofs.LogFlushes

/-!
# From a log line to a file

The lines are cut into buffers, the buffers become the records of the file, and
the records are cut into streams. Each of the two is coarser than the one before
(`CutAt`), so no file ends within a line. For the first, a piece of
`threadFunc` either leaves the pieces as they are, puts an empty one at the end,
or moves one from `buffersToWrite` to the records; an empty one is dropped
there.
-/

namespace Muduox.Base

namespace AsyncLogging

/-- The lines appended so far. -/
def lines (s : AsyncLogging) : List (List UInt8) := s.appended.map Subtype.val

/-- What `threadFunc` has taken and not written, buffer by buffer. -/
def taken (s : AsyncLogging) : List (List UInt8) :=
  (s.buffersToWrite.drop s.written).map FixedBuffer.data

/-- What it has not taken. -/
def waiting (s : AsyncLogging) : List (List UInt8) :=
  (s.buffers_ ++ s.currentBuffer_.toList).map FixedBuffer.data

/-- What the next piece of `threadFunc` passes on. -/
def passes (s : AsyncLogging) : Option (List UInt8) :=
  match s.pc with
  | .writing | .draining =>
      (s.buffersToWrite[s.written]?).bind fun buf => if buf.length > 0 then some buf.data else none
  | _ => none

/-- The records so far, and the buffers behind them, are cut where lines end. -/
structure Cut (records : List (List UInt8)) (s : AsyncLogging) : Prop where
  passed : records.flatten = s.passed
  taken : CutAt s.lines (records ++ s.taken)
  waiting : s.destroyed = [] → CutAt s.lines (records ++ s.taken ++ s.waiting)

variable {s s' : AsyncLogging} {records : List (List UInt8)}

theorem flatten_lines (s : AsyncLogging) : s.lines.flatten = bytes s.appended :=
  List.flatMap_def.symm

theorem flatten_taken (s : AsyncLogging) : s.taken.flatten = s.unwritten := List.flatMap_def.symm

theorem flatten_waiting (s : AsyncLogging) : s.waiting.flatten = s.queued := by
  rw [waiting, List.map_append, List.flatten_append]
  rfl

/-- All there is of the lines, where nothing is destroyed. -/
theorem Cut.total (h : Cut records s) (hi : Intact s) :
    s.lines.flatten = (records ++ s.taken ++ s.waiting).flatten := by
  rw [flatten_lines, ← hi.bytes, List.flatten_append, List.flatten_append, h.passed,
    flatten_taken, flatten_waiting]

/-- A step that touches none of it. -/
theorem Cut.congr (h : Cut records s) (hp : s'.passed = s.passed)
    (hl : s'.appended = s.appended) (ht : s'.taken = s.taken)
    (hw : s'.destroyed = [] → s.destroyed = [] ∧ s'.waiting = s.waiting) : Cut records s' := by
  have hlines : s'.lines = s.lines := congrArg (List.map _) hl
  refine ⟨by rw [hp, h.passed], by rw [hlines, ht]; exact h.taken, fun hd => ?_⟩
  obtain ⟨hd, hw⟩ := hw hd
  rw [hlines, ht, hw]
  exact h.waiting hd

/-- A line goes behind those of the last buffer, or into one of its own. -/
theorem append_waiting (hi : Intact s) {line : Line} (hs : s.append line = some s') :
    (∃ cs c, s.waiting = cs ++ [c] ∧ s'.waiting = cs ++ [c ++ line.1]) ∨
      s'.waiting = s.waiting ++ [line.1] := by
  unfold AsyncLogging.append at hs
  split at hs
  · cases hs
  · next b hb =>
      have hwait : s.waiting = s.buffers_.map FixedBuffer.data ++ [b.data] := by
        rw [waiting, hb, List.map_append]
        rfl
      dsimp only at hs
      split at hs
      · next hfit =>
          cases hs
          refine .inl ⟨_, _, hwait, ?_⟩
          rw [waiting, List.map_append, ← FixedBuffer.append_data (Nat.le_of_lt hfit)]
          rfl
      · cases hs
        have hfresh : (s.nextBuffer_.getD .new).data = [] := by
          cases hn : s.nextBuffer_ with
          | none => rfl
          | some c => exact hi.spare c hn
        have hline : ((s.nextBuffer_.getD .new).append line.1).data = line.1 := by
          rw [FixedBuffer.append_data, hfresh, List.nil_append]
          rw [FixedBuffer.avail_of_nil hfresh]
          exact line.2
        refine .inr ?_
        rw [hwait, waiting]
        simp only [Option.toList_some, List.map_append, List.map_cons, List.map_nil, hline]

theorem Cut.append (h : Cut records s) (hi : Intact s) (halive : s.destroyed = [])
    {line : Line} (hs : s.append line = some s') : Cut records s' := by
  obtain ⟨-, -, -, hbw, hwr, hp, -, ha, -, -⟩ := append_frame hs
  have hlines : s'.lines = s.lines ++ [line.1] := by
    rw [lines, ha, List.map_append]
    rfl
  have htaken : s'.taken = s.taken := by rw [AsyncLogging.taken, hbw, hwr]; rfl
  have hpre : s.lines <+: s'.lines := hlines ▸ List.prefix_append _ _
  have hall : s'.lines.flatten = (records ++ s.taken ++ s.waiting).flatten ++ line.1 := by
    rw [hlines, List.flatten_append, h.total hi, List.flatten_singleton]
  refine ⟨by rw [hp, h.passed], by rw [htaken]; exact h.taken.mono hpre, fun _ => ?_⟩
  have hcut := h.waiting halive
  rw [htaken]
  rcases append_waiting hi hs with ⟨cs, c, hc, hc'⟩ | hc'
  · rw [hc, ← List.append_assoc] at hcut hall
    rw [hc', ← List.append_assoc]
    refine hcut.extend hpre ?_
    rw [hall, List.flatten_append, List.flatten_singleton, List.append_assoc]
  · rw [hc', ← List.append_assoc]
    exact (hcut.mono hpre).snoc hall

/-- What a critical section of `threadFunc` does: it takes buffers from the front
of those that wait, and may leave an empty one at the end. -/
structure Takes (s s' : AsyncLogging) : Prop where
  all : s'.taken ++ s'.waiting = s.taken ++ s.waiting ∨
    s'.taken ++ s'.waiting = s.taken ++ s.waiting ++ [[]]
  front : s'.taken <+: s.taken ++ s.waiting
  appended : s'.appended = s.appended
  passed : s'.passed = s.passed

theorem Takes.cut (h : Takes s s') (hc : Cut records s) (halive : s.destroyed = []) :
    Cut records s' := by
  have hlines : s'.lines = s.lines := congrArg (List.map _) h.appended
  have hcut := hc.waiting halive
  rw [List.append_assoc] at hcut
  refine ⟨by rw [h.passed, hc.passed], ?_, fun _ => ?_⟩
  · rw [hlines]
    exact hcut.of_isPrefix ((List.prefix_append_right_inj records).mpr h.front)
  · rw [hlines, List.append_assoc]
    rcases h.all with he | he <;> rw [he]
    · exact hcut
    · rw [← List.append_assoc]
      exact hcut.snoc_nil

/-- The critical section of the loop takes all there is. -/
theorem swap_takes (hi : Inv s) (hpc : s.pc = .waiting) (hs : s.swap = some s') :
    Takes s s' := by
  have hidle : s.buffersToWrite = [] :=
    hi.slots.idle (by rw [hpc]; rfl) (by rw [hpc]; rfl) (by simp [hpc])
  obtain ⟨h1, -⟩ := hi.slots.ready (by rw [hpc]; rfl)
  obtain ⟨c, hc⟩ := Option.ne_none_iff_exists'.mp h1
  have hspare : c.data = [] := hi.slots.spare.1 c hc
  unfold AsyncLogging.swap at hs
  split at hs
  · cases hs
  · next b hb =>
      dsimp only at hs
      cases hs
      have ht : ∀ s' : AsyncLogging, s'.buffersToWrite = s.buffers_ ++ [b] → s'.written = 0 →
          s'.buffers_ = [] → s'.currentBuffer_ = some c →
          s'.taken ++ s'.waiting = s.taken ++ s.waiting ++ [[]] ∧
            s'.taken <+: s.taken ++ s.waiting := by
        intro s' hbw hw hbs hcur
        simp [taken, waiting, hbw, hw, hbs, hcur, hidle, hb, hspare]
      obtain ⟨hall, hfront⟩ := ht { s with
        buffersToWrite := s.buffers_ ++ [b], buffers_ := s.buffersToWrite, written := 0,
        currentBuffer_ := s.newBuffer1 } rfl rfl hidle hc
      split <;> exact ⟨.inr hall, hfront, rfl, rfl⟩

/-- The one after the loop leaves `currentBuffer_` where it is if it is empty. -/
theorem last_takes (hi : Inv s) (hpc : s.pc = .final) (hs : s.last = some s') : Takes s s' := by
  have hidle : s.buffersToWrite = [] :=
    hi.slots.idle (by rw [hpc]; rfl) (by rw [hpc]; rfl) (by simp [hpc])
  obtain ⟨h1, -⟩ := hi.slots.ready (by rw [hpc]; rfl)
  obtain ⟨c, hc⟩ := Option.ne_none_iff_exists'.mp h1
  have hspare : c.data = [] := hi.slots.spare.1 c hc
  unfold AsyncLogging.last at hs
  split at hs
  · cases hs
  · next b hb =>
      dsimp only at hs
      split at hs
      · cases hs
        refine ⟨.inr ?_, ?_, rfl, rfl⟩ <;> simp [taken, waiting, hidle, hb, hc, hspare]
      · cases hs
        refine ⟨.inl ?_, ?_, rfl, rfl⟩ <;> simp [taken, waiting, hidle, hb]

/-- A buffer becomes a record, unless it is empty. -/
theorem Cut.write (h : Cut records s) {after : BackPc}
    (hpc : s.pc = .writing ∨ s.pc = .draining) :
    Cut (records ++ s.passes.toList) (s.write after) := by
  have hpasses : s.passes = (s.buffersToWrite[s.written]?).bind fun buf =>
      if buf.length > 0 then some buf.data else none := by
    rcases hpc with hpc | hpc <;> rw [passes, hpc]
  rcases write_eq s after with ⟨b, hb, heq⟩ | ⟨hlen, heq⟩
  · obtain ⟨hlt, hget⟩ := List.getElem?_eq_some_iff.mp hb
    have htaken : s.taken = b.data :: (s.write after).taken := by
      rw [heq, AsyncLogging.taken, List.drop_eq_getElem_cons hlt, hget]
      rfl
    have hlines : (s.write after).lines = s.lines := by rw [heq]; rfl
    have hwait : (s.write after).waiting = s.waiting := by rw [heq]; rfl
    have halive : (s.write after).destroyed = s.destroyed := by rw [heq]
    have hpassed : (s.write after).passed = s.passed ++ b.data := by rw [heq]
    rw [hpasses, hb, Option.bind_some]
    by_cases hpos : b.length > 0
    · rw [if_pos hpos, Option.toList_some]
      refine ⟨?_, ?_, fun hd => ?_⟩
      · rw [List.flatten_append, List.flatten_singleton, h.passed, hpassed]
      · rw [hlines, List.append_assoc, List.singleton_append, ← htaken]
        exact h.taken
      · rw [hlines, List.append_assoc records, List.singleton_append, ← htaken, hwait]
        exact h.waiting (halive ▸ hd)
    · have hnil : b.data = [] := List.length_eq_zero_iff.mp (Nat.eq_zero_of_not_pos hpos)
      rw [hnil] at htaken hpassed
      rw [if_neg hpos, Option.toList_none, List.append_nil]
      refine ⟨?_, ?_, fun hd => ?_⟩
      · rw [h.passed, hpassed, List.append_nil]
      · rw [hlines]
        exact CutAt.erase_nil (htaken ▸ h.taken)
      · rw [hlines, hwait, List.append_assoc]
        refine CutAt.erase_nil ?_
        rw [← List.cons_append, ← htaken, ← List.append_assoc]
        exact h.waiting (halive ▸ hd)
  · rw [hpasses, List.getElem?_eq_none hlen, heq]
    refine Cut.congr (s := s) ?_ rfl rfl rfl fun hd => ⟨hd, rfl⟩
    rw [Option.bind_none, Option.toList_none, List.append_nil]
    exact h

/-- The pieces of `threadFunc`, one after the other. -/
theorem Cut.threadFunc (h : Cut records s) (hi : Inv s)
    (halive : s.pc = .waiting ∨ s.pc = .final → s.destroyed = [])
    (hs : s.threadFunc = some s') : Cut (records ++ s.passes.toList) s' := by
  have hquiet : s.pc ≠ .writing → s.pc ≠ .draining → records ++ s.passes.toList = records := by
    intro hw hd
    have hnone : s.passes = none := by
      unfold passes
      split
      · next hpc => exact absurd hpc hw
      · next hpc => exact absurd hpc hd
      · rfl
    rw [hnone, Option.toList_none, List.append_nil]
  unfold AsyncLogging.threadFunc at hs
  cases hpc : s.pc with
  | notStarted | returned | undefined => rw [hpc] at hs; cases hs
  | begin | test | enter | flush =>
      rw [hpc] at hs
      cases hs
      rw [hquiet (by simp [hpc]) (by simp [hpc])]
      exact h.congr rfl rfl rfl fun hd => ⟨hd, rfl⟩
  | waiting =>
      rw [hpc] at hs
      rw [hquiet (by simp [hpc]) (by simp [hpc])]
      exact (swap_takes hi hpc hs).cut h (halive (.inl hpc))
  | final =>
      rw [hpc] at hs
      rw [hquiet (by simp [hpc]) (by simp [hpc])]
      exact (last_takes hi hpc hs).cut h (halive (.inr hpc))
  | writing =>
      rw [hpc] at hs
      cases hs
      exact h.write (.inl hpc)
  | draining =>
      rw [hpc] at hs
      cases hs
      exact h.write (.inr hpc)
  | recycle =>
      rw [hpc] at hs
      rw [hquiet (by simp [hpc]) (by simp [hpc])]
      obtain ⟨b1, b2, -, -, heq⟩ := hi.slots.recycle hpc
      cases heq.symm.trans hs
      have hdone : s.taken = [] := by
        rw [AsyncLogging.taken, List.drop_eq_nil_of_le (hi.slots.finished (by rw [hpc]; rfl))]
        rfl
      refine h.congr rfl rfl ?_ fun hd => ⟨hd, rfl⟩
      rw [hdone]
      rfl

/-- `threadFunc` goes on, or uses a member that is gone. -/
theorem background_cases (hi : Inv s) (hs : s.background = some s') :
    s.threadFunc = some s' ∧ (s.pc = .waiting ∨ s.pc = .final → s.destroyed = []) ∨
      s'.pc = .undefined ∧ s.passes = none ∧ uses s.pc ≠ [] ∧
        ∃ gone, s' = { s with misused := gone, pc := .undefined } := by
  unfold AsyncLogging.background at hs
  dsimp only at hs
  split at hs
  · next hgone =>
      refine .inl ⟨hs, fun hpc => Decidable.byContradiction fun hd => ?_⟩
      -- These pieces use `buffers_`.
      have hmem : Member.buffers_ ∈ uses s.pc := by
        rcases hpc with hpc | hpc <;> rw [hpc] <;> decide
      have := List.filter_eq_nil_iff.mp hgone _ hmem
      exact this (by simpa using hi.buffers_gone hd)
  · next hgone =>
      cases hs
      have huses : uses s.pc ≠ [] := by
        intro hnil
        rw [hnil] at hgone
        exact hgone rfl
      refine .inr ⟨rfl, ?_, huses, _, rfl⟩
      unfold passes
      split
      · next hpc => exact absurd (by rw [hpc]; rfl) huses
      · next hpc => exact absurd (by rw [hpc]; rfl) huses
      · rfl

/-- `threadFunc` has not constructed `output`. -/
def early : BackPc → Bool
  | .notStarted | .begin => true
  | _ => false

/-- Where `threadFunc` goes from where. -/
theorem threadFunc_pc (hs : s.threadFunc = some s') :
    s.pc ≠ .returned ∧ s'.pc ≠ .undefined ∧ early s'.pc = false ∧
      (early s.pc = true → s.pc = .begin) ∧ (s.pc = .begin → s'.pc = .test) ∧
        (s'.pc = .returned ↔ s.pc = .flush) := by
  have hwrite : ∀ after, (s.write after).pc = s.pc ∨ (s.write after).pc = after := by
    intro after
    rcases write_eq s after with ⟨b, -, heq⟩ | ⟨-, heq⟩ <;> rw [heq]
    · exact .inl rfl
    · exact .inr rfl
  unfold AsyncLogging.threadFunc at hs
  cases hpc : s.pc with
  | notStarted | returned | undefined => rw [hpc] at hs; cases hs
  | begin | enter | flush =>
      rw [hpc] at hs
      cases hs
      simp [early]
  | test =>
      rw [hpc] at hs
      cases hs
      cases s.stopRequested <;> simp [early]
  | writing =>
      rw [hpc] at hs
      cases hs
      rcases hwrite .recycle with h | h <;> simp [h, hpc, early]
  | draining =>
      rw [hpc] at hs
      cases hs
      rcases hwrite .flush with h | h <;> simp [h, hpc, early]
  | waiting =>
      rw [hpc] at hs
      have h : s'.pc = .writing := by
        change s.swap = some s' at hs
        unfold AsyncLogging.swap at hs
        split at hs
        · cases hs
        · cases hs
          split <;> rfl
      simp [h, early]
  | recycle =>
      rw [hpc] at hs
      have h : s'.pc = .test := by
        obtain ⟨_, _, hs⟩ := Option.bind_eq_some_iff.mp hs
        obtain ⟨_, _, rfl⟩ := Option.map_eq_some_iff.mp hs
        rfl
      simp [h, early]
  | final =>
      rw [hpc] at hs
      have h : s'.pc = .draining := by
        change s.last = some s' at hs
        unfold AsyncLogging.last at hs
        split at hs
        · cases hs
        · cases hs
          split <;> rfl
      simp [h, early]

/-- The other steps leave `threadFunc` where it is, or begin it. -/
theorem step_pc {a : Step} (ha : a ≠ .background) (hs : lts.step s a = some s') :
    s'.pc = s.pc ∨ s.pc = .notStarted ∧ s'.pc = .begin := by
  change AsyncLogging.step s a = some s' at hs
  unfold AsyncLogging.step at hs
  cases a with
  | background => exact absurd rfl ha
  | start =>
      dsimp only at hs
      split at hs
      · next hc =>
          cases hs
          exact .inr ⟨hc.2, rfl⟩
      · cases hs
  | append line =>
      dsimp only at hs
      split at hs
      · exact .inl (append_frame hs).1
      · cases hs
  | stop =>
      dsimp only at hs
      split at hs
      · cases hs
        exact .inl rfl
      · cases hs
  | destroy =>
      change s.destroy = some s' at hs
      unfold AsyncLogging.destroy at hs
      split at hs
      · cases hs
        exact .inl rfl
      · next m ms _ =>
          cases hs
          exact .inl (clear_frame s m).1
      · split at hs
        · cases hs
          exact .inl rfl
        · cases hs
      · cases hs

theorem pc_of_passes {data : List UInt8} (h : s.passes = some data) :
    s.pc = .writing ∨ s.pc = .draining := by
  unfold passes at h
  split at h
  · next hpc => exact .inl hpc
  · next hpc => exact .inr hpc
  · cases h

/-- What a step passes on. -/
def Step.passes (s : AsyncLogging) : Step → Option (List UInt8)
  | .background => s.passes
  | .start | .append _ | .stop | .destroy => none

theorem Cut.step (h : Cut records s) (hi : Inv s) {a : Step} (hs : lts.step s a = some s') :
    Cut (records ++ (a.passes s).toList) s' := by
  change AsyncLogging.step s a = some s' at hs
  unfold AsyncLogging.step at hs
  cases a with
  | background =>
      rcases background_cases hi hs with ⟨hf, halive⟩ | ⟨-, hnone, -, gone, rfl⟩
      · exact h.threadFunc hi halive hf
      · rw [Step.passes, hnone, Option.toList_none, List.append_nil]
        exact h.congr rfl rfl rfl fun hd => ⟨hd, rfl⟩
  | start | stop =>
      dsimp only at hs
      rw [Step.passes, Option.toList_none, List.append_nil]
      split at hs
      · cases hs
        exact h.congr rfl rfl rfl fun hd => ⟨hd, rfl⟩
      · cases hs
  | append line =>
      dsimp only at hs
      rw [Step.passes, Option.toList_none, List.append_nil]
      split at hs
      · next halive =>
          have hd := hi.not_destroyed halive
          exact h.append (hi.intact hd) hd hs
      · cases hs
  | destroy =>
      dsimp only at hs
      rw [Step.passes, Option.toList_none, List.append_nil]
      unfold AsyncLogging.destroy at hs
      split at hs
      · cases hs
        exact h.congr rfl rfl rfl fun hd => ⟨hd, rfl⟩
      · next m ms _ =>
          cases hs
          obtain ⟨-, -, -, hw, hn, hp, -, ha⟩ := clear_frame s m
          refine h.congr (by exact hp) (by exact ha) ?_ fun hd => by cases hd
          show (((s.clear m).buffersToWrite.drop (s.clear m).written).map _) = _
          rw [hw, hn]
          rfl
      · split at hs
        · cases hs
          exact h.congr rfl rfl rfl fun hd => ⟨hd, rfl⟩
        · cases hs
      · cases hs

end AsyncLogging

/-! ## Down to the files -/

namespace LogPipeline

open AsyncLogging (Step early)
open LogRun

variable {host : Host} {cfg : LogConfig}

/-- The records `output` was given. -/
def records (p : LogPipeline) : List (List UInt8) := p.output.toList.flatMap LogRun.appended

/-- What a step does to `output`. -/
inductive Writes (host : Host) (cfg : LogConfig) (p : LogPipeline) (o : Outcome) :
    Step → AsyncLogging → Option LogRun → Prop
  | same {a : Step} {log : AsyncLogging} (hpasses : a.passes p.log = none)
      (hpc : log.pc = .returned ↔ p.log.pc = .returned) (hearly : early log.pc = early p.log.pc) :
      Writes host cfg p o a log p.output
  | opened {log : AsyncLogging} {file : LogFile} (hpasses : p.log.passes = none)
      (hpc : p.log.pc = .begin) (hlog : log.pc = .test)
      (hnew : LogFile.new host cfg.basename_ cfg.rollSize_ cfg.flushInterval_ kCheckEveryN o.now
        o.opens = some file) :
      Writes host cfg p o .background log (some { file, clock := o.now })
  | append {log : AsyncLogging} {data : List UInt8} (hpasses : p.log.passes = some data)
      (hcall : call p.log o = some (.append data o)) (hpc : log.pc ≠ .returned)
      (hearly : early log.pc = early p.log.pc) :
      Writes host cfg p o .background log (p.output.map (·.call host (.append data o)))
  | close {log : AsyncLogging} (hpasses : p.log.passes = none) (hpc : p.log.pc = .flush)
      (hlog : log.pc = .returned) :
      Writes host cfg p o .background log
        (p.output.map fun r => closeOutput (r.call host (.flush o.now)) o.now)

/-- The steps of the others do not touch `output`. -/
theorem step_other {p p' : LogPipeline} {a : Step} {o : Outcome} (ha : a ≠ .background)
    (hs : (lts host cfg).step p (a, o) = some p') :
    AsyncLogging.lts.step p.log a = some p'.log ∧ p'.output = p.output := by
  have hmap : (AsyncLogging.lts.step p.log a).map (fun log => { p with log }) = some p' := by
    cases a with
    | background => exact absurd rfl ha
    | start | append | stop | destroy => exact hs
  obtain ⟨log, hlog, rfl⟩ := Option.map_eq_some_iff.mp hmap
  exact ⟨hlog, rfl⟩

theorem step_log {p p' : LogPipeline} {a : Step} {o : Outcome}
    (hs : (lts host cfg).step p (a, o) = some p') :
    AsyncLogging.lts.step p.log a = some p'.log := by
  by_cases ha : a = .background
  · subst ha
    obtain ⟨log, hlog, hs⟩ := Option.bind_eq_some_iff.mp hs
    split at hs
    · cases hs
      exact hlog
    · split at hs
      · obtain ⟨file, -, rfl⟩ := Option.map_eq_some_iff.mp hs
        exact hlog
      · cases hs
        exact hlog
  · exact (step_other ha hs).1

/-- The pieces of `threadFunc` that call `append` are those that pass something on. -/
theorem call_eq {s : AsyncLogging} {o : Outcome} (hpc : s.pc ≠ .flush) :
    call s o = s.passes.map (.append · o) := by
  have hbuf : ∀ buf : Option Buffer,
      (buf.bind fun buf => if buf.length > 0 then some (LogCall.append buf.data o) else none) =
        (buf.bind fun buf => if buf.length > 0 then some buf.data else none).map
          (.append · o) := by
    intro buf
    cases buf with
    | none => rfl
    | some buf =>
        rw [Option.bind_some, Option.bind_some]
        split <;> rfl
  cases hs : s.pc <;> simp only [call, AsyncLogging.passes, hs, hbuf] <;> first
    | rfl
    | exact absurd hs hpc

theorem background_writes {p p' : LogPipeline} {o : Outcome} (hi : AsyncLogging.Inv p.log)
    (hs : (lts host cfg).step p (.background, o) = some p') :
    Writes host cfg p o .background p'.log p'.output := by
  obtain ⟨log, hlog, hs⟩ := Option.bind_eq_some_iff.mp hs
  rcases AsyncLogging.background_cases hi hlog with ⟨hf, -⟩ | ⟨hpc, hnone, huses, gone, rfl⟩
  · obtain ⟨hne, hundef, hearly, hbegin, htest, hret⟩ := AsyncLogging.threadFunc_pc hf
    rw [if_neg hundef] at hs
    split at hs
    · next hpc =>
        obtain ⟨file, hnew, rfl⟩ := Option.map_eq_some_iff.mp hs
        refine .opened ?_ hpc (htest hpc) hnew
        rw [AsyncLogging.passes, hpc]
    · next hpc =>
        cases hs
        have hsame : early log.pc = early p.log.pc :=
          hearly.trans (Bool.eq_false_iff.mpr fun h => hpc (hbegin h)).symm
        by_cases hflush : p.log.pc = .flush
        · have hpasses : p.log.passes = none := by rw [AsyncLogging.passes, hflush]
          have hclose : Writes host cfg p o .background log _ :=
            .close hpasses hflush (hret.mpr hflush)
          dsimp only
          rw [write, call, hflush, if_pos rfl]
          dsimp only
          rw [Option.map_map]
          exact hclose
        · dsimp only
          rw [write, call_eq hflush, if_neg hflush]
          cases hpasses : p.log.passes with
          | none =>
              exact .same hpasses (iff_of_false (fun h => hflush (hret.mp h)) hne) hsame
          | some data =>
              refine .append hpasses ?_ (fun h => hflush (hret.mp h)) hsame
              rw [call_eq hflush, hpasses]
              rfl
  · rw [if_pos hpc] at hs
    cases hs
    have hearly : early p.log.pc = false := by
      cases h : p.log.pc <;> first
        | rfl
        | exact absurd (by rw [h]; rfl) huses
    refine .same hnone (iff_of_false (fun h => by cases h) fun h => huses ?_) hearly.symm
    rw [h]
    rfl

theorem step_writes {p p' : LogPipeline} {a : Step} {o : Outcome} (hi : AsyncLogging.Inv p.log)
    (hs : (lts host cfg).step p (a, o) = some p') : Writes host cfg p o a p'.log p'.output := by
  by_cases ha : a = .background
  · subst ha
    exact background_writes hi hs
  · obtain ⟨hlog, hout⟩ := step_other ha hs
    rw [hout]
    have hnone : a.passes p.log = none := by
      cases a with
      | background => exact absurd rfl ha
      | start | append | stop | destroy => rfl
    rcases AsyncLogging.step_pc ha hlog with h | ⟨h, h'⟩
    · exact .same hnone (by rw [h]) (by rw [h])
    · exact .same hnone (by rw [h, h']; simp) (by rw [h, h']; rfl)

/-- What the file's calls meet does not go wrong: the constructor opens a stream,
`fwrite` takes all it is given, and `fopen` succeeds. The clock may read anything. -/
def Smooth (host : Host) (cfg : LogConfig) (p : LogPipeline) : Step × Outcome → Prop
  | (.background, o) =>
      (p.log.pc = .begin → ∀ file ∈ LogFile.new host cfg.basename_ cfg.rollSize_
        cfg.flushInterval_ kCheckEveryN o.now o.opens, file.fp_.isSome) ∧
      ∀ c ∈ call p.log o, ∀ r ∈ p.output, r.WritesAll c ∧ Opens c
  | (.start, _) | (.append _, _) | (.stop, _) | (.destroy, _) => True

instance : ∀ (p : LogPipeline) (a : Step × Outcome), Decidable (Smooth host cfg p a)
  | _, (.background, _) => inferInstanceAs (Decidable (_ ∧ _))
  | _, (.start, _) | _, (.append _, _) | _, (.stop, _) | _, (.destroy, _) => .isTrue trivial

/-- What is known of `output`, up to its end and after. -/
structure Written (pc : BackPc) (r : LogRun) : Prop where
  holds : LogFile.Holds r.appended r.file.streams
  tidy : pc ≠ .returned → r.file.Tidy
  clean : pc = .returned → r.file.Flushed

structure Piped (p : LogPipeline) : Prop where
  log : AsyncLogging.Inv p.log
  cut : AsyncLogging.Cut p.records p.log
  absent : p.output.isNone = early p.log.pc
  written : ∀ r ∈ p.output, Written p.log.pc r

theorem piped_init : Piped {} := by
  refine ⟨AsyncLogging.inv_new, ⟨rfl, ?_, fun _ => ?_⟩, rfl, by simp⟩
  · exact CutAt.nil _
  · exact (CutAt.nil _).snoc_nil

theorem tidy_init {r : LogRun} (h : (LogRun.opened host).init r) : r.file.Tidy := by
  obtain ⟨f, now, hfp, hclosed, hlt, rfl⟩ := opened_init h
  rw [LogFile.rollFile_opened hlt]
  exact ⟨_, rfl, Nat.le_refl _, by simp [LogFile.close, hclosed, hfp]⟩

theorem tidy_flush {f : LogFile} {now : Int} (h : f.Tidy) : (f.flush now).Tidy := by
  obtain ⟨fp, hfp, -, hclosed⟩ := h
  exact ⟨fp.fflush now, by rw [LogFile.flush, hfp]; rfl, Nat.le_refl _, hclosed⟩

theorem flushed_close {f : LogFile} {now : Int} (h : f.Tidy) : (f.close now).Flushed := by
  intro fp hfp
  rw [LogFile.streams, show (f.close now).fp_ = none from rfl, Option.toList_none,
    List.append_nil] at hfp
  exact LogFile.closed_close h fp hfp

theorem records_some {p : LogPipeline} {r : LogRun} (h : p.output = some r) :
    p.records = r.appended := by
  rw [records, h]
  exact List.flatMap_singleton ..

theorem Piped.output_some {p : LogPipeline} (h : Piped p) (hpc : early p.log.pc = false) :
    ∃ r, p.output = some r := by
  rw [← h.absent, Option.isNone_eq_false_iff] at hpc
  exact Option.isSome_iff_exists.mp hpc

theorem Piped.step {p p' : LogPipeline} {b : Step × Outcome} (h : Piped p)
    (hsmooth : Smooth host cfg p b) (hs : (lts host cfg).step p b = some p') : Piped p' := by
  obtain ⟨a, o⟩ := b
  have hcut := h.cut.step h.log (step_log hs)
  have hinv := h.log.step (step_log hs)
  have hw := step_writes h.log hs
  obtain ⟨log, output⟩ := p'
  cases hw with
  | same hpasses hpc hearly =>
      rw [hpasses, Option.toList_none, List.append_nil] at hcut
      refine ⟨hinv, hcut, h.absent.trans hearly.symm, fun r hr => ?_⟩
      obtain ⟨hholds, htidy, hclean⟩ := h.written r hr
      exact ⟨hholds, fun hne => htidy fun hret => hne (hpc.mpr hret),
        fun hret => hclean (hpc.mp hret)⟩
  | opened hpasses hpc hlog hnew =>
      have hrec : p.records = [] := by
        rw [records, Option.isNone_iff_eq_none.mp (h.absent.trans (by rw [hpc]; rfl))]
        rfl
      rw [AsyncLogging.Step.passes, hpasses, hrec] at hcut
      have hinit : (LogRun.opened host).init _ :=
        ⟨⟨_, _, _, _, _, _, _, hnew, rfl⟩, hsmooth.1 hpc _ hnew⟩
      refine ⟨hinv, hcut, ?_, fun r hr => ?_⟩
      · rw [show log.pc = .test from hlog]
        rfl
      · cases hr
        exact ⟨(rolling_init hinit).holds, fun _ => tidy_init hinit,
          fun hret => by cases hlog.symm.trans hret⟩
  | @append _ data hpasses hcall hret hearly =>
      have hpc := AsyncLogging.pc_of_passes hpasses
      obtain ⟨r, hout⟩ := h.output_some (by rcases hpc with hpc | hpc <;> rw [hpc] <;> rfl)
      have htidy := (h.written r hout).tidy (by rcases hpc with hpc | hpc <;> rw [hpc] <;> simp)
      obtain ⟨hall, hopens⟩ : r.WritesAll (.append data o) ∧ _ := hsmooth.2 _ hcall r hout
      obtain ⟨fp, hfp, -⟩ := id htidy
      rw [AsyncLogging.Step.passes, hpasses, records_some hout] at hcut
      rw [hout] at hs hinv hcut ⊢
      refine ⟨hinv, by rw [records_some rfl]; exact hcut, hearly.symm ▸ ?_, fun r' hr' => ?_⟩
      · rw [← h.absent, hout]
        rfl
      · cases hr'
        exact ⟨LogFile.holds_append hfp (hall fp hfp) (h.written r hout).holds,
          fun _ => LogFile.tidy_append hopens htidy, fun hr => absurd hr hret⟩
  | close hpasses hpc hlog =>
      obtain ⟨r, hout⟩ := h.output_some (by rw [hpc]; rfl)
      have htidy := (h.written r hout).tidy (by rw [hpc]; simp)
      rw [AsyncLogging.Step.passes, hpasses, records_some hout, Option.toList_none,
        List.append_nil] at hcut
      rw [hout] at hs hinv hcut ⊢
      refine ⟨hinv, by rw [records_some rfl]; exact hcut, ?_, fun r' hr' => ?_⟩
      · rw [show log.pc = .returned from hlog]
        rfl
      · cases hr'
        exact ⟨LogFile.holds_close _ (LogFile.holds_flush (h.written r hout).holds),
          fun hne => absurd hlog hne,
          fun _ => flushed_close (tidy_flush htidy)⟩

theorem piped {p : LogPipeline} (h : Lts.ReachIf (lts host cfg) (Smooth host cfg) p) : Piped p :=
  h.inv (fun _ hp => hp ▸ piped_init) fun _ _ _ hI hC hs => hI.step hC hs

/-- The records are cut into the files. -/
theorem Piped.holds {p : LogPipeline} (h : Piped p) : LogFile.Holds p.records p.files := by
  cases hout : p.output with
  | none =>
      rw [records, files, hout]
      exact ⟨[], rfl, rfl⟩
  | some r =>
      rw [records_some hout, files, hout, Option.toList_some, List.flatMap_singleton]
      exact (h.written r hout).holds

theorem Piped.flatten {p : LogPipeline} (h : Piped p) :
    (p.files.map FILE.bytes).flatten = p.log.passed := h.holds.flatten.trans h.cut.passed

/-- The files are cut only where a line ends, and hold the lines in their order
from the first on. While the logger is alive, what is not in them waits in its
buffers. Once `threadFunc` has returned, they hold all lines appended before its
last critical section, and the operating system has all of it. -/
theorem files_hold_lines {p : LogPipeline} (h : Lts.ReachIf (lts host cfg) (Smooth host cfg) p) :
    CutAt p.log.lines (p.files.map FILE.bytes) ∧
      (p.log.dtor = .alive →
        (p.files.map FILE.bytes).flatten ++ p.log.unwritten ++ p.log.queued =
          bytes p.log.appended) ∧
      (p.log.pc = .returned →
        (p.files.map FILE.bytes).flatten = bytes p.log.beforeFinal ∧
          p.log.beforeFinal <+: p.log.appended ∧ ∀ fp ∈ p.files, fp.Clean) := by
  have hp := piped h
  refine ⟨?_, fun halive => ?_, fun hret => ?_⟩
  · obtain ⟨groups, hrec, hgroups⟩ := hp.holds
    rw [← hgroups]
    refine CutAt.trans ?_ (CutAt.groups groups)
    rw [hrec]
    exact hp.cut.taken.of_isPrefix (List.prefix_append _ _)
  · rw [hp.flatten]
    exact (hp.log.intact (hp.log.not_destroyed halive)).bytes
  · obtain ⟨hbytes, hlines⟩ := hp.log.drained (by rw [hret]; rfl)
    have hun := AsyncLogging.unwritten_of_finished
      (hp.log.slots.finished (by rw [hret]; rfl))
    rw [hun, List.append_nil] at hbytes
    refine ⟨hp.flatten.trans hbytes, hlines, fun fp hfp => ?_⟩
    obtain ⟨r, hr, hfp⟩ := List.mem_flatMap.mp hfp
    exact (hp.written r (Option.mem_toList.mp hr)).clean hret fp hfp

/-- Two lines, `stop()` in between, each of which fills its file. -/
theorem files_hold_lines_two : ∃ p : LogPipeline, p.files.length = 3 ∧
    CutAt p.log.lines (p.files.map FILE.bytes) ∧
      (p.files.map FILE.bytes).flatten = [1, 2, 3, 4, 5, 6] ∧ ∀ fp ∈ p.files, fp.Clean := by
  obtain ⟨p, hp, ht⟩ := Lts.exists_reachIf (lts ⟨fun _ => "", 7⟩ ⟨"app", 2, 3⟩)
    (Smooth ⟨fun _ => "", 7⟩ ⟨"app", 2, 3⟩)
    ([.start, .background, .append ⟨[1, 2, 3], Nat.le_of_ble_eq_true rfl⟩, .background,
      .background, .background, .stop, .append ⟨[4, 5, 6], Nat.le_of_ble_eq_true rfl⟩,
      .background, .background, .background, .background, .background, .background,
      .background, .background].mapIdx fun i a =>
        (a, ⟨9, i + 1, i + 1, true⟩))
    (fun p => decide (p.log.pc = .returned ∧ p.files.length = 3 ∧
      bytes p.log.beforeFinal = [1, 2, 3, 4, 5, 6])) rfl (by decide +kernel)
  obtain ⟨hret, hlen, hbytes⟩ := of_decide_eq_true ht
  obtain ⟨hcut, -, hend⟩ := files_hold_lines hp
  obtain ⟨hflat, -, hclean⟩ := hend hret
  exact ⟨p, hlen, hcut, hflat.trans hbytes, hclean⟩

end LogPipeline

end Muduox.Base
