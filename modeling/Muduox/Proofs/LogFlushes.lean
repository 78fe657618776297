import Muduox.Proofs.LogRolls

/-!
# When a log file is flushed

`LogFile.h` promises a flush every `flushInterval` seconds *or* `checkEveryN`
writes. `append_unlocked` looks at the clock only every `checkEveryN_` writes,
and flushes only if `flushInterval_` seconds have passed as well; and an append
over `rollSize_` that may not roll yet does neither, nor does it count.
-/

namespace Muduox.Base

namespace LogFile

variable {host : Host} {f : LogFile} {now : Int} {logline : List UInt8} {o : Outcome} {fp : FILE}

/-- The append hands over everything written so far: it rolls in a later second
than the last roll, or it flushes. -/
def HandsOver (f : LogFile) (logline : List UInt8) (o : Outcome) : Prop :=
  ∃ fp ∈ f.fp_,
    if (f.write fp logline o).Exceeds then f.lastRoll_ < o.rollNow
    else f.Checks ∧ if f.NewDay o.now then f.lastRoll_ < o.rollNow else f.Elapsed o.now

/-- There is nothing to hand over. -/
def Idle (f : LogFile) (logline : List UInt8) (o : Outcome) : Prop :=
  f.Flushed ∧ ∀ fp ∈ f.fp_, (fp.fwrite logline o.takes).2 = 0

instance (f : LogFile) (logline : List UInt8) (o : Outcome) : Decidable (f.HandsOver logline o) :=
  inferInstanceAs (Decidable (∃ fp ∈ f.fp_, _))

instance (f : LogFile) (logline : List UInt8) (o : Outcome) : Decidable (f.Idle logline o) :=
  inferInstanceAs (Decidable (_ ∧ ∀ fp ∈ f.fp_, _))

/-- A stream is open, and those that are closed were flushed. -/
def Tidy (f : LogFile) : Prop :=
  ∃ fp, f.fp_ = some fp ∧ fp.flushed ≤ fp.bytes.length ∧ ∀ c ∈ f.closed, c.Clean

theorem flushed_iff (hfp : f.fp_ = some fp) : f.Flushed ↔ (∀ c ∈ f.closed, c.Clean) ∧ fp.Clean := by
  rw [Flushed, streams_of_some hfp, List.forall_mem_append, List.forall_mem_singleton]

theorem tidy_write (hfp : f.fp_ = some fp) (h : f.Tidy) : (f.write fp logline o).Tidy := by
  obtain ⟨fp', hfp', hle, hclosed⟩ := h
  cases hfp.symm.trans hfp'
  refine ⟨_, rfl, Nat.le_trans hle ?_, hclosed⟩
  rw [FILE.fwrite, List.length_append]
  omega

theorem flushed_write (hfp : f.fp_ = some fp) (h : f.Tidy) :
    (f.write fp logline o).Flushed ↔ f.Idle logline o := by
  obtain ⟨fp', hfp', hle, hclosed⟩ := h
  cases hfp.symm.trans hfp'
  have hlen : (fp.fwrite logline o.takes).1.bytes.length =
      fp.bytes.length + (fp.fwrite logline o.takes).2 := List.length_append
  have hflushed : (fp.fwrite logline o.takes).1.flushed = fp.flushed := rfl
  rw [flushed_iff rfl, Idle, flushed_iff hfp]
  simp only [FILE.Clean, hlen, hflushed, hfp, Option.mem_some_iff, forall_eq']
  constructor
  · rintro ⟨hc, heq⟩
    exact ⟨⟨hc, by omega⟩, by omega⟩
  · rintro ⟨⟨hc, heq⟩, hzero⟩
    exact ⟨hc, by omega⟩

theorem closed_close (h : f.Tidy) : ∀ c ∈ (f.close now).closed, c.Clean := by
  obtain ⟨fp, hfp, -, hclosed⟩ := h
  rw [close, hfp]
  exact List.forall_mem_append.mpr ⟨hclosed, by simp [FILE.Clean, FILE.fflush]⟩

theorem tidy_rollFile (h : f.Tidy) : (f.rollFile host now true).1.Tidy := by
  by_cases hlt : f.lastRoll_ < now
  · rw [rollFile_opened hlt]
    exact ⟨_, rfl, Nat.le_refl _, closed_close h⟩
  · rw [rollFile_refused (by omega)]
    exact h

theorem flushed_rollFile (h : f.Tidy) :
    (f.rollFile host now true).1.Flushed ↔ f.lastRoll_ < now ∨ f.Flushed := by
  by_cases hlt : f.lastRoll_ < now
  · rw [rollFile_opened hlt, flushed_iff rfl]
    simp only [hlt, true_or, iff_true]
    exact ⟨closed_close h, rfl⟩
  · rw [rollFile_refused (by omega)]
    simp only [hlt, false_or]

theorem tidy_append (ho : o.opens = true) (h : f.Tidy) :
    (f.append_unlocked host logline o).Tidy := by
  have hwrite : ∀ {fp}, f.fp_ = some fp → (f.write fp logline o).Tidy :=
    fun hfp => tidy_write hfp h
  generalize happ : f.append_unlocked host logline o = f'
  cases happ ▸ appends host f logline o with
  | null _ => exact h
  | size hfp _ =>
      rw [ho]
      exact tidy_rollFile (by exact hwrite hfp)
  | day hfp _ _ _ =>
      rw [ho]
      exact tidy_rollFile (by exact hwrite hfp)
  | flush hfp _ _ _ _ =>
      obtain ⟨_, _, _, hclosed⟩ := h
      exact ⟨_, rfl, Nat.le_refl _, hclosed⟩
  | write hfp _ _ => exact hwrite hfp

/-- An append leaves nothing behind iff it hands everything over or there was
nothing. -/
theorem flushed_append (ho : o.opens = true) (h : f.Tidy) :
    (f.append_unlocked host logline o).Flushed ↔ f.HandsOver logline o ∨ f.Idle logline o := by
  obtain ⟨fp, hfp, -, hclosed⟩ := id h
  have hover : f.HandsOver logline o ↔
      if (f.write fp logline o).Exceeds then f.lastRoll_ < o.rollNow
      else f.Checks ∧ if f.NewDay o.now then f.lastRoll_ < o.rollNow else f.Elapsed o.now := by
    simp only [HandsOver, hfp, Option.mem_some_iff, exists_eq_left']
  rw [hover]
  have hwrite : (f.write fp logline o).Flushed ↔ f.Idle logline o := flushed_write hfp h
  have htidy : (f.write fp logline o).Tidy := tidy_write hfp h
  generalize happ : f.append_unlocked host logline o = f'
  cases happ ▸ appends host f logline o with
  | null hnone => rw [hfp] at hnone; cases hnone
  | size hfp' hsize =>
      cases hfp.symm.trans hfp'
      rw [ho, flushed_rollFile htidy, hwrite, if_pos hsize]
      rfl
  | day hfp' hsize hcheck hday =>
      cases hfp.symm.trans hfp'
      rw [ho, flushed_rollFile (by exact htidy), if_neg hsize, if_pos hday, and_iff_right hcheck, ← hwrite]
      rfl
  | flush hfp' hsize hcheck hday helapsed =>
      cases hfp.symm.trans hfp'
      rw [if_neg hsize, if_neg hday, flushed_iff rfl]
      exact iff_of_true ⟨hclosed, rfl⟩ (.inl ⟨hcheck, helapsed⟩)
  | write hfp' hsize hquiet =>
      cases hfp.symm.trans hfp'
      rw [if_neg hsize, ← hwrite]
      have hnot : ¬ (f.Checks ∧ if f.NewDay o.now then f.lastRoll_ < o.rollNow
          else f.Elapsed o.now) := by
        rintro ⟨hcheck, hrest⟩
        by_cases hday : f.NewDay o.now
        · exact hquiet ⟨hcheck, .inl hday⟩
        · exact hquiet ⟨hcheck, .inr (by rwa [if_neg hday] at hrest)⟩
      rw [or_iff_right hnot]
      rfl

end LogFile

namespace LogRun

open LogFile

variable {host : Host}

/-- An append that is due hands everything over, unless there is nothing. -/
def Prompt (r : LogRun) : LogCall → Prop
  | .append logline o => r.file.Due o → r.file.HandsOver logline o ∨ r.file.Idle logline o
  | .flush _ | .rollFile _ _ => True

instance : ∀ (r : LogRun) (a : LogCall), Decidable (r.Prompt a)
  | _, .append _ _ => inferInstanceAs (Decidable (_ → _ ∨ _))
  | _, .flush _ | _, .rollFile _ _ => .isTrue trivial

theorem missed_append {r : LogRun} {logline : List UInt8} {o : Outcome} (ho : o.opens = true)
    (h : r.file.Tidy) :
    (r.call host (.append logline o)).missed = 0 ↔ r.missed = 0 ∧ r.Prompt (.append logline o) := by
  have hflushed : (r.file.append_unlocked host logline o).Flushed ↔ _ := flushed_append ho h
  simp only [call, Prompt, ← hflushed]
  split
  · next hleft =>
      constructor
      · omega
      · exact fun hkept => absurd (hkept.2 hleft.1) hleft.2
  · next hkept =>
      have hprompt : r.file.Due o → (r.file.append_unlocked host logline o).Flushed :=
        fun hdue => Decidable.of_not_not fun hnot => hkept ⟨hdue, hnot⟩
      rw [Nat.add_zero]
      exact (and_iff_left hprompt).symm

/-- A sequence of appends leaves bytes behind in none that is due iff each of
those that are due rolls in a later second than the last roll, or reaches the
flush. -/
theorem flushes_when_due {r₀ r : LogRun} {as : List LogCall} (hinit : (opened host).init r₀)
    (hrun : (opened host).runIf (fun _ a => IsAppend a ∧ Opens a) r₀ as = some r) :
    r.missed = 0 ↔ ((opened host).runIf Prompt r₀ as).isSome := by
  obtain ⟨f, now, hfp, hclosed, hlt, rfl⟩ := opened_init hinit
  have hiff := Lts.runIf_iff (M := opened host) (C := Prompt) (D := fun _ a => IsAppend a ∧ Opens a)
    (K := fun r => r.file.Tidy) (Q := fun r => r.missed = 0) ?_ ?_ ?_ hrun
  · rw [hiff]
    exact and_iff_right rfl
  · rintro r a r' hk ⟨happ, hopens⟩ hs
    cases a with
    | append logline o =>
        cases hs
        exact tidy_append hopens hk
    | flush _ | rollFile _ _ => cases happ
  · rintro r a r' hk ⟨happ, hopens⟩ hs
    cases a with
    | append logline o =>
        cases hs
        exact missed_append hopens hk
    | flush _ | rollFile _ _ => cases happ
  · rw [rollFile_opened hlt]
    refine ⟨_, rfl, Nat.le_refl _, ?_⟩
    simp [close, hclosed, hfp]

/-- Every second append is due; the first of them is in the next day, and the
second three seconds after it. -/
theorem flushes_when_due_twice : ∃ r : LogRun,
    (opened ⟨fun _ => "", 7⟩).runIf (fun _ a => IsAppend a ∧ Opens a) (fresh 1000 2 2 10)
      [.append [1] ⟨1, 11, 11, true⟩, .append [2] ⟨1, 86400, 86400, true⟩,
        .append [3] ⟨1, 86401, 86401, true⟩, .append [4] ⟨1, 86403, 86403, true⟩] = some r ∧
      r.missed = 0 := by
  refine Exists.imp (fun r hr => ⟨hr, ?_⟩) (Option.isSome_iff_exists.mp (by decide))
  exact (flushes_when_due (fresh_init 1000 2 2 (by decide)) hr).mpr (by decide)

/-- Ten seconds after the stream was opened, and the interval is three; and the
second append within a second, of every two. -/
theorem flushes_when_due_misses :
    (∃ r, Lts.ReachIf (opened ⟨fun _ => "", 7⟩) (fun r a => IsAppend a ∧ r.Smooth a) r ∧
      r.file.flushInterval_ = 3 ∧ r.file.checkEveryN_ = 1024 ∧ r.missed ≠ 0) ∧
    ∃ r, Lts.ReachIf (opened ⟨fun _ => "", 7⟩) (fun r a => IsAppend a ∧ r.Smooth a) r ∧
      r.file.flushInterval_ = 3 ∧ r.file.checkEveryN_ = 2 ∧ r.missed ≠ 0 := by
  obtain ⟨r, hr, hp⟩ := Lts.exists_reachIf (opened ⟨fun _ => "", 7⟩)
    (fun r a => IsAppend a ∧ r.Smooth a) [.append [1] ⟨1, 20, 20, true⟩]
    (fun r => decide (r.file.flushInterval_ = 3 ∧ r.file.checkEveryN_ = 1024 ∧ r.missed ≠ 0))
    (x := fresh 1000 3 1024 10) (fresh_init 1000 3 1024 (by decide)) (by decide)
  obtain ⟨r', hr', hp'⟩ := Lts.exists_reachIf (opened ⟨fun _ => "", 7⟩)
    (fun r a => IsAppend a ∧ r.Smooth a)
    [.append [1] ⟨1, 10, 10, true⟩, .append [2] ⟨1, 10, 10, true⟩]
    (fun r => decide (r.file.flushInterval_ = 3 ∧ r.file.checkEveryN_ = 2 ∧ r.missed ≠ 0))
    (x := fresh 1000 3 2 10) (fresh_init 1000 3 2 (by decide)) (by decide)
  exact ⟨⟨r, hr, of_decide_eq_true hp⟩, ⟨r', hr', of_decide_eq_true hp'⟩⟩

end LogRun

end Muduox.Base
