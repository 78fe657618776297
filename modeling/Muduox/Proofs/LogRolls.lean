import Muduox.Base.LogFile

/-!
# What a rolling log keeps

One append does one of five things, and `appends` says which: nothing without a
stream; a roll because of the size; a roll because of the day; a flush; or only
the write. Whatever it does, the streams together grow by the record, and by
nothing else: a roll moves the stream it closes to the closed ones, and adds an
empty one at the end if `fopen` succeeds.

If it does not, the file is left without a stream and with the three times
changed. No append opens a stream when there is none, so from then on every
record is dropped.
-/

namespace Muduox.Base

namespace LogFile

variable (host : Host)

/-- The file after the `fwrite` of an append. -/
def write (f : LogFile) (fp : FILE) (logline : List UInt8) (o : Outcome) : LogFile :=
  { f with
    fp_ := some (fp.fwrite logline o.takes).1
    writtenBytes_ := addOff f.writtenBytes_ (fp.fwrite logline o.takes).2 }

/-- `writtenBytes_ > rollSize_ && rollSize_ > 0`. -/
def Exceeds (f : LogFile) : Prop := f.writtenBytes_ > f.rollSize_ ∧ f.rollSize_ > 0

/-- `++count_` makes it reach `checkEveryN_`. -/
def Checks (f : LogFile) : Prop := f.count_ + 1 ≥ f.checkEveryN_

def NewDay (f : LogFile) (now : Int) : Prop := startOf now ≠ f.startOfPeriod_

def Elapsed (f : LogFile) (now : Int) : Prop := now - f.lastFlush_ > f.flushInterval_

instance (f : LogFile) : Decidable f.Exceeds := inferInstanceAs (Decidable (_ ∧ _))
instance (f : LogFile) : Decidable f.Checks := inferInstanceAs (Decidable (_ ≥ _))
instance (f : LogFile) (now : Int) : Decidable (f.NewDay now) := inferInstanceAs (Decidable (_ ≠ _))
instance (f : LogFile) (now : Int) : Decidable (f.Elapsed now) :=
  inferInstanceAs (Decidable (_ > _))

/-- What an append may do. -/
inductive Appends (f : LogFile) (logline : List UInt8) (o : Outcome) : LogFile → Prop
  | null : f.fp_ = none → Appends f logline o f
  | size {fp : FILE} : f.fp_ = some fp → (f.write fp logline o).Exceeds →
      Appends f logline o ((f.write fp logline o).rollFile host o.rollNow o.opens).1
  | day {fp : FILE} : f.fp_ = some fp → ¬ (f.write fp logline o).Exceeds → f.Checks →
      f.NewDay o.now →
      Appends f logline o
        (({ f.write fp logline o with count_ := 0 } : LogFile).rollFile host o.rollNow o.opens).1
  | flush {fp : FILE} : f.fp_ = some fp → ¬ (f.write fp logline o).Exceeds → f.Checks →
      ¬ f.NewDay o.now → f.Elapsed o.now →
      Appends f logline o
        { f.write fp logline o with
          count_ := 0
          lastFlush_ := o.now
          fp_ := some ((fp.fwrite logline o.takes).1.fflush o.now) }
  | write {fp : FILE} {count : Int} : f.fp_ = some fp → ¬ (f.write fp logline o).Exceeds →
      ¬ (f.Checks ∧ (f.NewDay o.now ∨ f.Elapsed o.now)) →
      Appends f logline o { f.write fp logline o with count_ := count }

theorem appends (f : LogFile) (logline : List UInt8) (o : Outcome) :
    Appends host f logline o (f.append_unlocked host logline o) := by
  unfold append_unlocked
  split
  · next hnone => exact .null hnone
  · next fp hfp =>
      dsimp only
      split
      · next hsize => exact .size hfp hsize
      · next hsize =>
          split
          · next hcheck =>
              split
              · next hday => exact .day hfp hsize hcheck hday
              · next hday =>
                  split
                  · next helapsed => exact .flush hfp hsize hcheck hday helapsed
                  · next helapsed => exact .write hfp hsize fun h => h.2.elim hday helapsed
          · next hcheck => exact .write hfp hsize fun h => hcheck h.1

/-! ## One roll -/

variable {host} {f : LogFile} {now : Int} {opens : Bool}

theorem rollFile_refused (h : now ≤ f.lastRoll_) : f.rollFile host now opens = (f, false) :=
  if_neg (Int.not_lt.mpr h)

theorem rollFile_failed (h : f.lastRoll_ < now) :
    f.rollFile host now false =
      (({ f with lastRoll_ := now, lastFlush_ := now, startOfPeriod_ := startOf now } :
        LogFile).close now, false) := by
  rw [rollFile, if_pos h]
  rfl

theorem rollFile_opened (h : f.lastRoll_ < now) :
    f.rollFile host now true =
      ({ ({ f with lastRoll_ := now, lastFlush_ := now, startOfPeriod_ := startOf now } :
          LogFile).close now with
          fp_ := some (.fopen (getLogFileName host f.basename_ now) now)
          writtenBytes_ := 0 }, true) := by
  rw [rollFile, if_pos h]
  rfl

/-! ## The records and the streams -/

/-- The streams hold the records, in their order and each within one stream, and
nothing else. -/
def Holds (records : List (List UInt8)) (streams : List FILE) : Prop :=
  ∃ groups : List (List (List UInt8)),
    groups.flatten = records ∧ groups.map List.flatten = streams.map FILE.bytes

theorem Holds.congr {records : List (List UInt8)} {ss ss' : List FILE} (h : Holds records ss)
    (hb : ss'.map FILE.bytes = ss.map FILE.bytes) : Holds records ss' := by
  obtain ⟨groups, hr, hs⟩ := h
  exact ⟨groups, hr, hs.trans hb.symm⟩

theorem Holds.opened {records : List (List UInt8)} {ss : List FILE} {fp : FILE}
    (h : Holds records ss) (hb : fp.bytes = []) : Holds records (ss ++ [fp]) := by
  obtain ⟨groups, hr, hs⟩ := h
  refine ⟨groups ++ [[]], by simp [hr], ?_⟩
  simp [hs, hb]

theorem Holds.write {records : List (List UInt8)} {ss : List FILE} {fp fp' : FILE}
    {logline : List UInt8} (h : Holds records (ss ++ [fp]))
    (hb : fp'.bytes = fp.bytes ++ logline) : Holds (records ++ [logline]) (ss ++ [fp']) := by
  obtain ⟨groups, hr, hs⟩ := h
  rw [List.map_append] at hs
  obtain ⟨before, last, hsplit, hbefore, hlast⟩ := List.map_eq_append_iff.mp hs
  obtain ⟨group, rest, hgroup, hg, hrest⟩ := List.map_eq_cons_iff.mp hlast
  rw [List.map_nil, List.map_eq_nil_iff] at hrest
  subst hrest hgroup hsplit
  refine ⟨before ++ [group ++ [logline]], ?_, ?_⟩
  · rw [← hr]
    simp
  · simp [hbefore, hg, hb]

theorem Holds.flatten {records : List (List UInt8)} {ss : List FILE} (h : Holds records ss) :
    (ss.map FILE.bytes).flatten = records.flatten := by
  obtain ⟨groups, hr, hs⟩ := h
  rw [← hr, ← hs]
  exact List.flatten_flatten.symm

theorem streams_of_some {fp : FILE} (h : f.fp_ = some fp) : f.streams = f.closed ++ [fp] := by
  rw [streams, h]
  rfl

theorem holds_close {records : List (List UInt8)} (now : Int) (h : Holds records f.streams) :
    Holds records (f.close now).streams := by
  refine h.congr ?_
  cases hfp : f.fp_ <;> simp [streams, close, hfp, FILE.fflush]

theorem holds_flush {records : List (List UInt8)} (h : Holds records f.streams) :
    Holds records (f.flush now).streams := by
  refine h.congr ?_
  cases hfp : f.fp_ <;> simp [streams, LogFile.flush, hfp, FILE.fflush]

theorem holds_rollFile {records : List (List UInt8)} (h : Holds records f.streams) :
    Holds records (f.rollFile host now opens).1.streams := by
  by_cases hlt : f.lastRoll_ < now
  · have hclosed := holds_close now
      (f := { f with lastRoll_ := now, lastFlush_ := now, startOfPeriod_ := startOf now }) h
    cases opens with
    | false =>
        rw [rollFile_failed hlt]
        exact hclosed
    | true =>
        rw [rollFile_opened hlt, streams_of_some rfl]
        rw [streams, close, Option.toList_none, List.append_nil] at hclosed
        exact hclosed.opened rfl
  · rw [rollFile_refused (by omega)]
    exact h

variable {logline : List UInt8} {o : Outcome} {fp : FILE}

theorem fwrite_all (h : (fp.fwrite logline o.takes).2 = logline.length) :
    (fp.fwrite logline o.takes).1.bytes = fp.bytes ++ logline := by
  simp only [FILE.fwrite, List.length_take] at h ⊢
  rw [List.take_of_length_le (by omega)]

theorem holds_append {records : List (List UInt8)} (hfp : f.fp_ = some fp)
    (hall : (fp.fwrite logline o.takes).2 = logline.length) (h : Holds records f.streams) :
    Holds (records ++ [logline]) (f.append_unlocked host logline o).streams := by
  rw [streams_of_some hfp] at h
  have hbytes := fwrite_all hall
  have hwrite : Holds (records ++ [logline]) (f.write fp logline o).streams := by
    rw [streams_of_some rfl]
    exact h.write hbytes
  generalize happ : f.append_unlocked host logline o = f'
  cases happ ▸ appends host f logline o with
  | null hnone => rw [hfp] at hnone; cases hnone
  | size hfp' _ =>
      cases hfp.symm.trans hfp'
      exact holds_rollFile hwrite
  | day hfp' _ _ _ =>
      cases hfp.symm.trans hfp'
      exact holds_rollFile hwrite
  | flush hfp' _ _ _ _ =>
      cases hfp.symm.trans hfp'
      have hflushed : ((fp.fwrite logline o.takes).1.fflush o.now).bytes = fp.bytes ++ logline :=
        hbytes
      exact h.write hflushed
  | write hfp' _ _ =>
      cases hfp.symm.trans hfp'
      exact hwrite

/-! ## The counted bytes -/

theorem addOff_of_fits {a b : Nat} (h : a + b ≤ offMax) : addOff a b = (a + b : Nat) := by
  unfold offMax at h
  rw [addOff, Int.bmod_eq_of_le (by omega) (by omega)]
  omega

/-- There is a stream, and `writtenBytes_` are the bytes written to it. -/
def Counts (f : LogFile) : Prop := ∃ fp, f.fp_ = some fp ∧ f.writtenBytes_ = fp.bytes.length

theorem counts_rollFile (h : f.Counts) : (f.rollFile host now true).1.Counts := by
  by_cases hlt : f.lastRoll_ < now
  · rw [rollFile_opened hlt]
    exact ⟨_, rfl, rfl⟩
  · rw [rollFile_refused (by omega)]
    exact h

theorem counts_write (hfp : f.fp_ = some fp) (h : f.Counts) : (f.write fp logline o).Counts := by
  obtain ⟨fp', hfp', hw⟩ := h
  cases hfp.symm.trans hfp'
  refine ⟨_, rfl, ?_⟩
  have hlen : (fp.fwrite logline o.takes).1.bytes.length =
      fp.bytes.length + (fp.fwrite logline o.takes).2 := List.length_append
  have hfits := (fp.fwrite logline o.takes).1.fits
  rw [write, hw, addOff_of_fits (by omega), hlen]

theorem counts_append (ho : o.opens = true) (h : f.Counts) :
    (f.append_unlocked host logline o).Counts := by
  generalize happ : f.append_unlocked host logline o = f'
  cases happ ▸ appends host f logline o with
  | null _ => exact h
  | size hfp _ =>
      rw [ho]
      exact counts_rollFile (counts_write hfp h)
  | day hfp _ _ _ =>
      rw [ho]
      exact counts_rollFile (counts_write hfp h)
  | flush hfp _ _ _ _ =>
      obtain ⟨_, hfp', hw⟩ : (f.write _ logline o).Counts := counts_write hfp h
      cases hfp'
      exact ⟨_, rfl, hw⟩
  | write hfp _ _ => exact counts_write hfp h

theorem counts_flush (h : f.Counts) : (f.flush now).Counts := by
  obtain ⟨fp, hfp, hw⟩ := h
  exact ⟨fp.fflush now, by rw [flush, hfp]; rfl, hw⟩

/-! ## The times -/

theorem lastRoll_rollFile (h : f.lastRoll_ ≤ now) :
    (f.rollFile host now opens).1.lastRoll_ = now := by
  by_cases hlt : f.lastRoll_ < now
  · cases opens with
    | false => rw [rollFile_failed hlt]; rfl
    | true => rw [rollFile_opened hlt]; rfl
  · rw [rollFile_refused (by omega)]
    exact Int.le_antisymm h (Int.not_lt.mp hlt)

theorem lastRoll_append (h : f.lastRoll_ ≤ o.rollNow) :
    (f.append_unlocked host logline o).lastRoll_ ≤ o.rollNow := by
  generalize happ : f.append_unlocked host logline o = f'
  cases happ ▸ appends host f logline o with
  | null _ => exact h
  | size _ _ => exact Int.le_of_eq (lastRoll_rollFile (by exact h))
  | day _ _ _ _ => exact Int.le_of_eq (lastRoll_rollFile (by exact h))
  | flush _ _ _ _ _ => exact h
  | write _ _ _ => exact h

/-- A roll in a later second leaves an empty stream, and one in the second of
the last changes nothing. -/
theorem bounded_rollFile (hpos : 0 ≤ f.rollSize_) (hle : f.lastRoll_ ≤ now) :
    (f.rollFile host now true).1.writtenBytes_ ≤ f.rollSize_ ∨
      now = f.lastRoll_ ∧ (f.rollFile host now true).1 = f := by
  by_cases hlt : f.lastRoll_ < now
  · rw [rollFile_opened hlt]
    exact .inl hpos
  · rw [rollFile_refused (by omega)]
    exact .inr ⟨by omega, rfl⟩

/-- After an append the stream is within `rollSize_`, or the append tried to
roll in the second in which the stream was opened. -/
theorem bounded_append (hpos : 0 < f.rollSize_) (ho : o.opens = true)
    (hfp : f.fp_ = some fp) (hle : f.lastRoll_ ≤ o.rollNow) :
    (f.append_unlocked host logline o).writtenBytes_ ≤ f.rollSize_ ∨
      (f.write fp logline o).Exceeds ∧ o.rollNow = f.lastRoll_ ∧
        (f.append_unlocked host logline o).lastRoll_ = f.lastRoll_ := by
  have hwithin : ¬ (f.write fp logline o).Exceeds →
      (f.write fp logline o).writtenBytes_ ≤ f.rollSize_ :=
    fun hsize => Int.not_lt.mp fun hgt => hsize ⟨hgt, hpos⟩
  generalize happ : f.append_unlocked host logline o = f'
  cases happ ▸ appends host f logline o with
  | null hnone => rw [hfp] at hnone; cases hnone
  | size hfp' hsize =>
      cases hfp.symm.trans hfp'
      rw [ho]
      refine (bounded_rollFile (f := f.write fp logline o) (Int.le_of_lt hpos) hle).imp_right ?_
      rintro ⟨hnow, heq⟩
      exact ⟨hsize, hnow, by rw [heq]; rfl⟩
  | day hfp' hsize _ _ =>
      cases hfp.symm.trans hfp'
      rw [ho]
      refine .inl ((bounded_rollFile (f := { f.write fp logline o with count_ := 0 })
        (Int.le_of_lt hpos) hle).elim id ?_)
      rintro ⟨-, heq⟩
      rw [heq]
      exact hwithin hsize
  | flush hfp' hsize _ _ _ =>
      cases hfp.symm.trans hfp'
      exact .inl (hwithin hsize)
  | write hfp' hsize _ =>
      cases hfp.symm.trans hfp'
      exact .inl (hwithin hsize)

/-! ## Rolls that fail -/

/-- The stream is the same, and so is all that belongs to it. -/
def Kept (f f' : LogFile) : Prop :=
  f'.fp_ = f.fp_ ∧ f'.lastRoll_ = f.lastRoll_ ∧ f'.lastFlush_ = f.lastFlush_ ∧
    f'.startOfPeriod_ = f.startOfPeriod_ ∧ f'.writtenBytes_ = f.writtenBytes_

/-- The append calls `rollFile`. -/
def Rolls (f : LogFile) (logline : List UInt8) (o : Outcome) : Prop :=
  ∃ fp ∈ f.fp_, (f.write fp logline o).Exceeds ∨ f.Checks ∧ f.NewDay o.now

instance (f : LogFile) (logline : List UInt8) (o : Outcome) : Decidable (f.Rolls logline o) :=
  inferInstanceAs (Decidable (∃ fp ∈ f.fp_, _))

theorem keeps_rollFile :
    ((f.rollFile host now opens).2 = false → Kept f (f.rollFile host now opens).1) ↔
      now ≤ f.lastRoll_ ∨ opens = true := by
  by_cases hlt : f.lastRoll_ < now
  · cases opens with
    | false =>
        rw [rollFile_failed hlt]
        constructor
        · intro hkept
          have hlast : now = f.lastRoll_ := (hkept rfl).2.1
          omega
        · rintro (hle | hopens)
          · omega
          · cases hopens
    | true =>
        rw [rollFile_opened hlt]
        simp
  · rw [rollFile_refused (by omega)]
    constructor
    · exact fun _ => .inl (by omega)
    · exact fun _ _ => ⟨rfl, rfl, rfl, rfl, rfl⟩

theorem isSome_rollFile (hfp : f.fp_.isSome) :
    (f.rollFile host now opens).1.fp_.isSome ↔ now ≤ f.lastRoll_ ∨ opens = true := by
  by_cases hlt : f.lastRoll_ < now
  · cases opens with
    | false =>
        rw [rollFile_failed hlt]
        simp [close, hlt]
    | true =>
        rw [rollFile_opened hlt]
        simp
  · rw [rollFile_refused (by omega)]
    simp only [hfp, true_iff]
    exact .inl (by omega)

/-- An append keeps the stream open iff it does not roll into a failure; and it
never opens one. -/
theorem isSome_append : (f.append_unlocked host logline o).fp_.isSome ↔
    f.fp_.isSome ∧ (f.Rolls logline o → o.rollNow ≤ f.lastRoll_ ∨ o.opens = true) := by
  generalize happ : f.append_unlocked host logline o = f'
  cases happ ▸ appends host f logline o with
  | null hnone => simp [hnone]
  | size hfp hsize =>
      rw [isSome_rollFile rfl]
      have hrolls : f.Rolls logline o := ⟨_, hfp, .inl hsize⟩
      simp only [hfp, hrolls, Option.isSome_some, true_and, forall_const]
      rfl
  | day hfp _ hcheck hday =>
      rw [isSome_rollFile rfl]
      have hrolls : f.Rolls logline o := ⟨_, hfp, .inr ⟨hcheck, hday⟩⟩
      simp only [hfp, hrolls, Option.isSome_some, true_and, forall_const]
      rfl
  | flush hfp hsize _ hday _ =>
      refine iff_of_true rfl ⟨by rw [hfp]; rfl, ?_⟩
      rintro ⟨fp, hmem, hrolls⟩
      cases hfp.symm.trans hmem
      exact (hrolls.elim hsize fun h => hday h.2).elim
  | write hfp hsize hquiet =>
      refine iff_of_true rfl ⟨by rw [hfp]; rfl, ?_⟩
      rintro ⟨fp, hmem, hrolls⟩
      cases hfp.symm.trans hmem
      exact (hrolls.elim hsize fun h => hquiet ⟨h.1, .inl h.2⟩).elim

end LogFile

/-! ## Runs -/

namespace LogRun

open LogFile

/-- The clock does not go back. -/
def InOrder (r : LogRun) : LogCall → Prop
  | .append _ o => r.clock ≤ o.now ∧ o.now ≤ o.rollNow
  | .flush now | .rollFile now _ => r.clock ≤ now

/-- `fwrite` takes all it is given. -/
def WritesAll (r : LogRun) : LogCall → Prop
  | .append logline o => ∀ fp ∈ r.file.fp_, (fp.fwrite logline o.takes).2 = logline.length
  | .flush _ | .rollFile _ _ => True

/-- `fopen` succeeds, if it is called. -/
def Opens : LogCall → Prop
  | .append _ o => o.opens = true
  | .flush _ => True
  | .rollFile _ opens => opens = true

instance : ∀ (r : LogRun) (a : LogCall), Decidable (r.InOrder a)
  | _, .append _ _ => inferInstanceAs (Decidable (_ ∧ _))
  | _, .flush _ | _, .rollFile _ _ => inferInstanceAs (Decidable (_ ≤ _))

instance : ∀ (r : LogRun) (a : LogCall), Decidable (r.WritesAll a)
  | r, .append _ _ => inferInstanceAs (Decidable (∀ fp ∈ r.file.fp_, _))
  | _, .flush _ | _, .rollFile _ _ => .isTrue trivial

instance : ∀ a : LogCall, Decidable (Opens a)
  | .append _ _ | .rollFile _ _ => inferInstanceAs (Decidable (_ = true))
  | .flush _ => .isTrue trivial

/-- Nothing outside the code goes wrong. -/
def Smooth (r : LogRun) (a : LogCall) : Prop := r.InOrder a ∧ r.WritesAll a ∧ Opens a

instance (r : LogRun) (a : LogCall) : Decidable (r.Smooth a) := inferInstanceAs (Decidable (_ ∧ _))

variable {host : Host}

/-- What each call keeps, as long as nothing goes wrong. -/
structure Rolling (r : LogRun) : Prop where
  holds : Holds r.appended r.file.streams
  counts : r.file.Counts
  clock : r.file.lastRoll_ ≤ r.clock

/-- A file whose constructor opened a stream is a blank file, rolled. -/
theorem opened_init {r : LogRun} (h : (opened host).init r) :
    ∃ (f : LogFile) (now : Int), f.fp_ = none ∧ f.closed = [] ∧ f.lastRoll_ < now ∧
      r = { file := (f.rollFile host now true).1, clock := now } := by
  obtain ⟨⟨basename, rollSize, flushInterval, checkEveryN, now, opens, file, hnew, rfl⟩, hfp⟩ := h
  unfold LogFile.new at hnew
  split at hnew
  · cases hnew
  · cases hnew
    refine ⟨⟨basename, rollSize, flushInterval, checkEveryN, 0, 0, 0, 0, none, 0, []⟩, now, rfl, rfl,
      Int.not_le.mp fun hle => ?_, ?_⟩
    · rw [rollFile_refused hle] at hfp
      cases hfp
    · cases opens with
      | true => rfl
      | false =>
          -- Without a stream from `fopen`, there is none.
          unfold rollFile at hfp
          dsimp only at hfp
          split at hfp <;> cases hfp

theorem rolling_init {r : LogRun} (h : (opened host).init r) : Rolling r := by
  obtain ⟨f, now, hfp, hclosed, hlt, rfl⟩ := opened_init h
  refine ⟨holds_rollFile ⟨[], rfl, ?_⟩, ?_, Int.le_of_eq (lastRoll_rollFile (Int.le_of_lt hlt))⟩
  · rw [streams, hfp, hclosed]
    rfl
  · rw [rollFile_opened hlt]
    exact ⟨_, rfl, rfl⟩

theorem rolling_step {r r' : LogRun} {a : LogCall} (h : Rolling r) (ha : r.Smooth a)
    (hs : (opened host).step r a = some r') : Rolling r' := by
  obtain ⟨hclock, hall, hopens⟩ := ha
  cases a with
  | append logline o =>
      cases hs
      obtain ⟨fp, hfp, -⟩ := h.counts
      exact ⟨holds_append hfp (hall fp hfp) h.holds, counts_append hopens h.counts,
        lastRoll_append (Int.le_trans h.clock (Int.le_trans hclock.1 hclock.2))⟩
  | flush now =>
      cases hs
      exact ⟨holds_flush h.holds, counts_flush h.counts, Int.le_trans h.clock hclock⟩
  | rollFile now opens =>
      cases hs
      cases hopens
      exact ⟨holds_rollFile h.holds, counts_rollFile h.counts,
        Int.le_of_eq (lastRoll_rollFile (Int.le_trans h.clock hclock))⟩

theorem rolling {r : LogRun} (h : Lts.ReachIf (opened host) Smooth r) : Rolling r :=
  h.inv (fun _ hr => rolling_init hr) fun _ _ _ hI hC hs => rolling_step hI hC hs

/-- The streams hold exactly the records, each record in one stream;
`writtenBytes_` counts what is in the last of them; and an append leaves more
than `rollSize_` bytes there only if it tried to roll in the second in which the
stream was opened. -/
theorem rolling_conserves {r : LogRun} (h : Lts.ReachIf (opened host) Smooth r)
    (hpos : 0 < r.file.rollSize_) :
    Holds r.appended r.file.streams ∧ r.file.Counts ∧
      ∀ logline o r', r.Smooth (.append logline o) →
        (opened host).step r (.append logline o) = some r' →
        r'.file.writtenBytes_ ≤ r.file.rollSize_ ∨
          (∃ fp ∈ r.file.fp_, (r.file.write fp logline o).Exceeds) ∧
            o.rollNow = r.file.lastRoll_ ∧ r'.file.lastRoll_ = r.file.lastRoll_ := by
  have hr := rolling h
  refine ⟨hr.holds, hr.counts, ?_⟩
  rintro logline o r' ⟨hclock, -, hopens⟩ hs
  cases hs
  obtain ⟨fp, hfp, -⟩ := hr.counts
  refine (bounded_append hpos hopens hfp (Int.le_trans hr.clock
    (Int.le_trans hclock.1 hclock.2))).imp_right ?_
  exact fun ⟨hsize, hnow, hlast⟩ => ⟨⟨fp, hfp, hsize⟩, hnow, hlast⟩

/-- A file whose constructor just opened its first stream, for the runs below. -/
def fresh (rollSize flushInterval checkEveryN now : Int) : LogRun :=
  { file := (rollFile ⟨fun _ => "", 7⟩
      ⟨"app", rollSize, flushInterval, checkEveryN, 0, 0, 0, 0, none, 0, []⟩ now true).1
    clock := now }

theorem fresh_init (rollSize flushInterval checkEveryN : Int) {now : Int} (h : 0 < now) :
    (opened ⟨fun _ => "", 7⟩).init (fresh rollSize flushInterval checkEveryN now) := by
  refine ⟨⟨"app", rollSize, flushInterval, checkEveryN, now, true, _, ?_, rfl⟩, ?_⟩
  · rw [LogFile.new, if_neg (by decide)]
  · rw [fresh, rollFile_opened (by exact h)]
    rfl

/-- Three records of three bytes in files of four, the last two in one second; a
fourth, a second later, rolls. -/
theorem rolling_conserves_three : ∃ r : LogRun, r.appended.length = 3 ∧
    r.file.streams.length = 2 ∧ Holds r.appended r.file.streams ∧ r.file.Counts ∧
    r.file.writtenBytes_ = 3 ∧ ∃ r',
      (opened ⟨fun _ => "", 7⟩).step r (.append [1, 2, 3] ⟨3, 12, 12, true⟩) = some r' ∧
        r'.file.writtenBytes_ ≤ 4 := by
  obtain ⟨r, hr, hp⟩ := Lts.exists_reachIf (opened ⟨fun _ => "", 7⟩) Smooth
    [.append [1, 2, 3] ⟨3, 10, 10, true⟩, .append [4, 5, 6] ⟨3, 11, 11, true⟩,
      .append [7, 8, 9] ⟨3, 11, 11, true⟩]
    (fun r => decide (r.appended.length = 3 ∧ r.file.streams.length = 2 ∧
      r.file.writtenBytes_ = 3 ∧ r.file.rollSize_ = 4 ∧ r.file.lastRoll_ = 11 ∧
      r.Smooth (.append [1, 2, 3] ⟨3, 12, 12, true⟩)))
    (x := fresh 4 3 2 10) (fresh_init 4 3 2 (by decide)) (by decide)
  obtain ⟨hn, hs, hwritten, hsize, hlast, hnext⟩ := of_decide_eq_true hp
  obtain ⟨hholds, hcounts, hbound⟩ := rolling_conserves hr (by rw [hsize]; decide)
  refine ⟨r, hn, hs, hholds, hcounts, hwritten, _, rfl, ?_⟩
  rcases hbound _ _ _ hnext rfl with hle | ⟨-, hnow, -⟩
  · rwa [hsize] at hle
  · rw [hlast] at hnow
    cases hnow

/-- The append's roll, if there is one, does not fail after the clock has moved. -/
def Reopens (r : LogRun) : LogCall → Prop
  | .append logline o =>
      r.file.Rolls logline o → o.rollNow ≤ r.file.lastRoll_ ∨ o.opens = true
  | .flush _ => True
  | .rollFile now opens => now ≤ r.file.lastRoll_ ∨ opens = true

instance : ∀ (r : LogRun) (a : LogCall), Decidable (r.Reopens a)
  | _, .append _ _ => inferInstanceAs (Decidable (_ → _))
  | _, .flush _ => .isTrue trivial
  | _, .rollFile _ _ => inferInstanceAs (Decidable (_ ∨ _))

def IsAppend : LogCall → Prop
  | .append _ _ => True
  | .flush _ | .rollFile _ _ => False

instance : ∀ a : LogCall, Decidable (IsAppend a)
  | .append _ _ => .isTrue trivial
  | .flush _ | .rollFile _ _ => .isFalse id

/-- A roll that returns false leaves everything as it was iff the clock had not
moved or `fopen` succeeds; and a sequence of appends ends with every record in a
stream and a stream for the next iff that is so at each of its rolls. -/
theorem roll_failure (host : Host) :
    (∀ (f : LogFile) (now : Int) (opens : Bool),
      ((f.rollFile host now opens).2 = false → Kept f (f.rollFile host now opens).1) ↔
        now ≤ f.lastRoll_ ∨ opens = true) ∧
    ∀ (r₀ r : LogRun) (as : List LogCall), (opened host).init r₀ →
      (opened host).runIf (fun r a => IsAppend a ∧ r.WritesAll a) r₀ as = some r →
      (r.file.fp_.isSome ∧ Holds r.appended r.file.streams ↔
        ((opened host).runIf Reopens r₀ as).isSome) := by
  refine ⟨fun f now opens => keeps_rollFile, fun r₀ r as hinit hrun => ?_⟩
  have hstart : r₀.file.fp_.isSome ∧ Holds r₀.appended r₀.file.streams :=
    ⟨hinit.2, (rolling_init hinit).holds⟩
  have hiff := Lts.runIf_iff (M := opened host) (C := Reopens)
    (D := fun r a => IsAppend a ∧ r.WritesAll a)
    (K := fun r => r.file.fp_.isSome → Holds r.appended r.file.streams)
    (Q := fun r => r.file.fp_.isSome ∧ Holds r.appended r.file.streams)
    ?_ ?_ (fun _ => hstart.2) hrun
  · rw [hiff]
    exact and_iff_right hstart
  · rintro r a r' hk ⟨happ, hall⟩ hs hfp'
    cases a with
    | append logline o =>
        cases hs
        obtain ⟨hfp, -⟩ := isSome_append.mp hfp'
        obtain ⟨fp, hfp⟩ := Option.isSome_iff_exists.mp hfp
        exact holds_append hfp (hall fp hfp) (hk (by rw [hfp]; rfl))
    | flush _ | rollFile _ _ => cases happ
  · rintro r a r' hk ⟨happ, hall⟩ hs
    cases a with
    | append logline o =>
        cases hs
        constructor
        · rintro ⟨hfp', -⟩
          obtain ⟨hfp, hreopens⟩ := isSome_append.mp hfp'
          exact ⟨⟨hfp, hk hfp⟩, hreopens⟩
        · rintro ⟨⟨hfp, hholds⟩, hreopens⟩
          refine ⟨isSome_append.mpr ⟨hfp, hreopens⟩, ?_⟩
          obtain ⟨fp, hfp⟩ := Option.isSome_iff_exists.mp hfp
          exact holds_append hfp (hall fp hfp) hholds
    | flush _ | rollFile _ _ => cases happ

/-- Within the second of the last roll, one that could not be done is not tried. -/
theorem roll_failure_refused : ∃ r : LogRun,
    (opened ⟨fun _ => "", 7⟩).runIf (fun r a => IsAppend a ∧ r.WritesAll a) (fresh 4 3 2 10)
      [.append [1, 2, 3, 4, 5] ⟨5, 10, 10, false⟩, .append [6] ⟨1, 10, 10, false⟩] = some r ∧
      r.file.fp_.isSome ∧ Holds r.appended r.file.streams := by
  refine Exists.imp (fun r hr => ⟨hr, ?_⟩) (Option.isSome_iff_exists.mp (by decide))
  exact ((roll_failure _).2 _ r _ (fresh_init 4 3 2 (by decide)) hr).mpr (by decide)

/-- In the next second `fopen` fails: `rollFile` has closed the stream and moved
the times, and the record after that is nowhere. -/
theorem roll_failure_loses :
    (∃ f : LogFile, f.fp_.isSome ∧ (f.rollFile ⟨fun _ => "", 7⟩ 11 false).2 = false ∧
      ¬ Kept f (f.rollFile ⟨fun _ => "", 7⟩ 11 false).1) ∧
    ∃ r, Lts.ReachIf (opened ⟨fun _ => "", 7⟩)
        (fun r a => IsAppend a ∧ r.InOrder a ∧ r.WritesAll a) r ∧
      r.appended = [[1, 2, 3, 4, 5], [6]] ∧ ¬ Holds r.appended r.file.streams := by
  refine ⟨⟨(fresh 4 3 2 10).file, by decide, by decide, fun h => absurd h.2.1 (by decide)⟩, ?_⟩
  obtain ⟨r, hr, hp⟩ := Lts.exists_reachIf (opened ⟨fun _ => "", 7⟩)
    (fun r a => IsAppend a ∧ r.InOrder a ∧ r.WritesAll a)
    [.append [1, 2, 3, 4, 5] ⟨5, 11, 11, false⟩, .append [6] ⟨1, 12, 12, true⟩]
    (fun r => decide (r.appended = [[1, 2, 3, 4, 5], [6]] ∧
      (r.file.streams.map FILE.bytes).flatten ≠ r.appended.flatten))
    (x := fresh 4 3 2 10) (fresh_init 4 3 2 (by decide)) (by decide)
  obtain ⟨hn, hne⟩ := of_decide_eq_true hp
  exact ⟨r, hr, hn, fun h => hne h.flatten⟩

end LogRun

end Muduox.Base
