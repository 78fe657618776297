import Mathlib.Data.Prod.Lex
import Muduox.Base.Logging

/-!
# Log records: one line each, and the time on it

A record is three appends to one `FixedBuffer`, so `g_output` is handed the first
`kBufferSize` bytes of the prefix, the message and the newline. What is cut is the
end, and the newline is the end: it is there iff prefix and message leave a byte
for it (`oneLine_iff_room`). A record without it runs into the next one.

The time on a record is the second of one reading of the clock and the
microsecond of a later one. While the two fall in the same second, later records
have later times. If a second begins between them, the record has the new
microsecond with the old second, which is less than what the records of the old
second had before it; only the first record of a second has none before it
(`stamps_in_order`).
-/

namespace Muduox.Base

namespace Logger

variable {host : LogHost} {tc : TimeCache} {e : Entry}

/-! ## One line -/

/-- The bytes of a message. -/
def Message.text : Message → List UInt8
  | .plain fmt => fmt.getD []
  | .formatted msg => msg

/-- The prefix of a record and its message. -/
def text (host : LogHost) (tc : TimeCache) (e : Entry) : List UInt8 :=
  prefixText host (tc.update host (seconds e.time)) e ++ e.message.text

theorem formatMessage_data (l : Logger) (m : Message) :
    (l.formatMessage m).buffer_.data = (l.buffer_.data ++ m.text).take kBufferSize := by
  match m with
  | .plain none | .plain (some []) =>
      rw [Message.text, Option.getD, List.append_nil, List.take_of_length_le l.buffer_.fits]
      rfl
  | .plain (some (c :: fmt)) => exact l.buffer_.data_append _
  | .formatted msg => exact l.buffer_.data_append _

theorem take_append_take (n : Nat) (a b : List UInt8) :
    (a.take n ++ b).take n = (a ++ b).take n := by
  rcases Nat.le_total a.length n with hle | hge
  · rw [List.take_of_length_le hle]
  · have hlen : (a.take n).length = n := by rw [List.length_take, Nat.min_eq_left hge]
    rw [List.take_append_of_le_length (Nat.le_of_eq hlen.symm), List.take_take, Nat.min_self,
      List.take_append_of_le_length hge]

theorem fill_data : (fill host tc e).1.buffer_.data = (text host tc e).take kBufferSize := by
  show (formatMessage (formatPrefix _ host tc e).1 e.message).buffer_.data = _
  rw [formatMessage_data, formatPrefix, FixedBuffer.data_append, text]
  exact take_append_take _ _ _

theorem construct_data : (construct host tc e).1.buffer_.data =
    ((fill host tc e).1.buffer_.data ++ ascii "\n").take kBufferSize :=
  (fill host tc e).1.buffer_.data_append _

/-- The record is one line: as much of prefix and message as there was room for,
and the newline that the constructor adds to it. -/
structure OneLine (host : LogHost) (tc : TimeCache) (e : Entry) : Prop where
  cut : (fill host tc e).1.buffer_.data <+: text host tc e
  newline : (construct host tc e).1.destroy.head? =
    some (.output ((fill host tc e).1.buffer_.data ++ ascii "\n"))
  length_le : ∀ msg, .output msg ∈ (construct host tc e).1.destroy → msg.length ≤ kBufferSize
  whole : (text host tc e).length + 1 ≤ kBufferSize →
    (fill host tc e).1.buffer_.data = text host tc e

theorem output_length {l : Logger} {msg : List UInt8} (h : .output msg ∈ l.destroy) :
    msg.length ≤ kBufferSize := by
  unfold destroy at h
  rcases List.mem_cons.mp h with h | h
  · cases h
    exact l.buffer_.fits
  · split at h <;> simp at h

theorem oneLine_of_room (h : (text host tc e).length < kBufferSize) : OneLine host tc e := by
  have hfill : (fill host tc e).1.buffer_.data = text host tc e := by
    rw [fill_data, List.take_of_length_le (Nat.le_of_lt h)]
  have hline : (construct host tc e).1.buffer_.data =
      (fill host tc e).1.buffer_.data ++ ascii "\n" := by
    rw [construct_data, List.take_of_length_le]
    rw [hfill, List.length_append]
    exact h
  refine ⟨?_, ?_, fun _ => output_length, fun _ => hfill⟩
  · exact ⟨[], by rw [List.append_nil, hfill]⟩
  · rw [destroy, List.head?_cons, hline]

theorem not_oneLine_of_full (h : kBufferSize ≤ (text host tc e).length) :
    ¬ OneLine host tc e := by
  intro hone
  have hlen : (fill host tc e).1.buffer_.data.length = kBufferSize := by
    rw [fill_data, List.length_take, Nat.min_eq_left h]
  have hline := hone.newline
  rw [destroy, List.head?_cons, Option.some.injEq, Effect.output.injEq, construct_data] at hline
  have := congrArg List.length hline
  rw [List.length_take, List.length_append, hlen] at this
  have hnewline : (ascii "\n").length = 1 := rfl
  omega

/-- Whatever the thread logs, a record is one line iff its prefix and its message
leave room for the newline. -/
theorem oneLine_iff_room (host : LogHost) (tc : TimeCache) (e : Entry) :
    OneLine host tc e ↔
      (prefixText host (tc.update host (seconds e.time)) e).length + e.message.text.length <
        kBufferSize := by
  rw [← List.length_append]
  exact ⟨fun h => Nat.lt_of_not_le fun hfull => not_oneLine_of_full hfull h, oneLine_of_room⟩

/-- A thread on the first day of the epoch. -/
def firstDay : LogHost := ⟨fun t => ⟨70, 0, 1, t / 3600, t / 60 % 60, t % 60⟩, 1⟩

/-- What `LOG_INFO` makes of a message in the first line of `a.cpp`. -/
def info (message : Message) (time now : Int) : Entry :=
  ⟨.INFO, ⟨ascii "a.cpp", 1⟩, message, time, now⟩

theorem text_info_length (tc : TimeCache) (n : Nat) (time now : Int) :
    n ≤ (text firstDay tc (info (.formatted (List.replicate n 97)) time now)).length := by
  rw [text, List.length_append, info, Message.text, List.length_replicate]
  exact Nat.le_add_left _ _

/-- A message of 4000 bytes takes the place of the newline. -/
theorem oneLine_iff_room_full :
    (prefixText firstDay (TimeCache.update {} firstDay 10)
        (info (.formatted (List.replicate 4000 97)) 10000000000 10000000000)).length <
          kBufferSize ∧
      ¬ OneLine firstDay {} (info (.formatted (List.replicate 4000 97)) 10000000000 10000000000) := by
  -- The message is not read for it.
  have hplain : (prefixText firstDay (TimeCache.update {} firstDay 10)
      (info (.plain none) 10000000000 10000000000)).length < kBufferSize := by decide +kernel
  exact ⟨hplain, not_oneLine_of_full (text_info_length _ _ _ _)⟩

end Logger

/-! ## The time on it -/

theorem seconds_mono {m n : Int} (h : m ≤ n) : seconds m ≤ seconds n :=
  Int.ediv_le_ediv (by decide) h

theorem micros_of_nonneg {n : Int} (h : 0 ≤ n) : micros n = n / 1000 % 1000000 := by
  rw [micros, Int.tdiv_eq_ediv_of_nonneg h, Int.tmod_eq_emod_of_nonneg (by omega)]

/-- Within a second the microsecond does not go back. Before the epoch it does:
there a count that truncates goes back at the whole second. -/
theorem micros_mono {m n : Int} (h : m ≤ n) (hsec : seconds m = seconds n) (h0 : 0 ≤ n) :
    micros m ≤ micros n := by
  unfold seconds at hsec
  have hm : 0 ≤ m := by omega
  rw [micros_of_nonneg hm, micros_of_nonneg h0]
  omega

theorem TimeCache.update_t (tc : TimeCache) (host : LogHost) (now : Int) :
    (tc.update host now).t_ = now := by
  unfold update
  split
  · rfl
  · next heq => exact (not_not.mp heq).symm

namespace LogThread

variable {host : LogHost} {s s' : LogThread} {e : Logger.Entry}

/-- Later records have later times: by the second, then by the microsecond. -/
def InOrder (s : LogThread) : Prop := s.stamps.Pairwise fun p q => toLex p ≤ toLex q

theorem step_stamps (h : (lts host).step s e = some s') :
    s.clock ≤ e.time ∧ e.time ≤ e.now ∧ s'.clock = e.now ∧
      s'.stamps = s.stamps ++ [(seconds e.time, micros e.now)] := by
  change step host s e = some s' at h
  unfold step at h
  split at h
  · next hg =>
      cases h
      refine ⟨hg.2.1, hg.2.2, rfl, ?_⟩
      show _ ++ [((s.timeCache.update host (seconds e.time)).t_, _)] = _
      rw [TimeCache.update_t]
  · cases h

/-- The last time printed is from the last two readings. -/
structure Read (s : LogThread) : Prop where
  second_le : ∀ p ∈ s.stamps, p.1 ≤ seconds s.clock
  last : ∀ p, s.stamps.getLast? = some p → p.2 = micros s.clock

theorem read_of_reach (h : (lts host).Reach s) : s.Read := by
  refine h.inv (fun s hi => ?_) fun s e s' hI hs => ?_
  · obtain ⟨-, hnil, -⟩ := hi
    exact ⟨by simp [hnil], by simp [hnil]⟩
  · obtain ⟨htime, hnow, hclock, hstamps⟩ := step_stamps hs
    refine ⟨fun p hp => ?_, fun p hp => ?_⟩
    · rw [hclock]
      rw [hstamps, List.mem_append, List.mem_singleton] at hp
      rcases hp with hp | rfl
      · exact Int.le_trans (hI.second_le p hp) (seconds_mono (Int.le_trans htime hnow))
      · exact seconds_mono hnow
    · rw [hstamps, List.getLast?_append, List.getLast?_singleton, Option.some_or,
        Option.some.injEq] at hp
      rw [hclock, ← hp]

theorem inOrder_append {p : Int × Int} (h : s'.stamps = s.stamps ++ [p]) :
    s'.InOrder ↔ s.InOrder ∧ ∀ q ∈ s.stamps, toLex q ≤ toLex p := by
  simp only [InOrder, h, List.pairwise_append, List.pairwise_singleton, List.mem_singleton,
    forall_eq, true_and]

/-- What a step needs: no time of its second before it, or a microsecond no later
than its own before it. -/
theorem inOrder_step_iff (hr : s.Read) (hs : (lts host).step s e = some s') :
    s'.InOrder ↔ s.InOrder ∧
      ((∀ p ∈ s.stamps, p.1 ≠ seconds e.time) ∨ micros s.clock ≤ micros e.now) := by
  obtain ⟨htime, -, -, hstamps⟩ := step_stamps hs
  have hle : ∀ p ∈ s.stamps, p.1 ≤ seconds e.time := fun p hp =>
    Int.le_trans (hr.second_le p hp) (seconds_mono htime)
  rw [inOrder_append hstamps]
  refine and_congr_right fun hord => ?_
  rcases List.eq_nil_or_concat s.stamps with hnil | ⟨l, r, hlast⟩
  · simp [hnil]
  · rw [List.concat_eq_append] at hlast
    -- The last time decides: it is the greatest, and has the last microsecond.
    have hmem : r ∈ s.stamps := by simp [hlast]
    have hmicros : r.2 = micros s.clock := hr.last r (by simp [hlast])
    have hgreatest : ∀ p ∈ s.stamps, toLex p ≤ toLex r := by
      rw [InOrder, hlast, List.pairwise_append] at hord
      rw [hlast]
      intro p hp
      rcases List.mem_append.mp hp with hp | hp
      · exact hord.2.2 p hp r (List.mem_singleton_self r)
      · rw [List.mem_singleton.mp hp]
    rw [← hmicros]
    refine ⟨fun h => ?_, fun h p hp => (hgreatest p hp).trans ?_⟩
    · rcases Prod.Lex.toLex_le_toLex.mp (h r hmem) with hlt | ⟨-, hle⟩
      · refine .inl fun p hp heq => ?_
        have hp_r := Prod.Lex.monotone_fst _ _ (hgreatest p hp)
        exact Int.not_lt.mpr (heq ▸ hp_r) hlt
      · exact .inr hle
    · rw [Prod.Lex.toLex_le_toLex]
      rcases Int.lt_or_eq_of_le (hle r hmem) with hlt | heq
      · exact .inl hlt
      · exact .inr ⟨heq, h.resolve_left fun hne => hne r hmem heq⟩

instance (s : LogThread) : Decidable s.InOrder :=
  inferInstanceAs (Decidable (List.Pairwise _ _))

/-- The record is the first of its second, or the clock is read twice in one
second, which is not before the epoch. -/
def Prompt (s : LogThread) (e : Logger.Entry) : Prop :=
  (∀ p ∈ s.stamps, p.1 ≠ seconds e.time) ∨ 0 ≤ e.now ∧ seconds e.now = seconds e.time

instance (s : LogThread) (e : Logger.Entry) : Decidable (s.Prompt e) :=
  inferInstanceAs (Decidable (_ ∨ _))

theorem step_inOrder (hr : s.Read) (ho : s.InOrder) (hp : s.Prompt e)
    (hs : (lts host).step s e = some s') : s'.InOrder := by
  obtain ⟨htime, hnow, -, -⟩ := step_stamps hs
  refine (inOrder_step_iff hr hs).mpr ⟨ho, ?_⟩
  rcases hp with hfirst | ⟨h0, hsec⟩
  · exact .inl hfirst
  · rcases Int.lt_or_eq_of_le (seconds_mono htime) with hlt | heq
    · refine .inl fun p hp => ?_
      exact Int.ne_of_lt (Int.lt_of_le_of_lt (hr.second_le p hp) hlt)
    · exact .inr (micros_mono (Int.le_trans htime hnow) (heq.trans hsec.symm) h0)

/-- On every thread whose records are all prompt, the times printed never go
back, whatever the clock does meanwhile. -/
theorem stamps_in_order {host : LogHost} {s : LogThread}
    (h : Lts.ReachIf (lts host) Prompt s) : s.InOrder := by
  refine h.inv_of (I := InOrder) (fun _ hr => read_of_reach hr.reach) (fun s hi => ?_)
    fun s e s' hr ho hp hs => step_inOrder hr ho hp hs
  obtain ⟨-, hnil, -⟩ := hi
  rw [InOrder, hnil]
  exact .nil

/-- Two records in one second, and one in the next. -/
theorem stamps_in_order_prompt :
    ∃ s, Lts.ReachIf (lts Logger.firstDay) Prompt s ∧
      s.stamps = [(10, 100000), (10, 900000), (11, 50000)] ∧ s.InOrder := by
  obtain ⟨s, hs, hp⟩ := Lts.exists_reachIf (lts Logger.firstDay) Prompt
    [Logger.info (.plain none) 10100000000 10100000000,
      Logger.info (.plain none) 10800000000 10900000000,
      Logger.info (.plain none) 11000000000 11050000000]
    (fun s => decide (s.stamps = [(10, 100000), (10, 900000), (11, 50000)]))
    (x := { clock := 0 }) ⟨rfl, rfl, rfl⟩ (by decide +kernel)
  exact ⟨s, hs, of_decide_eq_true hp, stamps_in_order hs⟩

/-- The second 11 begins after `std::time` and before `system_clock::now`. -/
theorem stamps_in_order_late :
    ∃ s, (lts Logger.firstDay).Reach s ∧ s.stamps = [(10, 900000), (10, 0)] ∧ ¬ s.InOrder := by
  obtain ⟨s, hs, hp⟩ := Lts.exists_reach (lts Logger.firstDay)
    [Logger.info (.plain none) 10900000000 10900000000,
      Logger.info (.plain none) 10950000000 11000000000]
    (fun s => decide (s.stamps = [(10, 900000), (10, 0)] ∧ ¬ s.InOrder))
    (x := { clock := 0 }) ⟨rfl, rfl, rfl⟩ (by decide +kernel)
  exact ⟨s, hs, of_decide_eq_true hp⟩

/-- A record that is not prompt and comes less than a second after the one before
it does go back. -/
theorem not_inOrder_of_late (h : (lts host).Reach s) (h0 : 0 ≤ s.clock) (hlate : ¬ s.Prompt e)
    (hs : (lts host).step s e = some s') (hsoon : e.now / 1000 < s.clock / 1000 + 1000000) :
    ¬ s'.InOrder := by
  have hr := read_of_reach h
  obtain ⟨htime, hnow, -, -⟩ := step_stamps hs
  obtain ⟨hseen, hboundary⟩ := not_or.mp hlate
  have hnext : seconds e.now ≠ seconds e.time := fun heq =>
    hboundary ⟨Int.le_trans h0 (Int.le_trans htime hnow), heq⟩
  -- The record before it is of the second that has just ended.
  have hsame : seconds s.clock = seconds e.time := by
    obtain ⟨p, hp, heq⟩ : ∃ p ∈ s.stamps, p.1 = seconds e.time := by
      by_contra hnone
      exact hseen fun p hp heq => hnone ⟨p, hp, heq⟩
    exact Int.le_antisymm (seconds_mono htime) (heq ▸ hr.second_le p hp)
  have hback : micros e.now < micros s.clock := by
    rw [micros_of_nonneg h0, micros_of_nonneg (by omega)]
    unfold seconds at hsame hnext
    omega
  rw [inOrder_step_iff hr hs]
  exact fun hord => hord.2.elim hseen fun hle => Int.not_lt.mpr hle hback

end LogThread

end Muduox.Base
