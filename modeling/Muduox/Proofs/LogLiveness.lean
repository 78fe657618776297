import Muduox.Lib.Runs
import Muduox.Proofs.LogPipeline
import Muduox.Proofs.LogSlots

/-!
# Every line reaches the files

As long as the background thread gets its turn again and again, it comes back to
the lock, however long the lists are that it has to write in between: what it
took does not grow while it writes (`write_loop`). Under the lock it takes every
line appended so far, and then it writes them. And once `stop()` was called, the
next test of the loop is the last, so the thread returns, and a join does not
wait for ever.
-/

namespace Muduox.Base

open AsyncLogging (Step pastFinal)

namespace AsyncLogging

/-- What others do between two pieces of `threadFunc`. -/
structure Stays (s s' : AsyncLogging) : Prop where
  pc : s'.pc = s.pc
  buffersToWrite : s'.buffersToWrite = s.buffersToWrite
  written : s'.written = s.written
  passed : s'.passed = s.passed
  appended : s.appended <+: s'.appended
  stopRequested : s.stopRequested = true → s'.stopRequested = true

theorem Stays.refl (s : AsyncLogging) : Stays s s :=
  ⟨rfl, rfl, rfl, rfl, List.prefix_rfl, id⟩

theorem Stays.trans {s₁ s₂ s₃ : AsyncLogging} (h₁ : Stays s₁ s₂) (h₂ : Stays s₂ s₃) :
    Stays s₁ s₃ :=
  ⟨h₂.pc.trans h₁.pc, h₂.buffersToWrite.trans h₁.buffersToWrite, h₂.written.trans h₁.written,
    h₂.passed.trans h₁.passed, h₁.appended.trans h₂.appended,
    fun h => h₂.stopRequested (h₁.stopRequested h)⟩

variable {s s' : AsyncLogging}

theorem step_stays {a : Step} (ha : a ≠ .background) (halive : s'.dtor = .alive)
    (hstart : s.pc ≠ .notStarted) (hs : lts.step s a = some s') : Stays s s' := by
  cases a with
  | background => exact absurd rfl ha
  | start =>
      simp only [lts, AsyncLogging.step] at hs
      split at hs
      · next h => exact absurd h.2 hstart
      · cases hs
  | append line =>
      simp only [lts, AsyncLogging.step] at hs
      split at hs
      · obtain ⟨hpc, -, -, hbufs, hwritten, hpassed, -, happ, -, -⟩ := append_frame hs
        refine ⟨hpc, hbufs, hwritten, hpassed, ?_, fun h => ?_⟩
        · rw [happ]
          exact List.prefix_append _ _
        · unfold AsyncLogging.append at hs
          split at hs
          · cases hs
          · dsimp only at hs
            split at hs <;> cases hs <;> exact h
      · cases hs
  | stop =>
      simp only [lts, AsyncLogging.step] at hs
      split at hs
      · cases hs
        exact ⟨rfl, rfl, rfl, rfl, List.prefix_rfl, fun _ => rfl⟩
      · cases hs
  | destroy =>
      simp only [lts, AsyncLogging.step, AsyncLogging.destroy] at hs
      split at hs
      · cases hs
        cases halive
      · cases hs
        cases halive
      · split at hs
        · cases hs
          cases halive
        · cases hs
      · cases hs

/-- A logger that is alive was so before. -/
theorem alive_before {a : Step} (hs : lts.step s a = some s') (halive : s'.dtor = .alive) :
    s.dtor = .alive := by
  cases a with
  | background => exact (background_alive hs).symm.trans halive
  | start | append | stop =>
      simp only [lts, AsyncLogging.step] at hs
      split at hs
      · next h => first | exact h | exact h.1
      · cases hs
  | destroy =>
      simp only [lts, AsyncLogging.step, AsyncLogging.destroy] at hs
      split at hs
      · assumption
      · cases hs
        cases halive
      · split at hs
        · cases hs
          cases halive
        · cases hs
      · cases hs

/-- A round of the write loop moves bytes from the buffers to what was passed. -/
theorem write_bytes (s : AsyncLogging) (after : BackPc) :
    (s.write after).passed ++ (s.write after).unwritten = s.passed ++ s.unwritten := by
  rcases write_eq s after with ⟨b, hb, heq⟩ | ⟨-, heq⟩
  · obtain ⟨hlt, hget⟩ := List.getElem?_eq_some_iff.mp hb
    rw [heq, unwritten, unwritten, List.drop_eq_getElem_cons hlt, hget]
    simp [contents]
  · rw [heq]
    rfl

theorem bytes_prefix {as bs : List Line} (h : as <+: bs) : bytes as <+: bytes bs := by
  obtain ⟨cs, rfl⟩ := h
  rw [bytes_append]
  exact List.prefix_append _ _

/-- Under the lock the loop takes every line there is. -/
theorem swap_all (hi : Inv s) (hd : s.destroyed = []) (hpc : s.pc = .waiting)
    (hs : s.swap = some s') :
    s'.pc = .writing ∧ s'.passed ++ s'.unwritten = bytes s.appended := by
  have hi' := hi.swap hpc hd hs
  have hidle : s.buffersToWrite = [] :=
    hi.slots.idle (by rw [hpc]; rfl) (by rw [hpc]; rfl) (by simp [hpc])
  obtain ⟨h1, -⟩ := hi.slots.ready (by rw [hpc]; rfl)
  obtain ⟨b1, hb1⟩ := Option.ne_none_iff_exists'.mp h1
  have hempty : b1.data = [] := hi.slots.spare.1 b1 hb1
  have hkept : s'.pc = .writing ∧ s'.destroyed = [] ∧ s'.appended = s.appended ∧
      s'.buffers_ = [] ∧ s'.currentBuffer_ = some b1 := by
    unfold AsyncLogging.swap at hs
    split at hs
    · cases hs
    · dsimp only at hs
      cases hs
      split <;> exact ⟨rfl, hd, rfl, hidle, hb1⟩
  obtain ⟨hpc', hd', happ, hbufs, hcur⟩ := hkept
  have hbytes := (hi'.intact hd').bytes
  rw [queued_of_current hcur, hbufs, hempty, happ] at hbytes
  exact ⟨hpc', by simpa [contents] using hbytes⟩

/-- And so does the last critical section. -/
theorem last_all (hi : Inv s) (hd : s.destroyed = []) (hpc : s.pc = .final)
    (hs : s.last = some s') :
    s'.pc = .draining ∧ s'.passed ++ s'.unwritten = bytes s.appended := by
  have hi' := hi.last hpc hd hs
  have hkept : s'.pc = .draining ∧ s'.beforeFinal = s.appended := by
    unfold AsyncLogging.last at hs
    split at hs
    · cases hs
    · dsimp only at hs
      cases hs
      split <;> exact ⟨rfl, rfl⟩
  obtain ⟨hpc', hbefore⟩ := hkept
  rw [← hbefore]
  exact ⟨hpc', (hi'.drained (by rw [hpc']; rfl)).bytes⟩

/-- What the users of the logger did stays. -/
theorem threadFunc_users (hs : s.threadFunc = some s') :
    s'.stopRequested = s.stopRequested ∧ s'.appended = s.appended := by
  unfold AsyncLogging.threadFunc at hs
  cases hpc : s.pc <;> rw [hpc] at hs
  case notStarted | returned | undefined => cases hs
  case begin | test | enter | flush =>
    cases hs
    exact ⟨rfl, rfl⟩
  case waiting =>
    dsimp only at hs
    unfold AsyncLogging.swap at hs
    split at hs
    · cases hs
    · cases hs
      dsimp only
      split <;> exact ⟨rfl, rfl⟩
  case writing | draining =>
    cases hs
    unfold AsyncLogging.write
    split <;> exact ⟨rfl, rfl⟩
  case recycle =>
    dsimp only at hs
    unfold AsyncLogging.recycle at hs
    obtain ⟨_, -, hs⟩ := Option.bind_eq_some_iff.mp hs
    obtain ⟨_, -, rfl⟩ := Option.map_eq_some_iff.mp hs
    exact ⟨rfl, rfl⟩
  case final =>
    dsimp only at hs
    unfold AsyncLogging.last at hs
    split at hs
    · cases hs
    · dsimp only at hs
      cases hs
      split <;> exact ⟨rfl, rfl⟩

end AsyncLogging

namespace LogPipeline

variable {host : Host} {cfg : LogConfig} {r : (lts host cfg).RunIf (Smooth host cfg)} {n : ℕ}

/-- The background thread gets its turn until it returns. -/
def Scheduled (r : (lts host cfg).RunIf (Smooth host cfg)) : Prop :=
  ∀ n, ∃ m, n ≤ m ∧ ((r.label m).1 = .background ∨ (r.state m).log.pc = .returned)

theorem log_inv (r : (lts host cfg).RunIf (Smooth host cfg)) (n : ℕ) :
    AsyncLogging.Inv (r.state n).log := (piped (r.reachIf n)).log

section Alive

variable (halive : ∀ n, (r.state n).log.dtor = .alive) (hsched : Scheduled r)
include halive

/-- A step of a started logger is one of the background thread, or leaves it be. -/
theorem step_turn (hstart : (r.state n).log.pc ≠ .notStarted) :
    (r.state n).log.threadFunc = some (r.state (n + 1)).log ∨
      (r.label n).1 ≠ .background ∧
        AsyncLogging.Stays (r.state n).log (r.state (n + 1)).log := by
  by_cases ha : (r.label n).1 = .background
  · have hs := step_log (o := (r.label n).2) (a := .background) (by rw [← ha]; exact r.step n)
    rcases AsyncLogging.background_cases (log_inv r n) hs with ⟨hthread, -⟩ | ⟨hpc, -⟩
    · exact .inl hthread
    · exact absurd ((log_inv r (n + 1)).not_destroyed (halive (n + 1)))
        ((log_inv r (n + 1)).undefined hpc)
  · exact .inr ⟨ha, AsyncLogging.step_stays ha (halive (n + 1)) hstart (step_log (r.step n))⟩

/-- A request to stop stays, and so do the lines. -/
theorem users_keep {m : ℕ} (hstart : (r.state n).log.pc ≠ .notStarted) (hnm : n ≤ m) :
    ((r.state n).log.stopRequested = true → (r.state m).log.stopRequested = true) ∧
      (r.state n).log.appended <+: (r.state m).log.appended := by
  refine (r.keeps (I := fun p => p.log.pc ≠ .notStarted ∧
    ((r.state n).log.stopRequested = true → p.log.stopRequested = true) ∧
      (r.state n).log.appended <+: p.log.appended) (fun k _ hk => ?_)
    ⟨hstart, id, List.prefix_rfl⟩ hnm).2
  obtain ⟨hpc, hstop, happ⟩ := hk
  rcases step_turn halive hpc with hs | ⟨-, hstays⟩
  · obtain ⟨-, -, hearly, -⟩ := AsyncLogging.threadFunc_pc hs
    obtain ⟨hstop', happ'⟩ := AsyncLogging.threadFunc_users hs
    rw [hstop', happ']
    refine ⟨fun h => ?_, hstop, happ⟩
    rw [h] at hearly
    cases hearly
  · exact ⟨by rw [hstays.pc]; exact hpc, fun h => hstays.stopRequested (hstop h),
      happ.trans hstays.appended⟩

include hsched

/-- The next piece of `threadFunc` runs, and what it works on is as it was. -/
theorem turn (hstart : (r.state n).log.pc ≠ .notStarted) (hret : (r.state n).log.pc ≠ .returned) :
    ∃ k, n ≤ k ∧ AsyncLogging.Stays (r.state n).log (r.state k).log ∧
      (r.state k).log.threadFunc = some (r.state (k + 1)).log := by
  have hnext : ∀ k, AsyncLogging.Stays (r.state n).log (r.state k).log →
      (r.state k).log.threadFunc = some (r.state (k + 1)).log ∨
        (r.label k).1 ≠ .background ∧
          AsyncLogging.Stays (r.state n).log (r.state (k + 1)).log := fun k hk =>
    (step_turn halive (by rw [hk.pc]; exact hstart)).imp_right fun h => ⟨h.1, hk.trans h.2⟩
  by_contra hno
  have hstays : ∀ k, n ≤ k → AsyncLogging.Stays (r.state n).log (r.state k).log ∧
      (r.label k).1 ≠ .background := by
    intro k hk
    have hall : AsyncLogging.Stays (r.state n).log (r.state k).log :=
      r.keeps (I := fun p => AsyncLogging.Stays (r.state n).log p.log)
        (fun i hi h => ((hnext i h).resolve_left fun hs => hno ⟨i, hi, h, hs⟩).2) (.refl _) hk
    exact ⟨hall, ((hnext k hall).resolve_left fun hs => hno ⟨k, hk, hall, hs⟩).1⟩
  obtain ⟨m, hm, hback | hend⟩ := hsched n
  · exact (hstays m hm).2 hback
  · exact hret ((hstays m hm).1.pc.symm.trans hend)

/-- The write loop ends, and has passed on all it had. -/
theorem write_loop {after : BackPc} (hpc : (r.state n).log.pc = .writing ∧ after = .recycle ∨
      (r.state n).log.pc = .draining ∧ after = .flush) :
    r.Eventually n fun p =>
      p.log.pc = after ∧ p.log.passed = (r.state n).log.passed ++ (r.state n).log.unwritten := by
  -- On the number of buffers left.
  induction hd : (r.state n).log.buffersToWrite.length - (r.state n).log.written using
    Nat.strong_induction_on generalizing n with
  | _ d ih =>
      obtain ⟨k, hk, hstays, hs⟩ := turn halive hsched (n := n)
        (by rcases hpc with ⟨h, -⟩ | ⟨h, -⟩ <;> rw [h] <;> simp)
        (by rcases hpc with ⟨h, -⟩ | ⟨h, -⟩ <;> rw [h] <;> simp)
      have hwrite : (r.state (k + 1)).log = (r.state k).log.write after := by
        unfold AsyncLogging.threadFunc at hs
        rcases hpc with ⟨h, rfl⟩ | ⟨h, rfl⟩ <;>
          · rw [hstays.pc, h] at hs
            exact (Option.some.inj hs).symm
      have hbytes := AsyncLogging.write_bytes (r.state k).log after
      have hun : (r.state k).log.unwritten = (r.state n).log.unwritten := by
        rw [AsyncLogging.unwritten, AsyncLogging.unwritten, hstays.buffersToWrite, hstays.written]
      rw [← hwrite, hstays.passed, hun] at hbytes
      rcases AsyncLogging.write_eq (r.state k).log after with ⟨b, hb, heq⟩ | ⟨hlen, heq⟩
      · have hlt : (r.state k).log.written < (r.state k).log.buffersToWrite.length :=
          (List.getElem?_eq_some_iff.mp hb).1
        rw [heq] at hwrite
        have hless : (r.state (k + 1)).log.buffersToWrite.length -
            (r.state (k + 1)).log.written < d := by
          rw [hwrite, ← hd, ← hstays.buffersToWrite, ← hstays.written]
          dsimp only
          omega
        have hpc' : (r.state (k + 1)).log.pc = (r.state n).log.pc := by
          rw [hwrite]
          exact hstays.pc
        obtain ⟨m, hm, hend, hpassed⟩ := ih _ hless (n := k + 1) (by rw [hpc']; exact hpc) rfl
        exact ⟨m, by omega, hend, hpassed.trans hbytes⟩
      · rw [heq] at hwrite
        refine ⟨k + 1, by omega, by rw [hwrite], ?_⟩
        have hnone : (r.state (k + 1)).log.unwritten = [] :=
          AsyncLogging.unwritten_of_finished (by rw [hwrite]; exact hlen)
        rw [hnone, List.append_nil] at hbytes
        exact hbytes

/-- One turn of a thread that is at a certain point. -/
theorem turn_at {pc : BackPc} (hpc : (r.state n).log.pc = pc) (hstart : pc ≠ .notStarted)
    (hret : pc ≠ .returned) :
    ∃ k, n ≤ k ∧ (r.state n).log.appended <+: (r.state k).log.appended ∧
      (r.state k).log.pc = pc ∧ (r.state k).log.threadFunc = some (r.state (k + 1)).log := by
  obtain ⟨k, hk, hstays, hs⟩ := turn halive hsched (n := n) (by rw [hpc]; exact hstart)
    (by rw [hpc]; exact hret)
  exact ⟨k, hk, hstays.appended, hstays.pc.trans hpc, hs⟩

theorem test_locks (hpc : (r.state n).log.pc = .test) :
    r.Eventually n fun p => p.log.pc = .waiting ∨ p.log.pc = .final := by
  obtain ⟨k, hk, -, hpc', hs⟩ := turn_at halive hsched hpc (by simp) (by simp)
  rw [AsyncLogging.threadFunc, hpc'] at hs
  have hnext := Option.some.inj hs
  by_cases hstop : (r.state k).log.stopRequested = true
  · refine ⟨k + 1, by omega, .inr ?_⟩
    rw [← hnext]
    exact if_pos hstop
  · have henter : (r.state (k + 1)).log.pc = .enter := by
      rw [← hnext]
      exact if_neg hstop
    obtain ⟨m, hm, -, hpc', hs⟩ := turn_at halive hsched henter (by simp) (by simp)
    rw [AsyncLogging.threadFunc, hpc'] at hs
    exact ⟨m + 1, by omega, .inl (congrArg AsyncLogging.pc (Option.some.inj hs)).symm⟩

theorem recycle_tests (hpc : (r.state n).log.pc = .recycle) :
    r.Eventually n fun p => p.log.pc = .test := by
  obtain ⟨k, hk, -, hpc', hs⟩ := turn_at halive hsched hpc (by simp) (by simp)
  rw [AsyncLogging.threadFunc, hpc'] at hs
  obtain ⟨b1, b2, -, -, heq⟩ := (log_inv r k).slots.recycle hpc'
  dsimp only at hs
  rw [heq] at hs
  exact ⟨k + 1, by omega, (congrArg AsyncLogging.pc (Option.some.inj hs)).symm⟩

/-- A thread that has not passed its last critical section comes to one. -/
theorem locks (hstart : (r.state n).log.pc ≠ .notStarted)
    (hpast : pastFinal (r.state n).log.pc = false) :
    r.Eventually n fun p => p.log.pc = .waiting ∨ p.log.pc = .final := by
  cases hpc : (r.state n).log.pc with
  | notStarted => exact absurd hpc hstart
  | begin =>
      obtain ⟨k, hk, -, hpc', hs⟩ := turn_at halive hsched hpc (by simp) (by simp)
      rw [AsyncLogging.threadFunc, hpc'] at hs
      have htest : (r.state (k + 1)).log.pc = .test :=
        (congrArg AsyncLogging.pc (Option.some.inj hs)).symm
      obtain ⟨m, hm, hlock⟩ := test_locks halive hsched htest
      exact ⟨m, by omega, hlock⟩
  | test => exact test_locks halive hsched hpc
  | enter =>
      obtain ⟨k, hk, -, hpc', hs⟩ := turn_at halive hsched hpc (by simp) (by simp)
      rw [AsyncLogging.threadFunc, hpc'] at hs
      exact ⟨k + 1, by omega, .inl (congrArg AsyncLogging.pc (Option.some.inj hs)).symm⟩
  | waiting => exact ⟨n, Nat.le_refl _, .inl hpc⟩
  | final => exact ⟨n, Nat.le_refl _, .inr hpc⟩
  | writing =>
      refine (write_loop halive hsched (.inl ⟨hpc, rfl⟩)).bind fun m _ hm => ?_
      exact (recycle_tests halive hsched hm.1).bind fun k _ hk => test_locks halive hsched hk
  | recycle =>
      exact (recycle_tests halive hsched hpc).bind fun k _ hk => test_locks halive hsched hk
  | draining | flush | returned =>
      rw [hpc] at hpast
      cases hpast
  | undefined =>
      exact absurd ((log_inv r n).not_destroyed (halive n)) ((log_inv r n).undefined hpc)

/-- What the loop takes it writes. -/
theorem swap_writes (hpc : (r.state n).log.pc = .waiting) :
    r.Eventually n fun p =>
      p.log.pc = .recycle ∧ bytes (r.state n).log.appended <+: p.log.passed := by
  obtain ⟨k, hk, happ, hpc', hs⟩ := turn_at halive hsched hpc (by simp) (by simp)
  rw [AsyncLogging.threadFunc, hpc'] at hs
  have hi := log_inv r k
  obtain ⟨hwriting, hbytes⟩ :=
    AsyncLogging.swap_all hi (hi.not_destroyed (halive k)) hpc' hs
  obtain ⟨m, hm, hend, hpassed⟩ := write_loop halive hsched (.inl ⟨hwriting, rfl⟩)
  refine ⟨m, by omega, hend, ?_⟩
  rw [hpassed, hbytes]
  exact AsyncLogging.bytes_prefix happ

/-- And so it does with what the last critical section takes. -/
theorem last_writes (hpc : (r.state n).log.pc = .final) :
    r.Eventually n fun p =>
      p.log.pc = .flush ∧ bytes (r.state n).log.appended <+: p.log.passed := by
  obtain ⟨k, hk, happ, hpc', hs⟩ := turn_at halive hsched hpc (by simp) (by simp)
  rw [AsyncLogging.threadFunc, hpc'] at hs
  have hi := log_inv r k
  obtain ⟨hdraining, hbytes⟩ :=
    AsyncLogging.last_all hi (hi.not_destroyed (halive k)) hpc' hs
  obtain ⟨m, hm, hend, hpassed⟩ := write_loop halive hsched (.inr ⟨hdraining, rfl⟩)
  refine ⟨m, by omega, hend, ?_⟩
  rw [hpassed, hbytes]
  exact AsyncLogging.bytes_prefix happ

theorem flush_returns (hpc : (r.state n).log.pc = .flush) :
    r.Eventually n fun p => p.log.pc = .returned := by
  obtain ⟨k, hk, -, hpc', hs⟩ := turn_at halive hsched hpc (by simp) (by simp)
  rw [AsyncLogging.threadFunc, hpc'] at hs
  exact ⟨k + 1, by omega, (congrArg AsyncLogging.pc (Option.some.inj hs)).symm⟩

/-- After a request to stop the loop's next test is its last. -/
theorem test_returns (hpc : (r.state n).log.pc = .test)
    (hstop : (r.state n).log.stopRequested = true) :
    r.Eventually n fun p => p.log.pc = .returned := by
  obtain ⟨k, hk, -, hpc', hs⟩ := turn_at halive hsched hpc (by simp) (by simp)
  rw [AsyncLogging.threadFunc, hpc'] at hs
  have hfinal : (r.state (k + 1)).log.pc = .final := by
    rw [← Option.some.inj hs]
    exact if_pos ((users_keep halive (by rw [hpc]; simp) hk).1 hstop)
  obtain ⟨m, hm, hend⟩ := (last_writes halive hsched hfinal).bind fun m _ hm =>
    flush_returns halive hsched hm.1
  exact ⟨m, by omega, hend⟩

/-- And the thread returns. -/
theorem stopped_returns (hstart : (r.state n).log.pc ≠ .notStarted)
    (hstop : (r.state n).log.stopRequested = true) :
    r.Eventually n fun p => p.log.pc = .returned := by
  cases hpast : pastFinal (r.state n).log.pc with
  | false =>
      refine (locks halive hsched hstart hpast).bind fun m hm hlock => ?_
      rcases hlock with hwaiting | hfinal
      · refine (swap_writes halive hsched hwaiting).bind fun k hk hwrote => ?_
        refine (recycle_tests halive hsched hwrote.1).bind fun i hi htest => ?_
        exact test_returns halive hsched htest
          ((users_keep halive hstart (by omega)).1 hstop)
      · exact (last_writes halive hsched hfinal).bind fun k _ hk =>
          flush_returns halive hsched hk.1
  | true =>
      cases hpc : (r.state n).log.pc with
      | draining =>
          exact (write_loop halive hsched (.inr ⟨hpc, rfl⟩)).bind fun k _ hk =>
            flush_returns halive hsched hk.1
      | flush => exact flush_returns halive hsched hpc
      | returned => exact ⟨n, Nat.le_refl _, hpc⟩
      | _ =>
          rw [hpc] at hpast
          cases hpast

end Alive

/-- While the logger is alive, and its thread gets its turn until it returns,
every line appended before the last critical section comes to be in the files,
and after `stop()` the thread returns. -/
theorem lines_reach_files (halive : ∀ n, (r.state n).log.dtor = .alive) (hsched : Scheduled r)
    (hstart : (r.state n).log.pc ≠ .notStarted) :
    (pastFinal (r.state n).log.pc = false → r.Eventually n fun p =>
      bytes (r.state n).log.appended <+: (p.files.map FILE.bytes).flatten) ∧
    ((r.state n).log.stopRequested = true → r.Eventually n fun p => p.log.pc = .returned) := by
  refine ⟨fun hpast => ?_, stopped_returns halive hsched hstart⟩
  refine (locks halive hsched hstart hpast).bind fun m hm hlock => ?_
  have happ := AsyncLogging.bytes_prefix (users_keep halive hstart hm).2
  have hwrites : r.Eventually m fun p => bytes (r.state m).log.appended <+: p.log.passed := by
    rcases hlock with hwaiting | hfinal
    · exact (swap_writes halive hsched hwaiting).bind fun k _ hk => ⟨k, Nat.le_refl _, hk.2⟩
    · exact (last_writes halive hsched hfinal).bind fun k _ hk => ⟨k, Nat.le_refl _, hk.2⟩
  refine hwrites.bind fun k _ hk => ?_
  have hall := happ.trans hk
  rw [← (piped (r.reachIf k)).flatten] at hall
  exact ⟨k, Nat.le_refl _, hall⟩

/-- A line, `stop()`, and a thread that returns. -/
theorem lines_reach_files_stopped :
    ∃ r : (lts ⟨fun _ => "", 7⟩ ⟨"app", 2, 3⟩).RunIf (Smooth ⟨fun _ => "", 7⟩ ⟨"app", 2, 3⟩),
      (r.state 0).log.passed = [] ∧
        (r.Eventually 0 fun p => [1, 2, 3] <+: (p.files.map FILE.bytes).flatten) ∧
        r.Eventually 0 fun p => p.log.pc = .returned := by
  let o : Outcome := ⟨9, 1, 1, true⟩
  obtain ⟨p, hp, ht⟩ := Lts.exists_reachIf (lts ⟨fun _ => "", 7⟩ ⟨"app", 2, 3⟩)
    (Smooth ⟨fun _ => "", 7⟩ ⟨"app", 2, 3⟩)
    [(.start, o), (.background, o), (.append ⟨[1, 2, 3], Nat.le_of_ble_eq_true rfl⟩, o), (.stop, o)]
    (fun p : LogPipeline => decide (p.log.pc = .test ∧ p.log.stopRequested = true ∧
        p.log.passed = [] ∧ bytes p.log.appended = [1, 2, 3]) &&
      ((lts ⟨fun _ => "", 7⟩ ⟨"app", 2, 3⟩).runIf (Smooth ⟨fun _ => "", 7⟩ ⟨"app", 2, 3⟩) p
        (List.replicate 5 (.background, o))).any fun p : LogPipeline =>
          decide (p.log.pc = .returned ∧ p.log.dtor = .alive)) rfl (by decide +kernel)
  obtain ⟨hbegin, hend⟩ := Bool.and_eq_true_iff.mp ht
  obtain ⟨hpc, hstop, hpassed, hbytes⟩ := of_decide_eq_true hbegin
  obtain ⟨x, hx, hx'⟩ := (Option.any_eq_true _ _).mp hend
  -- Once the thread has returned, someone calls `stop()` for ever.
  obtain ⟨r, hr, hI, -⟩ := Lts.exists_runIf
    (I := fun p => p.log.pc = .returned ∧ p.log.dtor = .alive) (fun _ => (.stop, o))
    (fun y hy => ⟨trivial, { y with log := { y.log with stopRequested := true } },
      by simp [lts, step, AsyncLogging.step, hy.2], hy⟩) (hp.of_runIf hx) (of_decide_eq_true hx')
  obtain ⟨q, N, hq, -, hsuffix⟩ := r.exists_append hp (hr ▸ hx)
  have hreturned : ∀ n, (q.state (N + n)).log.pc = .returned ∧
      (q.state (N + n)).log.dtor = .alive := fun n => by
    rw [(hsuffix n).1]
    exact hI n
  have halive : ∀ n, (q.state n).log.dtor = .alive := by
    intro n
    by_contra hn
    exact q.keeps (n := n) (m := N + n) (I := fun p => p.log.dtor ≠ .alive)
      (fun k _ hk ha => hk (AsyncLogging.alive_before (step_log (q.step k)) ha)) hn (by omega)
      (hreturned n).2
  have hsched : Scheduled q := fun n => ⟨N + n, by omega, .inr (hreturned n).1⟩
  have hlines := lines_reach_files halive hsched (n := 0) (by rw [hq, hpc]; simp)
  rw [hq, hbytes] at hlines
  exact ⟨q, by rw [hq]; exact hpassed, hlines.1 (by rw [hpc]; rfl), hlines.2 hstop⟩

end LogPipeline

end Muduox.Base
