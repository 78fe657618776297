import Muduox.Proofs.LogTeardown

/-!
# The buffer slots of `AsyncLogging`

A logline longer than a buffer never fits into what is left of the current one,
and fills the next: to the slots it is the same as the part of it that a buffer
can hold (`appendAny_eq`). So what `LogDelivery` proves of lines that fit holds
of all.
-/

namespace Muduox.Base

namespace FixedBuffer

theorem append_take {SIZE : Nat} (b : FixedBuffer SIZE) (buf : List UInt8) :
    b.append (buf.take SIZE) = b.append buf := by
  have havail : b.avail ≤ SIZE := Nat.sub_le _ _
  have hdata : (buf.take SIZE).take (min b.avail (buf.take SIZE).length) =
      buf.take (min b.avail buf.length) := by
    rw [List.take_take, List.length_take]
    congr 1
    omega
  unfold append
  congr 2

theorem avail_take {SIZE : Nat} (b : FixedBuffer SIZE) (buf : List UInt8) :
    b.avail > (buf.take SIZE).length ↔ b.avail > buf.length := by
  have havail : b.avail ≤ SIZE := Nat.sub_le _ _
  rw [List.length_take]
  omega

end FixedBuffer

namespace AsyncLogging

theorem appendAny_eq (s : AsyncLogging) (logline : List UInt8) :
    s.appendAny logline = s.append (cut logline) := by
  unfold appendAny append
  split
  · rfl
  · next b hb =>
      simp only [cut, FixedBuffer.append_take, FixedBuffer.avail_take]

theorem background_alive {s s' : AsyncLogging} (hs : s.background = some s') :
    s'.dtor = s.dtor := by
  unfold background at hs
  dsimp only at hs
  split at hs
  · exact (threadFunc_frame hs).2.2
  · cases hs
    rfl

/-- A run without the destructor is a run. -/
theorem reach_of_live {s : AsyncLogging} (h : live.Reach s) : lts.Reach s ∧ s.dtor = .alive := by
  refine Lts.Reach.inv (I := fun s => lts.Reach s ∧ s.dtor = .alive) ?_ ?_ h
  · rintro s rfl
    exact ⟨.init rfl, rfl⟩
  · rintro s a s' ⟨hr, halive⟩ hs
    cases a with
    | start =>
        refine ⟨hr.step (a := .start) hs, ?_⟩
        obtain ⟨_, hs⟩ := Option.ite_none_right_eq_some.mp hs
        cases hs
        exact halive
    | append logline =>
        have hs : s.append (cut logline) = some s' := (appendAny_eq s logline).symm.trans hs
        obtain ⟨-, -, -, -, -, -, -, -, hdtor, -⟩ := append_frame hs
        exact ⟨hr.step (a := .append (cut logline)) ((if_pos halive).trans hs),
          hdtor.trans halive⟩
    | stop =>
        refine ⟨hr.step (a := .stop) hs, ?_⟩
        obtain ⟨_, hs⟩ := Option.ite_none_right_eq_some.mp hs
        cases hs
        exact halive
    | background =>
        exact ⟨hr.step (a := .background) hs, (background_alive hs).trans halive⟩

/-- Between any two steps the slots are filled as the code expects them, and so
no `append`, and no piece of `threadFunc`, follows a null pointer or fails an
assertion: each has an outcome, until `threadFunc` has returned. -/
theorem slots_filled {s : AsyncLogging} (h : live.Reach s) :
    s.currentBuffer_ ≠ none ∧ (∀ b ∈ s.nextBuffer_, b.length = 0) ∧
      (s.pc = .test → ∃ b1 b2, s.newBuffer1 = some b1 ∧ s.newBuffer2 = some b2 ∧
        b1.length = 0 ∧ b2.length = 0) ∧
      (∀ logline, (live.step s (.append logline)).isSome) ∧
      (s.pc ≠ .notStarted → s.pc ≠ .returned → (live.step s .background).isSome) := by
  obtain ⟨hr, halive⟩ := reach_of_live h
  have hi := inv hr
  have hd := hi.not_destroyed halive
  have hin := hi.intact hd
  refine ⟨hin.current, fun b hb => ?_, fun hpc => ?_, fun logline => ?_, fun hstart hret => ?_⟩
  · rw [FixedBuffer.length, hin.spare b hb]
    rfl
  · obtain ⟨h1, h2⟩ := hi.slots.ready (by rw [hpc]; rfl)
    obtain ⟨b1, hb1⟩ := Option.ne_none_iff_exists'.mp h1
    obtain ⟨b2, hb2⟩ := Option.ne_none_iff_exists'.mp h2
    exact ⟨b1, b2, hb1, hb2, List.length_eq_zero_iff.mpr (hi.slots.spare.1 b1 hb1),
      List.length_eq_zero_iff.mpr (hi.slots.spare.2 b2 hb2)⟩
  · change (s.appendAny logline).isSome
    rw [appendAny_eq]
    exact hin.append_isSome _
  · exact hi.background_isSome hd hstart hret

/-- `threadFunc` is at the top of its loop for the second time, after a logline
that came while it was writing. -/
theorem slots_filled_second : ∃ s : AsyncLogging, s.pc = .test ∧ s.passed = [1] ∧
    ∃ b1 b2, s.newBuffer1 = some b1 ∧ s.newBuffer2 = some b2 ∧ b1.length = 0 ∧ b2.length = 0 := by
  obtain ⟨s, hs, hp⟩ := Lts.exists_reach live
    [.start, .background, .append [1], .background, .background, .background, .append [2],
      .background, .background, .background]
    (fun s => decide (s.pc = .test ∧ s.passed = [1])) rfl (by decide +kernel)
  obtain ⟨hpc, hpassed⟩ := of_decide_eq_true hp
  exact ⟨s, hpc, hpassed, (slots_filled hs).2.2.1 hpc⟩

end AsyncLogging

end Muduox.Base
