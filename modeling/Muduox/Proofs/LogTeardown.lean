import Muduox.Proofs.LogDelivery

/-!
# Destroying the logger

`~AsyncLogging()` asks `threadFunc` to stop and does not wait for it: the members
are destroyed first, then `thread_`, which was declared before them and joins.
A `threadFunc` that is not past its last critical section by then uses members
that are gone, and a line that came after that section is never passed on.
-/

namespace Muduox.Base

namespace AsyncLogging

/-- `threadFunc` has no use for the members any more, and has all the lines. -/
def Flushed (s : AsyncLogging) : Prop :=
  s.pc = .notStarted ∨ pastFinal s.pc = true ∧ s.appended = s.beforeFinal

instance (s : AsyncLogging) : Decidable (Flushed s) := by
  unfold Flushed
  infer_instance

/-- The destructor takes its first member only after that. -/
def FlushedFirst (s : AsyncLogging) : Step → Prop
  | .destroy => s.dtor ≠ .alive → s.destroyed = [] → Flushed s
  | _ => True

instance (s : AsyncLogging) (a : Step) : Decidable (FlushedFirst s a) := by
  unfold FlushedFirst
  split <;> infer_instance

/-- What those runs keep. -/
structure Safe (s : AsyncLogging) : Prop where
  flushed : s.destroyed ≠ [] → Flushed s
  misused : s.misused = []
  joined : s.dtor = .done → s.pc = .returned ∨ s.pc = .notStarted

section Pieces

variable {s s' : AsyncLogging}

/-- No piece past the last critical section uses a member. -/
theorem Flushed.uses (h : Flushed s) : uses s.pc = [] := by
  rcases h with hpc | ⟨hpc, -⟩
  · rw [hpc]
    rfl
  · cases hpc' : s.pc with
    | draining | flush | returned => rfl
    | _ =>
        rw [hpc'] at hpc
        cases hpc

/-- Nor does it leave that part of `threadFunc`. -/
theorem Flushed.threadFunc (h : Flushed s) (hs : s.threadFunc = some s') : Flushed s' := by
  unfold AsyncLogging.threadFunc at hs
  rcases h with hpc | ⟨hpc, hlines⟩
  · rw [hpc] at hs
    cases hs
  · cases hpc' : s.pc with
    | draining =>
        rw [hpc'] at hs
        cases hs
        rcases write_eq s .flush with ⟨b, -, heq⟩ | ⟨-, heq⟩ <;> rw [heq]
        · exact .inr ⟨by rw [hpc']; rfl, hlines⟩
        · exact .inr ⟨rfl, hlines⟩
    | flush =>
        rw [hpc'] at hs
        cases hs
        exact .inr ⟨rfl, hlines⟩
    | returned =>
        rw [hpc'] at hs
        cases hs
    | _ =>
        rw [hpc'] at hpc
        cases hpc

/-- `threadFunc` destroys no member. -/
theorem threadFunc_frame (hs : s.threadFunc = some s') :
    s'.destroyed = s.destroyed ∧ s'.misused = s.misused ∧ s'.dtor = s.dtor := by
  unfold AsyncLogging.threadFunc at hs
  cases hpc : s.pc <;> rw [hpc] at hs
  case notStarted | returned | undefined => cases hs
  case begin | test | enter | flush =>
    cases hs
    exact ⟨rfl, rfl, rfl⟩
  case waiting =>
    dsimp only at hs
    unfold AsyncLogging.swap at hs
    split at hs
    · cases hs
    · cases hs
      dsimp only
      split <;> exact ⟨rfl, rfl, rfl⟩
  case writing | draining =>
    cases hs
    unfold AsyncLogging.write
    split <;> exact ⟨rfl, rfl, rfl⟩
  case recycle =>
    dsimp only at hs
    unfold AsyncLogging.recycle at hs
    obtain ⟨_, -, hs⟩ := Option.bind_eq_some_iff.mp hs
    obtain ⟨_, -, rfl⟩ := Option.map_eq_some_iff.mp hs
    exact ⟨rfl, rfl, rfl⟩
  case final =>
    dsimp only at hs
    unfold AsyncLogging.last at hs
    split at hs
    · cases hs
    · dsimp only at hs
      split at hs <;> cases hs <;> exact ⟨rfl, rfl, rfl⟩

theorem Safe.background (h : Safe s) (hs : s.background = some s') : Safe s' := by
  unfold AsyncLogging.background at hs
  dsimp only at hs
  split at hs
  · obtain ⟨hd, hm, hdtor⟩ := threadFunc_frame hs
    refine ⟨fun he => ?_, hm.trans h.misused, fun hdone => ?_⟩
    · rw [hd] at he
      exact (h.flushed he).threadFunc hs
    · -- Nothing runs after the join.
      rw [hdtor] at hdone
      unfold AsyncLogging.threadFunc at hs
      rcases h.joined hdone with hpc | hpc <;> rw [hpc] at hs <;> cases hs
  · next hgone =>
      -- A piece that uses a member comes before the first of them is destroyed.
      refine absurd ?_ hgone
      rw [List.filter_eq_nil_iff]
      intro m hm hgone
      have hd : s.destroyed ≠ [] := List.ne_nil_of_mem (of_decide_eq_true hgone)
      rw [(h.flushed hd).uses] at hm
      cases hm

theorem Safe.destroy (h : Safe s) (hc : FlushedFirst s .destroy) (hs : s.destroy = some s') :
    Safe s' := by
  unfold AsyncLogging.destroy at hs
  split at hs
  · cases hs
    exact ⟨h.flushed, h.misused, by simp⟩
  · next m ms hd =>
      cases hs
      have hflushed : Flushed s := by
        by_cases he : s.destroyed = []
        · exact hc (by rw [hd]; simp) he
        · exact h.flushed he
      obtain ⟨hpc, _, _, _, _, _, hf, ha⟩ := clear_frame s m
      have hm : (s.clear m).misused = s.misused := by cases m <;> rfl
      refine ⟨fun _ => ?_, hm.trans h.misused, by simp⟩
      simpa only [Flushed, hpc, ha, hf] using hflushed
  · split at hs
    · next hpc =>
        cases hs
        exact ⟨h.flushed, h.misused, fun _ => hpc⟩
    · cases hs
  · cases hs

theorem Safe.step (h : Safe s) (hi : Inv s) {a : Step} (hc : FlushedFirst s a)
    (hs : lts.step s a = some s') : Safe s' := by
  change AsyncLogging.step s a = some s' at hs
  unfold AsyncLogging.step at hs
  cases a with
  | start =>
      dsimp only at hs
      split at hs
      · next halive =>
          cases hs
          exact ⟨fun he => absurd (hi.not_destroyed halive.1) he, h.misused,
            fun hd => by rw [halive.1] at hd; cases hd⟩
      · cases hs
  | append line =>
      dsimp only at hs
      split at hs
      · next halive =>
          obtain ⟨_, _, _, _, _, _, _, _, hdtor, hd⟩ := append_frame hs
          refine ⟨fun he => absurd (hd.trans (hi.not_destroyed halive)) he, ?_,
            fun hdone => by rw [hdtor, halive] at hdone; cases hdone⟩
          unfold AsyncLogging.append at hs
          split at hs
          · cases hs
          · dsimp only at hs
            split at hs <;> cases hs <;> exact h.misused
      · cases hs
  | stop =>
      dsimp only at hs
      split at hs
      · cases hs
        exact ⟨h.flushed, h.misused, h.joined⟩
      · cases hs
  | background => exact h.background hs
  | destroy => exact h.destroy hc hs

end Pieces

/-- Along runs in which the destructor takes its first member when `threadFunc`
is past its last critical section and no line came after it, `threadFunc` uses
no member that is being destroyed, and when the destructor is done all the
lines of a started logger were passed to `LogFile`, in their order. -/
theorem teardown_flushes {s : AsyncLogging} (h : Lts.ReachIf lts FlushedFirst s) :
    s.misused = [] ∧
      (s.pc ≠ .notStarted → s.dtor = .done → s.passed = bytes s.appended) := by
  have hsafe : Safe s := by
    refine Lts.ReachIf.inv_of (K := Inv) (fun _ hr => inv hr.reach) (fun s hs => ?_)
      (fun s a s' hi hI hc hs => hI.step hi hc hs) h
    rw [show s = {} from hs]
    exact ⟨by simp, rfl, by simp⟩
  refine ⟨hsafe.misused, fun hstart hdone => ?_⟩
  have hi := inv h.reach
  have hd : s.destroyed ≠ [] := by
    have horder := hi.order
    intro hd
    rw [hd, hdone] at horder
    cases horder
  rcases hsafe.flushed hd with hpc | ⟨hpc, hlines⟩
  · exact absurd hpc hstart
  · have hret := (hsafe.joined hdone).resolve_right hstart
    have hun := unwritten_of_finished (hi.slots.finished (by rw [hret]; rfl))
    have hbytes := (hi.drained hpc).bytes
    rw [hun, List.append_nil] at hbytes
    rw [hbytes, hlines]

/-- `stop()` came first and the thread is done when the destructor runs. -/
theorem teardown_flushes_stopped :
    ∃ s : AsyncLogging, s.dtor = .done ∧ s.misused = [] ∧ s.passed = [1, 2, 3] := by
  obtain ⟨s, hs, hp⟩ := Lts.exists_reachIf lts FlushedFirst
    [.start, .background, .append ⟨[1, 2, 3], by decide⟩, .stop, .background, .background,
      .background, .background, .background, .destroy, .destroy, .destroy, .destroy, .destroy,
      .destroy, .destroy]
    (fun s => decide (s.dtor = .done ∧ s.pc = .returned ∧ bytes s.appended = [1, 2, 3]))
    rfl (by decide +kernel)
  obtain ⟨hdone, hret, hbytes⟩ := of_decide_eq_true hp
  obtain ⟨hmisused, hpassed⟩ := teardown_flushes hs
  exact ⟨s, hdone, hmisused, (hpassed (by simp [hret]) hdone).trans hbytes⟩

/-- The destructor runs while `threadFunc` waits. -/
theorem waiting_thread_misuses :
    ¬ ∀ s : AsyncLogging, lts.Reach s → s.pc ≠ .notStarted →
      s.misused = [] ∧ (s.dtor = .done → s.passed = bytes s.appended) := by
  intro h
  obtain ⟨s, hs, hp⟩ := Lts.exists_reach lts
    [.start, .background, .background, .background, .append ⟨[1, 2, 3], by decide⟩, .destroy,
      .destroy, .background]
    (fun s => decide (s.pc = .undefined ∧ s.misused = [.buffers_])) rfl (by decide +kernel)
  obtain ⟨hpc, hmisused⟩ := of_decide_eq_true hp
  have hnone := (h s hs (by simp [hpc])).1
  rw [hmisused] at hnone
  cases hnone

end AsyncLogging

end Muduox.Base
