import Muduox.Proofs.ReactorSteps

/-!
# Sleeping with pending work

`queueInLoop` wakes the loop only when another thread calls it. That is enough
when the loop's thread pushes while it dispatches events, for then
`doPendingFunctors` is still ahead of it in the same iteration. It is not when
the push comes from a functor, after `doPendingFunctors` has swapped the queue,
or from the loop's thread before `loop()`: the next call of `poll` finds the
functor queued and nothing to wake it.

`PushesAwake` is what separates the two, a condition on the state in which the
loop's own thread pushes. The invariant (`Woken`) gives every queued functor
one of three reasons why the loop will come to it: the swap is still ahead on
the loop's stack, a byte is unread, or the thread that pushed it stands at
`wakeup`. At `poll` the first is gone (`Sound.poll_top`), which is the result.
-/

namespace Muduox.Net.Reactor

open Threads

variable {A Ch S : Type} {P : App A Ch S}

/-- Thread `t` is about to enter `wakeup()` of loop `l`. -/
def AtWakeup (s : Config ThreadId (Frame A) (Reactor A S)) (t : ThreadId) (l : LoopId) : Prop :=
  (s.stack t).head? = some (.wakeup l)

/-- No loop enters `poll` over a queued functor without an unread wakeup byte,
unless the functor's thread has yet to send it. -/
def NoSleepWithPending (s : Config ThreadId (Frame A) (Reactor A S)) : Prop :=
  ∀ l, (s.stack (.loop l)).head? = some (.poll l) →
    ∀ p ∈ (s.shared.loop l).pendingFunctors_,
      0 < (s.shared.loop l).wakeupBytes ∨ AtWakeup s p.1 l

/-- The loop whose queue a frame is about to push to. -/
def pushesTo : Frame A → Option LoopId
  | .queueInLoop l _ => some l
  | _ => none

/-- A loop's own thread queues a functor only while `doPendingFunctors` is still
ahead in its iteration, or while a wakeup byte is unread anyway. -/
def PushesAwake (s : Config ThreadId (Frame A) (Reactor A S)) (a : ThreadId × Choice A Ch) :
    Prop :=
  ∀ l ∈ (s.stack a.1).head?.bind pushesTo, a.1 = .loop l →
    .doPendingFunctors l ∈ s.stack (.loop l) ∨ 0 < (s.shared.loop l).wakeupBytes

instance [DecidableEq A] (s : Config ThreadId (Frame A) (Reactor A S))
    (a : ThreadId × Choice A Ch) : Decidable (PushesAwake s a) :=
  inferInstanceAs (Decidable (∀ l ∈ (s.stack a.1).head?.bind pushesTo, a.1 = .loop l →
    .doPendingFunctors l ∈ s.stack (.loop l) ∨ 0 < (s.shared.loop l).wakeupBytes))

/-- Why loop `l` will come to what `p.1` pushed. -/
def Due (s : Config ThreadId (Frame A) (Reactor A S)) (l : LoopId) (t : ThreadId) : Prop :=
  .doPendingFunctors l ∈ s.stack (.loop l) ∨ 0 < (s.shared.loop l).wakeupBytes ∨ AtWakeup s t l

/-- Every queued functor is due. -/
def Woken (s : Config ThreadId (Frame A) (Reactor A S)) : Prop :=
  ∀ l, ∀ p ∈ (s.shared.loop l).pendingFunctors_, Due s l p.1

/-- What was due stays due when the frame that runs is not what made it so. -/
theorem Due.resume {s : Config ThreadId (Frame A) (Reactor A S)} {t : ThreadId} {f : Frame A}
    {x : Reactor A S} {next rest : List (Frame A)} (ht : s.stack t = f :: rest) {l : LoopId}
    {u : ThreadId} (h : Due s l u) (hf : f ≠ .doPendingFunctors l ∨ t ≠ .loop l)
    (hb : 0 < (s.shared.loop l).wakeupBytes → 0 < (x.loop l).wakeupBytes)
    (hw : f ≠ .wakeup l) : Due (s.resume t x next rest) l u := by
  rcases h with h | h | h
  · refine .inl (Config.mem_resume ht h ?_)
    rcases hf with hf | hf
    · exact .inl (Ne.symm hf)
    · exact .inr (Ne.symm hf)
  · exact .inr (.inl (hb h))
  · refine .inr (.inr ?_)
    by_cases hu : u = t
    · subst hu
      rw [AtWakeup, ht, List.head?_cons, Option.some.injEq] at h
      exact absurd h hw
    · rw [AtWakeup, Config.resume_stack_of_ne s hu]
      exact h

/-- The steps that neither queue, swap nor touch the wakeup socket. -/
theorem Woken.frame {s : Config ThreadId (Frame A) (Reactor A S)} (h : Woken s) {t : ThreadId}
    {f : Frame A} {x : Reactor A S} {next rest : List (Frame A)} (ht : s.stack t = f :: rest)
    (hx : ∀ l, (x.loop l).pendingFunctors_ = (s.shared.loop l).pendingFunctors_ ∧
      (x.loop l).wakeupBytes = (s.shared.loop l).wakeupBytes)
    (hf : ∀ l, f ≠ .doPendingFunctors l) (hw : ∀ l, f ≠ .wakeup l) :
    Woken (s.resume t x next rest) := by
  intro l p hp
  rw [Config.resume_shared, (hx l).1] at hp
  exact (h l p hp).resume ht (.inl (hf l)) (fun hb => by rw [(hx l).2]; exact hb) (hw l)

/-- A step on loop `l` and the functors of another loop. -/
theorem Woken.elsewhere {s : Config ThreadId (Frame A) (Reactor A S)} (h : Woken s) {t : ThreadId}
    {f : Frame A} {next rest : List (Frame A)} (ht : s.stack t = f :: rest) {k l : LoopId}
    {e : EventLoop A} (hk : k ≠ l) {p : ThreadId × Frame A}
    (hp : p ∈ ((s.shared.setLoop l e).loop k).pendingFunctors_)
    (hf : f ≠ .doPendingFunctors k) (hw : f ≠ .wakeup k) :
    Due (s.resume t (s.shared.setLoop l e) next rest) k p.1 := by
  rw [setLoop_loop_of_ne _ hk] at hp
  refine (h k p hp).resume ht (.inl hf) (fun hb => ?_) hw
  rw [setLoop_loop_of_ne _ hk]
  exact hb

/-- An update of one loop that leaves its queue and its wakeup bytes alone. -/
theorem setLoop_keeps {s : Reactor A S} {l : LoopId} {e : EventLoop A}
    (hp : e.pendingFunctors_ = (s.loop l).pendingFunctors_)
    (hb : e.wakeupBytes = (s.loop l).wakeupBytes) (k : LoopId) :
    ((s.setLoop l e).loop k).pendingFunctors_ = (s.loop k).pendingFunctors_ ∧
      ((s.setLoop l e).loop k).wakeupBytes = (s.loop k).wakeupBytes := by
  by_cases hk : k = l
  · subst hk
    rw [setLoop_loop_self]
    exact ⟨hp, hb⟩
  · rw [setLoop_loop_of_ne s hk]
    exact ⟨rfl, rfl⟩

/-- The push: the new functor has to be due on its own account. -/
theorem Woken.queue {s : Config ThreadId (Frame A) (Reactor A S)} (h : Woken s) {t : ThreadId}
    {l : LoopId} {cb : Frame A} {next rest : List (Frame A)}
    (ht : s.stack t = .queueInLoop l cb :: rest)
    (hnew : Due (s.resume t (s.shared.setLoop l ((s.shared.loop l).queueInLoop t cb)) next rest)
      l t) :
    Woken (s.resume t (s.shared.setLoop l ((s.shared.loop l).queueInLoop t cb)) next rest) := by
  intro k p hp
  rw [Config.resume_shared] at hp
  by_cases hk : k = l
  · subst hk
    rw [setLoop_loop_self] at hp
    rcases List.mem_append.mp hp with hp | hp
    · refine (h k p hp).resume ht (.inl (by simp)) (fun hb => ?_) (by simp)
      rw [setLoop_loop_self]
      exact hb
    · rw [List.mem_singleton.mp hp]
      exact hnew
  · exact h.elsewhere ht hk hp (by simp) (by simp)

theorem woken_step {s s' : Config ThreadId (Frame A) (Reactor A S)}
    {a : ThreadId × Choice A Ch} (hsound : Sound s) (h : Woken s) (hc : PushesAwake s a)
    (hs : (code P).step s a = some s') : Woken s' := by
  obtain ⟨t, c⟩ := a
  obtain ⟨f, rest, x, next, ht, hr, rfl⟩ := step_runs hs
  cases hr with
  | ret | call | callRunInLoop | callQueueInLoop | callQuit | code | runHere | runThere
  | iterate | polling | polled | functor =>
      exact h.frame ht (fun _ => ⟨rfl, rfl⟩) (by simp) (by simp)
  | quitHere | quitThere | loop | clearQuit | leave =>
      exact h.frame ht (setLoop_keeps rfl rfl) (by simp) (by simp)
  | @queueHere l cb ht' =>
      refine h.queue ht ?_
      -- This is where the condition on the loop's own pushes is needed.
      have hpush : l ∈ (s.stack t).head?.bind pushesTo := by rw [ht]; rfl
      rcases hc l hpush ht' with hmem | hb
      · exact .inl (Config.mem_resume ht hmem (.inl (by simp)))
      · refine .inr (.inl ?_)
        rw [Config.resume_shared, setLoop_loop_self]
        exact hb
  | queueThere =>
      refine h.queue ht (.inr (.inr ?_))
      rw [AtWakeup, Config.resume_stack_self]
      rfl
  | @wakeup l n hn =>
      have hpos : 0 < (s.shared.loop l).wakeupBytes + n := by omega
      intro k p hp
      by_cases hk : k = l
      · subst hk
        refine .inr (.inl ?_)
        rw [Config.resume_shared, setLoop_loop_self]
        exact hpos
      · exact h.elsewhere ht hk hp (by simp) (by simpa using Ne.symm hk)
  | @handleWakeup l n =>
      -- Bytes are read only with the swap still ahead.
      obtain ⟨rfl, hmem⟩ := hsound.handleWakeup_top ht
      intro k p hp
      by_cases hk : k = l
      · subst hk
        refine .inl ?_
        rw [Config.resume_stack_self]
        exact hmem
      · exact h.elsewhere ht hk hp (by simp) (by simp)
  | @doPendingFunctors l =>
      obtain ⟨k, rfl, hk⟩ := shaped_control hsound.shaped ht rfl
      intro j p hp
      by_cases hj : j = l
      · subst hj
        rw [Config.resume_shared, setLoop_loop_self] at hp
        cases hp
      · exact h.elsewhere ht hj hp (by simpa using Ne.symm hj) (by simp)

/-- Along every run whose loop threads push only while they are sure to come
back to the queue, no loop goes to sleep over pending work. -/
theorem no_sleep_with_pending {s : Config ThreadId (Frame A) (Reactor A S)}
    (h : (lts P Init).ReachIf PushesAwake s) : NoSleepWithPending s := by
  have hwoken : Woken s := by
    refine h.inv_of (fun _ hr => sound_of_reachIf (fun _ hs => hs) hr) (fun s hs l p hp => ?_)
      fun _ _ _ hsound hI hc hs => woken_step hsound hI hc hs
    rw [hs.1] at hp
    cases hp
  have hsound : Sound s := sound_of_reachIf (fun _ hs => hs) h
  intro l hpoll p hp
  rcases hwoken l p hp with hmem | hdue
  · obtain ⟨rest, ht⟩ := List.head?_eq_some_iff.mp hpoll
    exact absurd hmem (hsound.poll_top ht)
  · exact hdue

/-! ## Two schedules

Loop 0 and one other thread, over an application with no code of its own. -/

/-- No channels but the loop's wakeup channel. -/
def idle : App Empty Unit Unit where
  exec _ a _ _ := a.elim
  api _ _ _ := false
  poll _ _ s := some (s, some [])
  exec_plain {_ a _ _ _} := a.elim

/-- Loop 0 is about to run; thread 0 is about to queue a functor in it. -/
def atStart : Config ThreadId (Frame Empty) (Reactor Empty Unit) where
  shared := ⟨fun _ => {}, ()⟩
  stack
    | .loop l => [.loop l]
    | .user n => if n = 0 then [.queueInLoop 0 .user] else []

theorem atStart_init : Init atStart := by
  refine ⟨fun _ => rfl, fun l f hf => .inr (List.mem_singleton.mp hf), fun n f hf => ?_⟩
  by_cases hn : n = 0
  · subst hn
    rw [List.mem_singleton.mp hf]
    rfl
  · simp [atStart, hn] at hf

/-- Loop 0 is at `poll` over a functor it is due to run. -/
def pendingAtPoll (s : Config ThreadId (Frame Empty) (Reactor Empty Unit)) : Bool :=
  (s.stack (.loop 0)).head? == some (.poll 0) && (s.shared.loop 0).pendingFunctors_ != []

/-- The functor arrives while the loop polls, and its thread has not yet sent
the byte. -/
theorem no_sleep_with_pending_pushed :
    ∃ s, pendingAtPoll s = true ∧ NoSleepWithPending s := by
  obtain ⟨s, hs, hp⟩ := Lts.exists_reachIf (lts idle Init) PushesAwake
    [(.loop 0, .go), (.loop 0, .go), (.loop 0, .go), (.user 0, .go)] pendingAtPoll
    atStart_init (by decide)
  exact ⟨s, hp, no_sleep_with_pending hs⟩

/-- The functor of thread 0 queues another one, and the loop polls over it. -/
theorem functor_queues_unwoken :
    ¬ ∀ s, (lts idle Init).Reach s → NoSleepWithPending s := by
  intro h
  obtain ⟨s, hs, hp⟩ := Lts.exists_reach (lts idle Init)
    [(.loop 0, .go), (.loop 0, .go), (.loop 0, .go), (.user 0, .go),
      (.user 0, .moved 8), (.loop 0, .poll () 0), (.loop 0, .moved 8), (.loop 0, .go),
      (.loop 0, .go), (.loop 0, .callQueueInLoop 0), (.loop 0, .go), (.loop 0, .ret),
      (.loop 0, .go)]
    (fun s => (s.stack (.loop 0)).head? == some (.poll 0) &&
      (s.shared.loop 0).wakeupBytes == 0 &&
      (s.shared.loop 0).pendingFunctors_ == [(.loop 0, .user)]) atStart_init (by decide)
  rw [Bool.and_eq_true, Bool.and_eq_true, beq_iff_eq, beq_iff_eq, beq_iff_eq] at hp
  obtain ⟨⟨hpoll, hbytes⟩, hpending⟩ := hp
  have hmem : (.loop 0, .user) ∈ (s.shared.loop 0).pendingFunctors_ := by
    rw [hpending]
    exact List.mem_singleton_self _
  rcases h s hs 0 hpoll _ hmem with hb | hw
  · exact absurd hbytes (by omega)
  · rw [AtWakeup, hpoll] at hw
    cases hw

end Muduox.Net.Reactor
