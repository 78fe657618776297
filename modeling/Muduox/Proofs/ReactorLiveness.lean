import Muduox.Lib.Runs
import Muduox.Proofs.DispatchOrder
import Muduox.Proofs.ReactorTally

/-!
# What a loop is given it runs

`poll` has a timeout, so a loop whose callbacks return, and that nobody asks to
quit, comes to `doPendingFunctors` again and again. That is all the fairness
there is here (`Fair`): when it is there, nothing is left on the stack below, so
whatever was above has run; and it takes all of the queue. A functor may be
passed on from loop to loop before it runs, and the argument follows the functor:
the induction is on the frame (`payload_runs`).
-/

namespace Muduox.Net.Reactor

open Threads

variable {A Ch S : Type} {P : App A Ch S}

theorem payload_of_turns {f : Frame A} (h : turns f = true) : f.payload = none := by
  cases f <;> first | rfl | cases h

/-- What is queued stays there until the loop takes the queue. -/
theorem pending_step {s s' : Config ThreadId (Frame A) (Reactor A S)} {t : ThreadId}
    {c : Choice A Ch} {l : LoopId} {q : ThreadId × Frame A} (hsound : Sound s)
    (hs : (code P).step s (t, c) = some s') (hq : q ∈ (s.shared.loop l).pendingFunctors_) :
    q ∈ (s'.shared.loop l).pendingFunctors_ ∨ .functor l q.2 ∈ s'.stack (.loop l) := by
  obtain ⟨f, rest, x, next, ht, hr, rfl⟩ := step_runs hs
  rw [Config.resume_shared]
  cases hr with
  | @queueHere k _ _ | @queueThere k _ _ =>
      refine .inl ?_
      by_cases hk : l = k
      · subst hk
        rw [setLoop_loop_self]
        exact List.mem_append_left _ hq
      · rw [setLoop_loop_of_ne _ hk]
        exact hq
  | @doPendingFunctors k =>
      by_cases hk : l = k
      · subst hk
        obtain ⟨rfl, -⟩ := hsound.doPendingFunctors_top ht
        rw [Config.resume_stack_self]
        exact .inr (List.mem_append_left _ (List.mem_map_of_mem hq))
      · rw [setLoop_loop_of_ne _ hk]
        exact .inl hq
  | wakeup | quitHere | quitThere | loop | clearQuit | leave | handleWakeup =>
      refine .inl ?_
      rw [setLoop_pending]
      · exact hq
      · rfl
  | _ => exact .inl hq

variable {init : Config ThreadId (Frame A) (Reactor A S) → Prop}
  {K : Config ThreadId (Frame A) (Reactor A S) → ThreadId × Choice A Ch → Prop}
  {r : (lts P init).RunIf K} {L : Finset LoopId} {n : ℕ} {l : LoopId} {t : ThreadId}
  {f cb : Frame A} {a : A}

/-- Loop `l` comes to its functors again and again. -/
def TakesTurns (r : (lts P init).RunIf K) (l : LoopId) : Prop :=
  ∀ n, ∃ m, n ≤ m ∧ RunsAt r m (.loop l) (.doPendingFunctors l)

/-- A run in which the loops in `L` do. -/
structure Fair (r : (lts P init).RunIf K) (L : Finset LoopId) : Prop where
  sound : ∀ n, Sound (r.state n)
  bottom : ∀ n, Ordered Bottom (r.state n)
  turns : ∀ l ∈ L, TakesTurns r l

/-- What running a frame leaves on the stack, and in the shared state. -/
theorem runsAt_runs (h : RunsAt r n t f) :
    ∃ c x next, Runs P t (r.state n).shared f c x next ∧ (r.state (n + 1)).shared = x ∧
      ∀ g ∈ next, g ∈ (r.state (n + 1)).stack t := by
  obtain ⟨rest, x, next, -, hx, hs⟩ := h.step
  rw [hs]
  refine ⟨_, x, next, exec_runs hx, rfl, fun g hg => ?_⟩
  rw [Config.resume_stack_self]
  exact List.mem_append_left _ hg

namespace Fair

/-- Code on the stack of a loop is run. -/
theorem stack_runs (h : Fair r L) (hl : l ∈ L) (hf : f ∈ (r.state n).stack (.loop l))
    (hp : f.payload = some a) : ∃ k, n ≤ k ∧ RunsAt r k (.loop l) f := by
  obtain ⟨m, hnm, -, rest, ht⟩ := h.turns l hl n
  refine exists_runsAt r hf hnm fun hm => ?_
  have hord := h.bottom m (.loop l)
  rw [ht, List.pairwise_cons] at hord
  rw [ht] at hm
  have hnone : f.payload = none := by
    rcases List.mem_cons.mp hm with rfl | hm
    · rfl
    · exact payload_of_turns (hord.1 f hm rfl)
  rw [hnone] at hp
  cases hp

/-- A queued functor gets onto the stack. -/
theorem queue_taken (h : Fair r L) (hl : l ∈ L) {q : ThreadId × Frame A}
    (hq : q ∈ ((r.state n).shared.loop l).pendingFunctors_) :
    ∃ k, n ≤ k ∧ .functor l q.2 ∈ (r.state k).stack (.loop l) := by
  obtain ⟨m, hnm, hm⟩ := h.turns l hl n
  -- The queue is empty after that step.
  have hempty : q ∉ ((r.state (m + 1)).shared.loop l).pendingFunctors_ := by
    obtain ⟨c, x, next, hr, hx, -⟩ := runsAt_runs hm
    rw [hx]
    cases hr
    rw [setLoop_loop_self]
    exact List.not_mem_nil
  obtain ⟨k, hk, hin, hout⟩ :=
    r.exists_lost (I := fun s => q ∈ (s.shared.loop l).pendingFunctors_) hq (by omega) hempty
  exact ⟨k + 1, by omega, (pending_step (h.sound k) (r.step k) hin).resolve_left hout⟩

/-- A functor that is called puts its code on the stack. -/
theorem functor_called (h : Fair r L) {j : LoopId} (hl : l ∈ L)
    (hf : .functor j cb ∈ (r.state n).stack (.loop l)) (hp : cb.payload = some a) :
    ∃ k, n ≤ k ∧ cb ∈ (r.state k).stack (.loop l) := by
  obtain ⟨k, hk, hrun⟩ := h.stack_runs hl hf hp
  obtain ⟨c, x, next, hr, -, hnext⟩ := runsAt_runs hrun
  cases hr
  exact ⟨k + 1, by omega, hnext _ List.mem_cons_self⟩

/-- What is queued for a loop comes onto its stack. -/
theorem queueInLoop_called (h : Fair r L) {j : LoopId} (hl : l ∈ L) (hj : j ∈ L)
    (hf : .queueInLoop j cb ∈ (r.state n).stack (.loop l)) (hp : cb.payload = some a) :
    ∃ k, n ≤ k ∧ cb ∈ (r.state k).stack (.loop j) := by
  obtain ⟨k, hk, hrun⟩ := h.stack_runs hl hf hp
  obtain ⟨c, x, next, hr, hx, -⟩ := runsAt_runs hrun
  have hq : (.loop l, cb) ∈ ((r.state (k + 1)).shared.loop j).pendingFunctors_ := by
    rw [hx]
    cases hr <;>
      · rw [setLoop_loop_self]
        exact List.mem_append_right _ List.mem_cons_self
  obtain ⟨m, hm, hmem⟩ := h.queue_taken hj hq
  obtain ⟨i, hi, hcb⟩ := h.functor_called hj hmem hp
  exact ⟨i, by omega, hcb⟩

/-- Code that a frame of a loop will run, by way of loops in `L`, is run. -/
theorem payload_runs (h : Fair r L) : ∀ {f : Frame A}, f.payload = some a → f.visits L →
    ∀ {n : ℕ} {l : LoopId}, l ∈ L → f ∈ (r.state n).stack (.loop l) →
      ∃ k, n ≤ k ∧ ∃ j ∈ L, RunsAt r k (.loop j) (.code a) := by
  intro f
  induction f with
  | code b =>
      intro hp _ n l hl hf
      cases hp
      obtain ⟨k, hk, hrun⟩ := h.stack_runs hl hf rfl
      exact ⟨k, hk, l, hl, hrun⟩
  | functor _ cb ih =>
      intro hp hv n l hl hf
      obtain ⟨k, hk, hcb⟩ := h.functor_called hl hf hp
      obtain ⟨m, hm, hrun⟩ := ih hp hv hl hcb
      exact ⟨m, by omega, hrun⟩
  | queueInLoop j cb ih =>
      intro hp hv n l hl hf
      obtain ⟨k, hk, hcb⟩ := h.queueInLoop_called hl hv.1 hf hp
      obtain ⟨m, hm, hrun⟩ := ih hp hv.2 hv.1 hcb
      exact ⟨m, by omega, hrun⟩
  | runInLoop j cb ih =>
      intro hp hv n l hl hf
      obtain ⟨k, hk, hrun⟩ := h.stack_runs hl hf hp
      obtain ⟨c, x, next, hr, -, hnext⟩ := runsAt_runs hrun
      cases hr with
      | runHere =>
          obtain ⟨m, hm, hrun⟩ := ih hp hv.2 hl (hnext _ List.mem_cons_self)
          exact ⟨m, by omega, hrun⟩
      | runThere =>
          obtain ⟨i, hi, hcb⟩ := h.queueInLoop_called hl hv.1 (hnext _ List.mem_cons_self) hp
          obtain ⟨m, hm, hrun⟩ := ih hp hv.2 hv.1 hcb
          exact ⟨m, by omega, hrun⟩
  | _ =>
      intro hp
      cases hp

/-- Code that is counted among the loops in `L` is run. -/
theorem tally_runs (h : Fair r L) {v : A → Nat} (hw : Within v L (r.state n))
    (hne : tally v L (r.state n) ≠ 0) :
    ∃ a, v a ≠ 0 ∧ ∃ k, n ≤ k ∧ ∃ j ∈ L, RunsAt r k (.loop j) (.code a) := by
  have hpayload : ∀ {f : Frame A}, f.weight v ≠ 0 → ∃ a, f.payload = some a ∧ v a ≠ 0 := by
    intro f hf
    unfold Frame.weight at hf
    split at hf
    · next a ha => exact ⟨a, ha, hf⟩
    · exact absurd rfl hf
  obtain ⟨t, f, hf, hfw⟩ | ⟨l, q, hq, hqw⟩ := exists_of_tally hne
  · obtain ⟨⟨l, hl, rfl⟩, hv⟩ := hw.stack t f hf hfw
    obtain ⟨a, hp, ha⟩ := hpayload hfw
    exact ⟨a, ha, h.payload_runs hp hv hl hf⟩
  · obtain ⟨hl, hv⟩ := hw.queue l q hq hqw
    obtain ⟨a, hp, ha⟩ := hpayload hqw
    obtain ⟨k, hk, hf⟩ := h.queue_taken hl hq
    obtain ⟨m, hm, hrun⟩ := h.payload_runs (f := .functor l q.2) hp hv hl hf
    exact ⟨a, ha, m, by omega, hrun⟩

end Fair

/-! ## A loop with nothing to do -/

/-- Nothing waits for loop `l`, whose stack is `fs`. -/
structure Idles (l : LoopId) (fs : List (Frame A)) (s : Config ThreadId (Frame A) (Reactor A S)) :
    Prop where
  stack : s.stack (.loop l) = fs
  quit_ : (s.shared.loop l).quit_ = false
  wakeupBytes : (s.shared.loop l).wakeupBytes = 0
  pendingFunctors_ : (s.shared.loop l).pendingFunctors_ = []

instance [DecidableEq A] (l : LoopId) (fs : List (Frame A))
    (s : Config ThreadId (Frame A) (Reactor A S)) : Decidable (Idles l fs s) :=
  decidable_of_iff (s.stack (.loop l) = fs ∧ (s.shared.loop l).quit_ = false ∧
      (s.shared.loop l).wakeupBytes = 0 ∧ (s.shared.loop l).pendingFunctors_ = [])
    ⟨fun h => ⟨h.1, h.2.1, h.2.2.1, h.2.2.2⟩,
      fun h => ⟨h.stack, h.quit_, h.wakeupBytes, h.pendingFunctors_⟩⟩

variable {s : Config ThreadId (Frame A) (Reactor A S)} {c : Ch} {x : S}

variable (init)

theorem Idles.poll (h : Idles l [.poll l] s) (hx : P.poll l c s.shared.app = some (x, some [])) :
    ∃ s', (lts P init).step s (.loop l, .poll c 0) = some s' ∧
      Idles l [.doPendingFunctors l, .whileNotQuit l] s' ∧ s'.shared.app = x := by
  have hexec : exec P (.loop l) (.poll l) (.poll c 0) s.shared =
      some ({ s.shared with app := x }, (s.shared.loop l).iteration l [] 0) := by
    rw [exec, hx]
  refine ⟨_, Code.step_eq_some.mpr ⟨_, _, _, _, h.stack, hexec, rfl⟩, ⟨?_, h.quit_, h.wakeupBytes,
    h.pendingFunctors_⟩, rfl⟩
  rw [Config.resume_stack_self, EventLoop.iteration, h.wakeupBytes]
  rfl

theorem Idles.functors (h : Idles l [.doPendingFunctors l, .whileNotQuit l] s) :
    ∃ s', (lts P init).step s (.loop l, .go) = some s' ∧ Idles l [.whileNotQuit l] s' ∧
      s'.shared.app = s.shared.app := by
  refine ⟨_, Code.step_eq_some.mpr ⟨_, _, _, _, h.stack, rfl, rfl⟩, ⟨?_, ?_, ?_, ?_⟩, rfl⟩
  · rw [Config.resume_stack_self, h.pendingFunctors_]
    rfl
  all_goals rw [Config.resume_shared, setLoop_loop_self]
  · exact h.quit_
  · exact h.wakeupBytes

theorem Idles.test (h : Idles l [.whileNotQuit l] s) :
    ∃ s', (lts P init).step s (.loop l, .go) = some s' ∧ Idles l [.poll l] s' ∧
      s'.shared.app = s.shared.app := by
  have hexec : exec P (.loop l) (.whileNotQuit l) .go s.shared = some (s.shared, [.poll l]) := by
    rw [exec, h.quit_]
    rfl
  refine ⟨_, Code.step_eq_some.mpr ⟨_, _, _, _, h.stack, hexec, rfl⟩, ⟨?_, h.quit_, h.wakeupBytes,
    h.pendingFunctors_⟩, rfl⟩
  rw [Config.resume_stack_self]
  rfl

/-- What such a loop does next, if `c` is what `poll` comes back with. -/
def idleStep (l : LoopId) (c : Ch) (s : Config ThreadId (Frame A) (Reactor A S)) :
    ThreadId × Choice A Ch :=
  (.loop l, match s.stack (.loop l) with
    | [.poll _] => .poll c 0
    | _ => .go)

/-- Where such a loop may be. -/
def Idling (l : LoopId) (J : S → Prop) (s : Config ThreadId (Frame A) (Reactor A S)) : Prop :=
  (Idles l [.poll l] s ∨ Idles l [.doPendingFunctors l, .whileNotQuit l] s ∨
    Idles l [.whileNotQuit l] s) ∧ J s.shared.app

/-- It comes from `poll` to its functors, to its test and back. -/
theorem Idling.step {J : S → Prop}
    (hquiet : ∀ x, J x → ∃ y, P.poll l c x = some (y, some []) ∧ J y) (h : Idling l J s) :
    ∃ s', (lts P init).step s (idleStep l c s) = some s' ∧ Idling l J s' ∧
      (Idles l [.poll l] s → Idles l [.doPendingFunctors l, .whileNotQuit l] s') ∧
      (Idles l [.doPendingFunctors l, .whileNotQuit l] s → Idles l [.whileNotQuit l] s') ∧
      (Idles l [.whileNotQuit l] s → Idles l [.poll l] s') := by
  have hno : ∀ {fs fs' : List (Frame A)} {Q : Prop}, Idles l fs s → fs' ≠ fs → Idles l fs' s → Q :=
    fun h hne h' => absurd (h'.stack.symm.trans h.stack) hne
  obtain ⟨hs | hs | hs, hJ⟩ := h
  · obtain ⟨x, hx, hJ'⟩ := hquiet _ hJ
    obtain ⟨s', hstep, hs', happ⟩ := hs.poll init hx
    refine ⟨s', ?_, ⟨.inr (.inl hs'), happ ▸ hJ'⟩, fun _ => hs', hno hs (by simp), hno hs (by simp)⟩
    rw [idleStep, hs.stack, hstep]
  · obtain ⟨s', hstep, hs', happ⟩ := hs.functors (P := P) init
    refine ⟨s', ?_, ⟨.inr (.inr hs'), happ ▸ hJ⟩, hno hs (by simp), fun _ => hs', hno hs (by simp)⟩
    rw [idleStep, hs.stack, hstep]
  · obtain ⟨s', hstep, hs', happ⟩ := hs.test (P := P) init
    refine ⟨s', ?_, ⟨.inl hs', happ ▸ hJ⟩, hno hs (by simp), hno hs (by simp), fun _ => hs'⟩
    rw [idleStep, hs.stack, hstep]

variable {init}

/-- A loop that nothing happens to takes its turns for ever. -/
theorem exists_idle_run {J : S → Prop}
    (hquiet : ∀ x, J x → ∃ y, P.poll l c x = some (y, some []) ∧ J y)
    (hr : (lts P init).Reach s) (h : Idles l [.poll l] s) (hJ : J s.shared.app) :
    ∃ r : (lts P init).Run, r.state 0 = s ∧ (∀ n, r.label n = idleStep l c (r.state n)) ∧
      (∀ n, Idling l J (r.state n)) ∧ TakesTurns r l ∧
      ∀ n, ∃ m, n ≤ m ∧ Idles l [.poll l] (r.state m) := by
  obtain ⟨r, hstart, hI, hlabel⟩ := Lts.exists_runIf (M := lts P init) (C := fun _ _ => True)
    (I := Idling l J) (idleStep l c) (fun x hx => by
      obtain ⟨y, hy, hidling, -⟩ := hx.step init hquiet
      exact ⟨trivial, y, hy, hidling⟩) hr ⟨.inl h, hJ⟩
  have hnext : ∀ n, (Idles l [.poll l] (r.state n) →
        Idles l [.doPendingFunctors l, .whileNotQuit l] (r.state (n + 1))) ∧
      (Idles l [.doPendingFunctors l, .whileNotQuit l] (r.state n) →
        Idles l [.whileNotQuit l] (r.state (n + 1))) ∧
      (Idles l [.whileNotQuit l] (r.state n) → Idles l [.poll l] (r.state (n + 1))) := fun n => by
    obtain ⟨y, hy, -, hthen⟩ := (hI n).step init hquiet
    have hs := r.step n
    rw [hlabel, hy] at hs
    cases hs
    exact hthen
  have hpolls : ∀ n, ∃ m, n ≤ m ∧ Idles l [.poll l] (r.state m) := fun n => by
    rcases (hI n).1 with hn | hn | hn
    · exact ⟨n, Nat.le_refl _, hn⟩
    · exact ⟨n + 2, by omega, (hnext (n + 1)).2.2 ((hnext n).2.1 hn)⟩
    · exact ⟨n + 1, by omega, (hnext n).2.2 hn⟩
  refine ⟨r, hstart, hlabel, hI, fun n => ?_, hpolls⟩
  obtain ⟨m, hm, hidles⟩ := hpolls n
  exact ⟨m + 1, by omega, by rw [hlabel]; rfl, _, ((hnext m).1 hidles).stack⟩

end Muduox.Net.Reactor
