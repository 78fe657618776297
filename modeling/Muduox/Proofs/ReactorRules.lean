import Muduox.Proofs.ReactorSteps

/-!
# Invariants of an application over the reactor

Most of what a reactor does is move code around: a call is queued, taken out,
run. `dest` says, of a frame, which code it will run in the end and on which
thread, and moving a frame never changes that. So an invariant made of a fact
about the application's state and a fact about every piece of code that is
anywhere, on a stack or in a queue, with the thread it is bound for, has only
the application's own steps to survive (`AppInv.step`).

`Ordered` is the other rule, for invariants about what may lie on top of what.
-/

namespace Muduox.Net

/-- The code a frame on the stack of thread `t` is going to run, and where. -/
def Frame.dest {A : Type} : ThreadId → Frame A → Option (ThreadId × A)
  | t, .code a => some (t, a)
  | _, .runInLoop l cb | _, .queueInLoop l cb => cb.dest (.loop l)
  | t, .functor _ cb => cb.dest t
  | _, _ => none

/-- The code a frame will run in the end. -/
def Frame.payload {A : Type} : Frame A → Option A
  | .code a => some a
  | .runInLoop _ cb | .queueInLoop _ cb | .functor _ cb => cb.payload
  | _ => none

namespace Reactor

open Threads

variable {A Ch S : Type} {P : App A Ch S}

/-- `K` holds of all code there is, with the thread it is bound for. -/
structure Everywhere (K : ThreadId → A → S → Prop)
    (s : Config ThreadId (Frame A) (Reactor A S)) : Prop where
  stack : ∀ t, ∀ f ∈ s.stack t, ∀ p ∈ f.dest t, K p.1 p.2 s.shared.app
  queue : ∀ l, ∀ q ∈ (s.shared.loop l).pendingFunctors_, ∀ p ∈ q.2.dest (.loop l),
    K p.1 p.2 s.shared.app

/-- `I` holds of the application, and `K` of all code there is. -/
structure AppInv (I : S → Prop) (K : ThreadId → A → S → Prop)
    (s : Config ThreadId (Frame A) (Reactor A S)) : Prop where
  app : I s.shared.app
  all : Everywhere K s

variable {I : S → Prop} {K : ThreadId → A → S → Prop}
  {s s' : Config ThreadId (Frame A) (Reactor A S)} {t : ThreadId} {f : Frame A}
  {x : Reactor A S} {next rest : List (Frame A)}

/-- The stacks after a step whose new frames are all right. -/
theorem Everywhere.resume_stack (h : Everywhere K s) (ht : s.stack t = f :: rest)
    (hnext : ∀ g ∈ next, ∀ p ∈ g.dest t, K p.1 p.2 x.app)
    (hkeep : ∀ u b, K u b s.shared.app → K u b x.app) (u : ThreadId) :
    ∀ g ∈ (s.resume t x next rest).stack u, ∀ p ∈ g.dest u, K p.1 p.2 x.app := by
  intro g hg p hp
  rcases Config.mem_of_mem_resume ht hg with ⟨rfl, hnew⟩ | hold
  · exact hnext g hnew p hp
  · exact hkeep _ _ (h.stack u g hold p hp)

/-- A step that leaves the queues alone. -/
theorem Everywhere.resume (h : Everywhere K s) (ht : s.stack t = f :: rest)
    (hloop : ∀ l, (x.loop l).pendingFunctors_ = (s.shared.loop l).pendingFunctors_)
    (hnext : ∀ g ∈ next, ∀ p ∈ g.dest t, K p.1 p.2 x.app)
    (hkeep : ∀ u b, K u b s.shared.app → K u b x.app) :
    Everywhere K (s.resume t x next rest) := by
  refine ⟨h.resume_stack ht hnext hkeep, fun l q hq p hp => ?_⟩
  rw [Config.resume_shared, hloop] at hq
  exact hkeep _ _ (h.queue l q hq p hp)

/-- A push onto a queue. -/
theorem Everywhere.push (h : Everywhere K s) {l : LoopId} {cb : Frame A}
    (ht : s.stack t = .queueInLoop l cb :: rest) (hnext : ∀ g ∈ next, g.dest t = none) :
    Everywhere K
      (s.resume t (s.shared.setLoop l ((s.shared.loop l).queueInLoop t cb)) next rest) := by
  have hcb : ∀ p ∈ cb.dest (.loop l), K p.1 p.2 s.shared.app := by
    refine h.stack t (.queueInLoop l cb) ?_
    rw [ht]
    exact List.mem_cons_self
  refine ⟨h.resume_stack ht (fun g hg p hp => ?_) fun _ _ hk => hk, fun k q hq p hp => ?_⟩
  · rw [hnext g hg] at hp
    cases hp
  · rw [Config.resume_shared] at hq
    rcases mem_pending_queueInLoop hq with hold | ⟨rfl, rfl⟩
    · exact h.queue k q hold p hp
    · exact hcb p hp

/-- The rule: only the application's own steps have anything to prove. -/
theorem AppInv.step {ch : Choice A Ch} (hs : (code P).step s (t, ch) = some s')
    (hsound : Sound s) (h : AppInv I K s)
    (hexec : ∀ {a c x next rest}, s.stack t = .code a :: rest → ch = .app c →
      P.exec t a c s.shared.app = some (x, next) → K t a s.shared.app →
      I x ∧ (∀ g ∈ next, ∀ p ∈ g.dest t, K p.1 p.2 x) ∧ ∀ u b, K u b s.shared.app → K u b x)
    (hpoll : ∀ {l c place r rest}, s.stack t = .poll l :: rest → ch = .poll c place →
      t = .loop l → P.poll l c s.shared.app = some r →
      I r.1 ∧ (∀ b ∈ r.2.getD [], K t b r.1) ∧ ∀ u b, K u b s.shared.app → K u b r.1)
    (hapi : ∀ {a}, ch = .call a → P.api t s.shared.app a = true → K t a s.shared.app) :
    AppInv I K s' := by
  obtain ⟨f, rest, x, next, ht, hr, rfl⟩ := step_runs hs
  have hf : ∀ p ∈ f.dest t, K p.1 p.2 s.shared.app :=
    h.all.stack t f (by rw [ht]; exact List.mem_cons_self)
  have hquiet : (∀ g ∈ next, g.dest t = none) →
      ∀ g ∈ next, ∀ p ∈ g.dest t, K p.1 p.2 s.shared.app := by
    intro hn g hg p hp
    rw [hn g hg] at hp
    cases hp
  have hkeep : ∀ u b, K u b s.shared.app → K u b s.shared.app := fun _ _ hk => hk
  cases hr with
  | ret | callRunInLoop | callQueueInLoop | callQuit | iterate =>
      exact ⟨h.app, h.all.resume ht (fun _ => rfl) (hquiet (by simp [Frame.dest])) hkeep⟩
  | @call a ha =>
      refine ⟨h.app, h.all.resume ht (fun _ => rfl) (fun g hg p hp => ?_) hkeep⟩
      simp only [List.mem_cons, List.not_mem_nil, or_false] at hg
      rcases hg with rfl | rfl
      · cases hp
        exact hapi rfl ha
      · cases hp
  | @code a c x next hx =>
      obtain ⟨hI, hnext, hk⟩ := hexec ht rfl hx (hf (t, a) rfl)
      exact ⟨hI, h.all.resume ht (fun _ => rfl) hnext hk⟩
  | @runHere l cb hl =>
      refine ⟨h.app, h.all.resume ht (fun _ => rfl) (fun g hg p hp => ?_) hkeep⟩
      rw [List.mem_singleton.mp hg, hl] at hp
      exact hf p hp
  | @runThere l cb =>
      refine ⟨h.app, h.all.resume ht (fun _ => rfl) (fun g hg p hp => ?_) hkeep⟩
      rw [List.mem_singleton.mp hg] at hp
      exact hf p hp
  | @functor l cb =>
      refine ⟨h.app, h.all.resume ht (fun _ => rfl) (fun g hg p hp => ?_) hkeep⟩
      rw [List.mem_singleton.mp hg] at hp
      exact hf p hp
  | queueHere | queueThere => exact ⟨h.app, h.all.push ht (by simp [Frame.dest])⟩
  | wakeup | quitHere | quitThere | loop | clearQuit | leave | handleWakeup =>
      refine ⟨h.app, h.all.resume ht (fun k => ?_) (hquiet (by simp [Frame.dest])) hkeep⟩
      exact setLoop_pending (by rfl) k
  | polling hx =>
      obtain ⟨hI, _, hk⟩ := hpoll ht rfl (hsound.poll_thread ht) hx
      refine ⟨hI, h.all.resume ht (fun _ => rfl) (fun g hg p hp => ?_) hk⟩
      rw [List.mem_singleton.mp hg] at hp
      cases hp
  | polled hx =>
      obtain ⟨hI, hb, hk⟩ := hpoll ht rfl (hsound.poll_thread ht) hx
      refine ⟨hI, h.all.resume ht (fun _ => rfl) (fun g hg p hp => ?_) hk⟩
      rcases mem_iteration hg with ⟨a, ha, rfl⟩ | rfl | rfl | rfl <;> cases hp
      exact hb a ha
  | @doPendingFunctors l =>
      obtain ⟨rfl, _⟩ := hsound.doPendingFunctors_top ht
      have hfunctors : ∀ g ∈ (s.shared.loop l).pendingFunctors_.map fun p => Frame.functor l p.2,
          ∀ p ∈ g.dest (.loop l), K p.1 p.2 s.shared.app := by
        intro g hg p hp
        obtain ⟨q, hq, rfl⟩ := List.mem_map.mp hg
        exact h.all.queue l q hq p hp
      refine ⟨h.app, h.all.resume_stack ht hfunctors hkeep, fun k q hq p hp => ?_⟩
      rw [Config.resume_shared] at hq
      rcases mem_pending_setLoop hq with hold | ⟨_, hnew⟩
      · exact h.all.queue k q hold p hp
      · cases hnew

/-! ## What functors are made of

A property of frames that no move breaks and that every functor the application
makes has, every functor has. -/

/-- A property of frames that survives being moved around. -/
structure Closed (Q : Frame A → Prop) : Prop where
  leaf : ∀ f, (∀ l cb, f ≠ .runInLoop l cb ∧ f ≠ .queueInLoop l cb ∧ f ≠ .functor l cb) → Q f
  user : ∀ l, Q (.runInLoop l .user) ∧ Q (.queueInLoop l .user)
  run : ∀ {l cb}, Q (.runInLoop l cb) → Q cb ∧ Q (.queueInLoop l cb)
  queue : ∀ {l cb}, Q (.queueInLoop l cb) → Q (.functor l cb)
  functor : ∀ {l cb}, Q (.functor l cb) → Q cb

/-- Every frame has `Q`, and so will every functor that is queued. -/
structure Static (Q : Frame A → Prop) (s : Config ThreadId (Frame A) (Reactor A S)) : Prop where
  stack : ∀ t, ∀ f ∈ s.stack t, Q f
  queue : ∀ l, ∀ q ∈ (s.shared.loop l).pendingFunctors_, Q (.functor l q.2)

theorem Static.resume {Q : Frame A → Prop} (h : Static Q s) (ht : s.stack t = f :: rest)
    (hloop : ∀ l, (x.loop l).pendingFunctors_ = (s.shared.loop l).pendingFunctors_)
    (hnext : ∀ g ∈ next, Q g) : Static Q (s.resume t x next rest) := by
  refine ⟨fun u g hg => ?_, fun l q hq => ?_⟩
  · rcases Config.mem_of_mem_resume ht hg with ⟨_, hnew⟩ | hold
    · exact hnext g hnew
    · exact h.stack u g hold
  · rw [Config.resume_shared, hloop] at hq
    exact h.queue l q hq

theorem Static.push {Q : Frame A → Prop} (h : Static Q s) {l : LoopId} {cb : Frame A}
    (ht : s.stack t = .queueInLoop l cb :: rest) (hcb : Q (.functor l cb))
    (hnext : ∀ g ∈ next, Q g) :
    Static Q
      (s.resume t (s.shared.setLoop l ((s.shared.loop l).queueInLoop t cb)) next rest) := by
  refine ⟨fun u g hg => ?_, fun k q hq => ?_⟩
  · rcases Config.mem_of_mem_resume ht hg with ⟨_, hnew⟩ | hold
    · exact hnext g hnew
    · exact h.stack u g hold
  · rw [Config.resume_shared] at hq
    rcases mem_pending_queueInLoop hq with hold | ⟨rfl, rfl⟩
    · exact h.queue k q hold
    · exact hcb

/-- Only the functors the application makes have anything to prove. -/
theorem Static.step {Q : Frame A → Prop} {ch : Choice A Ch} (hQ : Closed Q)
    (hs : (code P).step s (t, ch) = some s') (h : Static Q s)
    (hexec : ∀ {a c x next}, P.exec t a c s.shared.app = some (x, next) → ∀ g ∈ next, Q g) :
    Static Q s' := by
  obtain ⟨f, rest, x, next, ht, hr, rfl⟩ := step_runs hs
  have hf : Q f := h.stack t f (by rw [ht]; exact List.mem_cons_self)
  have hleaf : ∀ {g : Frame A},
      (∀ l cb, g ≠ .runInLoop l cb ∧ g ≠ .queueInLoop l cb ∧ g ≠ .functor l cb) → Q g :=
    fun hg => hQ.leaf _ hg
  cases hr with
  | ret | iterate | polling => exact h.resume ht (fun _ => rfl) (by simp [hleaf])
  | call | callQuit => exact h.resume ht (fun _ => rfl) (by simp [hleaf])
  | callRunInLoop => exact h.resume ht (fun _ => rfl) (by simp [hleaf, hQ.user])
  | callQueueInLoop => exact h.resume ht (fun _ => rfl) (by simp [hleaf, hQ.user])
  | code hx => exact h.resume ht (fun _ => rfl) (hexec hx)
  | runHere => exact h.resume ht (fun _ => rfl) (by simpa using (hQ.run hf).1)
  | runThere => exact h.resume ht (fun _ => rfl) (by simpa using (hQ.run hf).2)
  | functor => exact h.resume ht (fun _ => rfl) (by simpa using hQ.functor hf)
  | queueHere | queueThere => exact h.push ht (hQ.queue hf) (by simp [hleaf])
  | wakeup | quitHere | quitThere | loop | clearQuit | leave | handleWakeup =>
      exact h.resume ht (fun k => setLoop_pending (by rfl) k) (by simp [hleaf])
  | polled =>
      refine h.resume ht (fun _ => rfl) fun g hg => ?_
      rcases mem_iteration hg with ⟨b, _, rfl⟩ | rfl | rfl | rfl <;> exact hleaf (by simp)
  | @doPendingFunctors l =>
      refine ⟨fun u g hg => ?_, fun k q hq => ?_⟩
      · rcases Config.mem_of_mem_resume ht hg with ⟨_, hnew⟩ | hold
        · obtain ⟨q, hq, rfl⟩ := List.mem_map.mp hnew
          exact h.queue l q hq
        · exact h.stack u g hold
      · rw [Config.resume_shared] at hq
        rcases mem_pending_setLoop hq with hold | ⟨_, hnew⟩
        · exact h.queue k q hold
        · cases hnew

/-! ## What lies on top of what -/

/-- On every stack, `R` holds of each frame and each one below it. -/
def Ordered (R : Frame A → Frame A → Prop) (s : Config ThreadId (Frame A) (Reactor A S)) :
    Prop :=
  ∀ t, (s.stack t).Pairwise R

theorem Ordered.resume {R : Frame A → Frame A → Prop} (h : Ordered R s)
    (ht : s.stack t = f :: rest) (hnext : next.Pairwise R)
    (hover : ∀ b ∈ rest, R f b → ∀ g ∈ next, R g b) :
    Ordered R (s.resume t x next rest) := by
  intro u
  by_cases hu : u = t
  · subst hu
    have hold := h u
    rw [ht, List.pairwise_cons] at hold
    rw [Config.resume_stack_self, List.pairwise_append]
    exact ⟨hnext, hold.2, fun g hg b hb => hover b hb (hold.1 b hb) g hg⟩
  · rw [Config.resume_stack_of_ne s hu]
    exact h u

end Reactor

end Muduox.Net
