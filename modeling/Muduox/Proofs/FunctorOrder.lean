import Muduox.Proofs.ReactorFifo
import Muduox.Proofs.Wakeup

/-!
# Functors run once, in the order of the pushes

`doPendingFunctors` takes the whole queue out and runs it without the lock, while
anyone pushes. So one logical queue is in three parts: what was started, what is
left of the batch on the loop's stack, and `pendingFunctors_`. `Traced` writes
down every push and every start beside a run, and the three parts always make up
the pushes (`Accounted`).

What a functor pushes goes behind the swap, never into the batch, so a call of
`doPendingFunctors` starts the functors it took out and no others, however many
are pushed meanwhile. For the order it matters that nothing of a batch is left
when the next one is taken out: under a frame of the loop itself no functor
waits (`InPlace`).
-/

namespace Muduox.Net

/-- What a frame is about to push onto the queue of loop `l`. -/
def Frame.pushes {A : Type} (l : LoopId) : Frame A → List (Frame A)
  | .queueInLoop k cb => if k = l then [cb] else []
  | _ => []

/-- The functor of loop `l` that a frame is about to start. -/
def Frame.starts {A : Type} (l : LoopId) : Frame A → List (Frame A)
  | .functor k cb => if k = l then [cb] else []
  | _ => []

namespace Reactor

open Threads

variable {A Ch S : Type} {P : App A Ch S}

/-- A reactor with the functors pushed onto each queue, in the order of the
mutex, and those that were started from it. -/
structure Traced (A S : Type) where
  config : Config ThreadId (Frame A) (Reactor A S)
  pushed : LoopId → List (Frame A) := fun _ => []
  executed : LoopId → List (Frame A) := fun _ => []

namespace Traced

/-- A step of the reactor, written down. -/
def step (P : App A Ch S) (s : Traced A S) (b : ThreadId × Choice A Ch) :
    Option (Traced A S) :=
  let top := (s.config.stack b.1).head?.toList
  ((code P).step s.config b).map fun c =>
    { config := c
      pushed := fun l => s.pushed l ++ top.flatMap (Frame.pushes l)
      executed := fun l => s.executed l ++ top.flatMap (Frame.starts l) }

/-- The runs of a reactor, from `init`, written down. -/
def lts (P : App A Ch S) (init : Config ThreadId (Frame A) (Reactor A S) → Prop) :
    Lts (Traced A S) (ThreadId × Choice A Ch) :=
  ⟨fun s => init s.config ∧ s = { config := s.config }, step P⟩

/-- The functors of the current batch that were not started. -/
def batch (s : Traced A S) (l : LoopId) : List (Frame A) :=
  (s.config.stack (.loop l)).flatMap (Frame.starts l)

/-- `pendingFunctors_` of loop `l`. -/
def pending (s : Traced A S) (l : LoopId) : List (Frame A) :=
  (s.config.shared.loop l).pendingFunctors_.map Prod.snd

/-- What was started, what is left of the batch and what is queued make up what
was pushed. -/
def Accounted (s : Traced A S) (l : LoopId) : Prop :=
  s.executed l ++ s.batch l ++ s.pending l = s.pushed l

end Traced

/-- No functor waits below a frame of a loop. -/
def Below (g b : Frame A) : Prop := control g = true → isFunctor b = false

/-- Functors are on their own loop's stack, above the loop's own frames. -/
structure InPlace (s : Config ThreadId (Frame A) (Reactor A S)) : Prop where
  own : ∀ t, ∀ f ∈ s.stack t, ∀ k cb, f = .functor k cb → t = .loop k
  order : Ordered Below s

theorem pairwise_below {fs : List (Frame A)} (h : ∀ f ∈ fs, isFunctor f = false) :
    fs.Pairwise Below :=
  List.pairwise_of_forall_mem_list fun _ _ b hb _ => h b hb

theorem inPlace_init {s : Config ThreadId (Frame A) (Reactor A S)} (h : Init s) : InPlace s := by
  have hnone : ∀ t, ∀ f ∈ s.stack t, isFunctor f = false := by
    intro t f hf
    cases t with
    | loop l => rcases h.2.1 l f hf with rfl | rfl <;> rfl
    | user n => exact isFunctor_of_plain (h.2.2 n f hf)
  refine ⟨fun t f hf k cb he => ?_, fun t => pairwise_below (hnone t)⟩
  have := hnone t f hf
  rw [he] at this
  cases this

section Step

variable {s s' : Config ThreadId (Frame A) (Reactor A S)} {t : ThreadId} {f : Frame A}
  {x : Reactor A S} {next rest : List (Frame A)}

/-- A step that pushes no functors of a batch; what it pushes of a loop's own
frames replaces one. -/
theorem InPlace.resume (h : InPlace s) (ht : s.stack t = f :: rest)
    (hnext : ∀ g ∈ next, isFunctor g = false)
    (hcontrol : ∀ g ∈ next, control g = true → control f = true) :
    InPlace (s.resume t x next rest) := by
  refine ⟨fun u g hg k cb he => ?_, h.order.resume ht (pairwise_below hnext) ?_⟩
  · rcases Config.mem_of_mem_resume ht hg with ⟨_, hnew⟩ | hold
    · have := hnext g hnew
      rw [he] at this
      cases this
    · exact h.own u g hold k cb he
  · exact fun b _ hfb g hg hgc => hfb (hcontrol g hg hgc)

theorem inPlace_step {c : Choice A Ch} (hs : (code P).step s (t, c) = some s')
    (hsound : Sound s) (h : InPlace s) : InPlace s' := by
  obtain ⟨f, rest, x, next, ht, hr, rfl⟩ := step_runs hs
  have hcargo : cargo f = true := hsound.plain.2 t f (by rw [ht]; exact List.mem_cons_self)
  have hplain : (∀ g ∈ next, g.plain = true) → InPlace (s.resume t x next rest) := fun hn =>
    h.resume ht (fun g hg => isFunctor_of_plain (hn g hg)) fun g hg hc => by
      rw [control_of_plain (hn g hg)] at hc
      cases hc
  cases hr with
  | code hx => exact hplain (P.exec_plain hx)
  | runHere | functor => exact hplain (by simpa [cargo] using hcargo)
  | polled =>
      refine h.resume ht (fun g hg => ?_) fun _ _ _ => rfl
      rcases mem_iteration hg with ⟨a, _, rfl⟩ | rfl | rfl | rfl <;> rfl
  | @doPendingFunctors l =>
      obtain ⟨rfl, _⟩ := hsound.doPendingFunctors_top ht
      have hfunctor : ∀ g ∈ (s.shared.loop l).pendingFunctors_.map fun p => Frame.functor l p.2,
          ∃ cb, g = .functor l cb := by
        intro g hg
        obtain ⟨p, _, rfl⟩ := List.mem_map.mp hg
        exact ⟨_, rfl⟩
      refine ⟨fun u g hg k cb he => ?_, h.order.resume ht ?_ fun b _ _ g hg hc => ?_⟩
      · rcases Config.mem_of_mem_resume ht hg with ⟨rfl, hnew⟩ | hold
        · obtain ⟨_, rfl⟩ := hfunctor g hnew
          cases he
          rfl
        · exact h.own u g hold k cb he
      · refine List.pairwise_of_forall_mem_list fun g hg _ _ hc => ?_
        obtain ⟨_, rfl⟩ := hfunctor g hg
        cases hc
      · obtain ⟨_, rfl⟩ := hfunctor g hg
        cases hc
  | _ => exact h.resume ht (by simp [isFunctor]) (by simp [control])

/-! ## The three parts -/

/-- What is left of the batch of loop `l`. -/
abbrev batchOf (l : LoopId) (s : Config ThreadId (Frame A) (Reactor A S)) : List (Frame A) :=
  (s.stack (.loop l)).flatMap (Frame.starts l)

/-- What the queue of loop `l` holds. -/
abbrev queueOf (l : LoopId) (x : Reactor A S) : List (Frame A) :=
  (x.loop l).pendingFunctors_.map Prod.snd

theorem starts_eq_nil {l : LoopId} (h : isFunctor f = false) : f.starts l = [] := by
  cases f <;> first | rfl | cases h

theorem flatMap_starts_eq_nil {l : LoopId} {fs : List (Frame A)}
    (h : ∀ f ∈ fs, isFunctor f = false) : fs.flatMap (Frame.starts l) = [] :=
  List.flatMap_eq_nil_iff.mpr fun f hf => starts_eq_nil (h f hf)

/-- A step among frames that are no functors leaves the batches alone. -/
theorem batchOf_resume {l : LoopId} (ht : s.stack t = f :: rest) (hf : isFunctor f = false)
    (hnext : ∀ g ∈ next, isFunctor g = false) :
    batchOf l (s.resume t x next rest) = batchOf l s := by
  unfold batchOf
  by_cases hu : ThreadId.loop l = t
  · rw [hu, Config.resume_stack_self, ht, List.flatMap_append, flatMap_starts_eq_nil hnext,
      List.flatMap_cons, starts_eq_nil hf]
  · rw [Config.resume_stack_of_ne s hu]

theorem queueOf_setLoop {l k : LoopId} {e : EventLoop A}
    (he : e.pendingFunctors_ = (s.shared.loop k).pendingFunctors_) :
    queueOf l (s.shared.setLoop k e) = queueOf l s.shared := by
  unfold queueOf
  rw [setLoop_pending he]

/-- What a push adds to the queues. -/
theorem queueOf_push {l k : LoopId} {cb : Frame A} :
    queueOf l (s.shared.setLoop k ((s.shared.loop k).queueInLoop t cb)) =
      queueOf l s.shared ++ (Frame.queueInLoop k cb).pushes l := by
  by_cases hk : k = l
  · subst hk
    simp [queueOf, Frame.pushes, EventLoop.queueInLoop]
  · simp [queueOf, Frame.pushes, hk, setLoop_loop_of_ne _ (Ne.symm hk)]

/-- But for its swap, a batch is started from the front. -/
theorem batchOf_step {l : LoopId} {c : Choice A Ch} (hsound : Sound s) (h : InPlace s)
    (ht : s.stack t = f :: rest) (hr : Runs P t s.shared f c x next)
    (hf : f ≠ .doPendingFunctors l) :
    f.starts l ++ batchOf l (s.resume t x next rest) = batchOf l s := by
  have hcargo : cargo f = true := hsound.plain.2 t f (by rw [ht]; exact List.mem_cons_self)
  have hquiet : isFunctor f = false → (∀ g ∈ next, isFunctor g = false) →
      f.starts l ++ batchOf l (s.resume t x next rest) = batchOf l s := by
    intro hf hn
    rw [starts_eq_nil hf, batchOf_resume ht hf hn, List.nil_append]
  cases hr with
  | code hx => exact hquiet rfl fun g hg => isFunctor_of_plain (P.exec_plain hx g hg)
  | runHere =>
      refine hquiet rfl fun g hg => ?_
      rw [List.mem_singleton.mp hg]
      exact isFunctor_of_plain hcargo
  | polled =>
      refine hquiet rfl fun g hg => ?_
      rcases mem_iteration hg with ⟨a, _, rfl⟩ | rfl | rfl | rfl <;> rfl
  | @functor k cb =>
      obtain rfl : t = .loop k :=
        h.own t (.functor k cb) (by rw [ht]; exact List.mem_cons_self) k cb rfl
      have hcb : cb.starts l = [] := starts_eq_nil (isFunctor_of_plain hcargo)
      by_cases hk : k = l
      · subst hk
        simp [batchOf, ht, hcb]
      · have hne : ThreadId.loop l ≠ .loop k := by simpa using Ne.symm hk
        simp [batchOf, Config.resume_stack_of_ne s hne, Frame.starts, hk]
  | @doPendingFunctors k =>
      obtain ⟨rfl, _⟩ := hsound.doPendingFunctors_top ht
      have hk : k ≠ l := fun he => hf (by rw [he])
      have hne : ThreadId.loop l ≠ .loop k := by simpa using Ne.symm hk
      simp [batchOf, Config.resume_stack_of_ne s hne, Frame.starts]
  | _ => exact hquiet rfl (by simp [isFunctor])

/-- But for its swap, a queue only grows, at the back. -/
theorem queueOf_step {l : LoopId} {c : Choice A Ch} (hr : Runs P t s.shared f c x next)
    (hf : f ≠ .doPendingFunctors l) : queueOf l x = queueOf l s.shared ++ f.pushes l := by
  cases hr with
  | queueHere | queueThere => exact queueOf_push
  | wakeup | quitHere | quitThere | loop | clearQuit | leave | handleWakeup =>
      rw [queueOf_setLoop (by rfl)]
      simp [Frame.pushes]
  | @doPendingFunctors k =>
      have hk : k ≠ l := fun he => hf (by rw [he])
      simp [queueOf, Frame.pushes, setLoop_loop_of_ne _ (Ne.symm hk)]
  | _ => simp [Frame.pushes]

/-- The swap finds nothing left of the batch before, and takes the whole queue. -/
theorem swap_step {l : LoopId} {c : Choice A Ch} (hsound : Sound s) (h : InPlace s)
    (ht : s.stack t = .doPendingFunctors l :: rest)
    (hr : Runs P t s.shared (.doPendingFunctors l) c x next) :
    batchOf l s = [] ∧ batchOf l (s.resume t x next rest) = queueOf l s.shared ∧
      queueOf l x = [] := by
  obtain ⟨rfl, _⟩ := hsound.doPendingFunctors_top ht
  have hord := h.order (.loop l)
  rw [ht, List.pairwise_cons] at hord
  have hrest : rest.flatMap (Frame.starts l) = [] :=
    flatMap_starts_eq_nil fun g hg => hord.1 g hg rfl
  cases hr with
  | doPendingFunctors =>
      have hnew : ((s.shared.loop l).pendingFunctors_.map fun p => Frame.functor l p.2).flatMap
          (Frame.starts l) = queueOf l s.shared := by
        rw [List.flatMap_map, queueOf, List.map_eq_flatMap]
        simp [Frame.starts]
      refine ⟨?_, ?_, by simp [queueOf]⟩
      · rw [batchOf, ht, List.flatMap_cons, hrest]
        rfl
      · rw [batchOf, Config.resume_stack_self, List.flatMap_append, hrest, hnew, List.append_nil]

/-- A step moves functors from one part to the next; only a push adds one. -/
theorem parts_step {l : LoopId} {c : Choice A Ch} (hsound : Sound s) (h : InPlace s)
    (ht : s.stack t = f :: rest) (hr : Runs P t s.shared f c x next) :
    f.starts l ++ (batchOf l (s.resume t x next rest) ++ queueOf l x) =
      batchOf l s ++ (queueOf l s.shared ++ f.pushes l) := by
  by_cases hf : f = .doPendingFunctors l
  · subst hf
    obtain ⟨hbatch, hnew, hqueue⟩ := swap_step hsound h ht hr
    rw [hbatch, hnew, hqueue]
    simp [Frame.starts, Frame.pushes]
  · rw [← List.append_assoc, batchOf_step hsound h ht hr hf, queueOf_step hr hf]

end Step

namespace Traced

variable {init : Config ThreadId (Frame A) (Reactor A S) → Prop} {s s' : Traced A S} {l : LoopId}

/-- Not the swap of loop `l`'s `doPendingFunctors`. -/
def InCall (l : LoopId) (s : Traced A S) (b : ThreadId × Choice A Ch) : Prop :=
  ∀ rest, s.config.stack b.1 ≠ .doPendingFunctors l :: rest

/-- What every run keeps. -/
structure Kept (s : Traced A S) : Prop where
  sound : Sound s.config
  inPlace : InPlace s.config
  accounted : ∀ l, s.Accounted l

/-- A step, with the frame that ran. -/
theorem step_eq {t : ThreadId} {c : Choice A Ch} (hs : s.step P (t, c) = some s') :
    ∃ f rest x next, s.config.stack t = f :: rest ∧ Runs P t s.config.shared f c x next ∧
      (code P).step s.config (t, c) = some s'.config ∧ s'.config = s.config.resume t x next rest ∧
      (∀ l, s'.pushed l = s.pushed l ++ f.pushes l) ∧
      ∀ l, s'.executed l = s.executed l ++ f.starts l := by
  obtain ⟨c', hc, rfl⟩ := Option.map_eq_some_iff.mp hs
  obtain ⟨f, rest, x, next, ht, hr, rfl⟩ := step_runs hc
  exact ⟨f, rest, x, next, ht, hr, hc, rfl, fun l => by simp [ht], fun l => by simp [ht]⟩

theorem Kept.step (h : Kept s) {b : ThreadId × Choice A Ch} (hs : s.step P b = some s') :
    Kept s' := by
  obtain ⟨t, c⟩ := b
  obtain ⟨f, rest, x, next, ht, hr, hc, heq, hpushed, hexec⟩ := step_eq hs
  refine ⟨sound_step hc h.sound, inPlace_step hc h.sound h.inPlace, fun l => ?_⟩
  show s'.executed l ++ batchOf l s'.config ++ queueOf l s'.config.shared = s'.pushed l
  calc s'.executed l ++ batchOf l s'.config ++ queueOf l s'.config.shared
      = s.executed l ++ (f.starts l ++
          (batchOf l (s.config.resume t x next rest) ++ queueOf l x)) := by
        rw [hexec, heq, Config.resume_shared]
        simp only [List.append_assoc]
    _ = s.executed l ++ batchOf l s.config ++ queueOf l s.config.shared ++ f.pushes l := by
        rw [parts_step h.sound h.inPlace ht hr]
        simp only [List.append_assoc]
    _ = s'.pushed l := by
        rw [hpushed]
        exact congrArg (· ++ _) (h.accounted l)

theorem kept (hinit : ∀ s, init s → Init s) (h : (lts P init).Reach s) : Kept s := by
  refine h.inv (fun s hs => ?_) fun _ _ _ hI hs => hI.step hs
  obtain ⟨hi, hs⟩ := hs
  have hI := hinit _ hi
  refine ⟨sound_init hI, inPlace_init hI, fun l => ?_⟩
  have hbatch : s.batch l = [] := by
    refine flatMap_starts_eq_nil fun f hf => ?_
    rcases hI.2.1 l f hf with rfl | rfl <;> rfl
  rw [Accounted, hbatch, pending, hI.1 l, hs]
  rfl

/-- Between two swaps a batch is only started from the front. -/
theorem batch_step (h : Kept s) {b : ThreadId × Choice A Ch} (hb : InCall l s b)
    (hs : s.step P b = some s') : s'.executed l ++ s'.batch l = s.executed l ++ s.batch l := by
  obtain ⟨t, c⟩ := b
  obtain ⟨f, rest, x, next, ht, hr, hc, heq, hpushed, hexec⟩ := step_eq hs
  have hf : f ≠ .doPendingFunctors l := fun he => hb rest (by rw [ht, he])
  show s'.executed l ++ batchOf l s'.config = _
  rw [hexec, heq, List.append_assoc, batchOf_step h.sound h.inPlace ht hr hf]
  rfl

/-- A functor on top of its loop's stack can be started, and the batch is shorter
for it. -/
theorem start_functor (h : Kept s) {cb : Frame A} {rest : List (Frame A)}
    (ht : s.config.stack (.loop l) = .functor l cb :: rest) :
    ∃ s', step P s (.loop l, .go) = some s' ∧ (s'.batch l).length + 1 = (s.batch l).length := by
  have hc : (code P).step s.config (.loop l, .go) =
      some (s.config.resume (.loop l) s.config.shared [cb] rest) :=
    Code.step_eq_some.mpr ⟨_, _, _, _, ht, rfl, rfl⟩
  have hbatch := batchOf_step (P := P) (l := l) h.sound h.inPlace ht .functor (by simp)
  refine ⟨_, by rw [step, hc]; rfl, ?_⟩
  show (batchOf l (s.config.resume (.loop l) s.config.shared [cb] rest)).length + 1 =
    (batchOf l s.config).length
  rw [← hbatch]
  simp [Frame.starts, Nat.add_comm]

/-- Along every run of a reactor: what was started from a loop's queue, the rest
of its batch and the queue are, in this order, the pushes onto it. From any
state on, until the next swap, only functors of that rest are started, in order;
and whenever the one before has returned, the next can be, which leaves fewer. -/
theorem functors_in_order (hinit : ∀ s, init s → Init s) (h : (lts P init).Reach s)
    (l : LoopId) :
    s.executed l ++ s.batch l ++ s.pending l = s.pushed l ∧
      (∀ s', Lts.ReachIf ⟨(· = s), step P⟩ (InCall l) s' →
        s'.executed l ++ s'.batch l = s.executed l ++ s.batch l) ∧
      ∀ cb rest, s.config.stack (.loop l) = .functor l cb :: rest →
        ∃ s', step P s (.loop l, .go) = some s' ∧
          (s'.batch l).length + 1 = (s.batch l).length := by
  have hkept := kept hinit h
  refine ⟨hkept.accounted l, fun s' hs' => ?_, fun cb rest ht => start_functor hkept ht⟩
  have hrun : Kept s' ∧ s'.executed l ++ s'.batch l = s.executed l ++ s.batch l := by
    refine Lts.ReachIf.inv
      (I := fun s' => Kept s' ∧ s'.executed l ++ s'.batch l = s.executed l ++ s.batch l)
      (fun s₀ hs₀ => ?_) (fun s₁ b s₂ hI hb hs => ?_) hs'
    · rw [show s₀ = s from hs₀]
      exact ⟨hkept, rfl⟩
    · exact ⟨hI.1.step hs, (batch_step hI.1 hb hs).trans hI.2⟩
  exact hrun.2

/-- The functor of thread 0 has queued another one, behind its batch. -/
theorem functors_in_order_queued :
    ∃ s : Traced Empty Unit, s.executed 0 = [.user] ∧ s.batch 0 = [] ∧ s.pending 0 = [.user] ∧
      s.pushed 0 = [.user, .user] := by
  obtain ⟨s, hs, hp⟩ := Lts.exists_reach (lts idle Init) (x := { config := atStart })
    [(.loop 0, .go), (.loop 0, .go), (.loop 0, .go), (.user 0, .go),
      (.user 0, .moved 8), (.loop 0, .poll () 0), (.loop 0, .moved 8), (.loop 0, .go),
      (.loop 0, .go), (.loop 0, .callQueueInLoop 0), (.loop 0, .go)]
    (fun s => decide (s.executed 0 = [.user] ∧ s.batch 0 = [] ∧ s.pending 0 = [.user]))
    ⟨atStart_init, rfl⟩ (by decide)
  obtain ⟨hexec, hbatch, hpending⟩ := of_decide_eq_true hp
  refine ⟨s, hexec, hbatch, hpending, ?_⟩
  rw [← (functors_in_order (fun _ h => h) hs 0).1, hexec, hbatch, hpending]
  rfl

end Traced

end Reactor

end Muduox.Net
