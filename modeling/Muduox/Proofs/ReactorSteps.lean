import Muduox.Net.EventLoop

/-!
# What a frame of the reactor does, and what the stacks look like

`Runs` says once, case by case, what running a frame does to the loops and to
the application and which frames it leaves; `exec_runs` reads it off the code.
Every invariant of the reactor is proved over `Runs`.

Two such invariants say that control stays where the source keeps it. Whatever
travels through a functor queue is plain code (`Plain`), never a piece of a
loop. And the loop's own frames on the stack of its thread are, from the top,
those of one iteration and then calls of `loop()` that were not entered yet
(`LoopShape`); no other thread has any of them. So a thread at `poll` is past
`doPendingFunctors`, and one at `handleWakeup` has it still to run.
-/

namespace Muduox.Net.Reactor

open Threads

variable {A Ch S : Type} {P : App A Ch S}

/-- Frame by frame, what thread `t` does to the reactor `s`. -/
inductive Runs (P : App A Ch S) (t : ThreadId) (s : Reactor A S) :
    Frame A → Choice A Ch → Reactor A S → List (Frame A) → Prop
  | ret : Runs P t s .user .ret s []
  | call {a : A} (h : P.api t s.app a = true) : Runs P t s .user (.call a) s [.code a, .user]
  | callRunInLoop {l : LoopId} :
      Runs P t s .user (.callRunInLoop l) s [.runInLoop l .user, .user]
  | callQueueInLoop {l : LoopId} :
      Runs P t s .user (.callQueueInLoop l) s [.queueInLoop l .user, .user]
  | callQuit {l : LoopId} : Runs P t s .user (.callQuit l) s [.quit l, .user]
  | code {a : A} {c : Ch} {x : S} {next : List (Frame A)}
      (h : P.exec t a c s.app = some (x, next)) :
      Runs P t s (.code a) (.app c) { s with app := x } next
  | runHere {l : LoopId} {cb : Frame A} (h : t = .loop l) :
      Runs P t s (.runInLoop l cb) .go s [cb]
  | runThere {l : LoopId} {cb : Frame A} (h : t ≠ .loop l) :
      Runs P t s (.runInLoop l cb) .go s [.queueInLoop l cb]
  | queueHere {l : LoopId} {cb : Frame A} (h : t = .loop l) :
      Runs P t s (.queueInLoop l cb) .go (s.setLoop l ((s.loop l).queueInLoop t cb)) []
  | queueThere {l : LoopId} {cb : Frame A} (h : t ≠ .loop l) :
      Runs P t s (.queueInLoop l cb) .go (s.setLoop l ((s.loop l).queueInLoop t cb))
        [.wakeup l]
  | wakeup {l : LoopId} {n : Nat} (h : n = 0 → 0 < (s.loop l).wakeupBytes) :
      Runs P t s (.wakeup l) (.moved n)
        (s.setLoop l { s.loop l with wakeupBytes := (s.loop l).wakeupBytes + n }) []
  | quitHere {l : LoopId} (h : t = .loop l) :
      Runs P t s (.quit l) .go (s.setLoop l { s.loop l with quit_ := true }) []
  | quitThere {l : LoopId} (h : t ≠ .loop l) :
      Runs P t s (.quit l) .go (s.setLoop l { s.loop l with quit_ := true }) [.wakeup l]
  | loop {l : LoopId} (h : t = .loop l) :
      Runs P t s (.loop l) .go (s.setLoop l { s.loop l with looping_ := true }) [.clearQuit l]
  | clearQuit {l : LoopId} :
      Runs P t s (.clearQuit l) .go (s.setLoop l { s.loop l with quit_ := false })
        [.whileNotQuit l]
  | leave {l : LoopId} (h : (s.loop l).quit_ = true) :
      Runs P t s (.whileNotQuit l) .go (s.setLoop l { s.loop l with looping_ := false }) []
  | iterate {l : LoopId} (h : (s.loop l).quit_ = false) :
      Runs P t s (.whileNotQuit l) .go s [.poll l]
  | polling {l : LoopId} {c : Ch} {x : S} {place : Nat} (h : P.poll l c s.app = some (x, none)) :
      Runs P t s (.poll l) (.poll c place) { s with app := x } [.poll l]
  | polled {l : LoopId} {c : Ch} {x : S} {handlers : List A} {place : Nat}
      (h : P.poll l c s.app = some (x, some handlers)) :
      Runs P t s (.poll l) (.poll c place) { s with app := x }
        ((s.loop l).iteration l handlers place)
  | handleWakeup {l : LoopId} {n : Nat} (h : n ≤ (s.loop l).wakeupBytes) :
      Runs P t s (.handleWakeup l) (.moved n)
        (s.setLoop l { s.loop l with wakeupBytes := (s.loop l).wakeupBytes - n }) []
  | doPendingFunctors {l : LoopId} :
      Runs P t s (.doPendingFunctors l) .go
        (s.setLoop l { s.loop l with pendingFunctors_ := [] })
        ((s.loop l).pendingFunctors_.map fun p => .functor l p.2)
  | functor {l : LoopId} {cb : Frame A} : Runs P t s (.functor l cb) .go s [cb]

theorem exec_runs {t : ThreadId} {f : Frame A} {c : Choice A Ch} {s s' : Reactor A S}
    {next : List (Frame A)} (h : exec P t f c s = some (s', next)) : Runs P t s f c s' next := by
  unfold exec at h
  split at h
  case h_1 => cases h; exact .ret
  case h_2 a =>
    split at h
    · next ha => cases h; exact .call ha
    · cases h
  case h_3 l => cases h; exact .callRunInLoop
  case h_4 l => cases h; exact .callQueueInLoop
  case h_5 l => cases h; exact .callQuit
  case h_6 a c =>
    split at h
    · next x next hx => cases h; exact .code hx
    · cases h
  case h_7 l cb =>
    cases h
    by_cases ht : t = .loop l
    · simpa only [isInLoopThread, ht, beq_self_eq_true, if_true] using .runHere rfl
    · simpa only [isInLoopThread, beq_eq_false_iff_ne.mpr ht, Bool.false_eq_true, if_false]
        using .runThere ht
  case h_8 l cb =>
    cases h
    by_cases ht : t = .loop l
    · simpa only [isInLoopThread, ht, beq_self_eq_true, if_true] using .queueHere rfl
    · simpa only [isInLoopThread, beq_eq_false_iff_ne.mpr ht, Bool.false_eq_true, if_false]
        using .queueThere ht
  case h_9 l n =>
    unfold EventLoop.wakeup at h
    split at h
    · next e he =>
        split at he
        · next hn => cases he; cases h; exact .wakeup hn.2
        · cases he
    · cases h
  case h_10 l =>
    cases h
    by_cases ht : t = .loop l
    · simpa only [isInLoopThread, ht, beq_self_eq_true, if_true] using .quitHere rfl
    · simpa only [isInLoopThread, beq_eq_false_iff_ne.mpr ht, Bool.false_eq_true, if_false]
        using .quitThere ht
  case h_11 l =>
    split at h
    · next ht => cases h; exact .loop (eq_of_beq ht)
    · cases h
  case h_12 l => cases h; exact .clearQuit
  case h_13 l =>
    split at h
    · next hq => cases h; exact .leave hq
    · next hq => cases h; exact .iterate (Bool.eq_false_iff.mpr hq)
  case h_14 l c place =>
    split at h
    · next x hx => cases h; exact .polling hx
    · next x handlers hx => cases h; exact .polled hx
    · cases h
  case h_15 l n =>
    unfold EventLoop.handleWakeup at h
    split at h
    · next e he =>
        split at he
        · next hn => cases he; cases h; exact .handleWakeup hn.2
        · cases he
    · cases h
  case h_16 l =>
    cases h
    rw [List.map_map]
    exact .doPendingFunctors
  case h_17 l cb => cases h; exact .functor
  case h_18 => cases h

/-- A step of the reactor: the thread's top frame ran. -/
theorem step_runs {s s' : Config ThreadId (Frame A) (Reactor A S)} {t : ThreadId}
    {c : Choice A Ch} (h : (code P).step s (t, c) = some s') :
    ∃ f rest x next, s.stack t = f :: rest ∧ Runs P t s.shared f c x next ∧
      s' = s.resume t x next rest := by
  obtain ⟨f, rest, x, next, ht, hx, hs'⟩ := Code.step_eq_some.mp h
  exact ⟨f, rest, x, next, ht, exec_runs hx, hs'⟩

@[simp] theorem setLoop_loop_self (s : Reactor A S) (l : LoopId) (e : EventLoop A) :
    (s.setLoop l e).loop l = e := Function.update_self ..

theorem setLoop_loop_of_ne (s : Reactor A S) {k l : LoopId} (h : k ≠ l) (e : EventLoop A) :
    (s.setLoop l e).loop k = s.loop k := Function.update_of_ne h ..

/-- An update of a loop that leaves its queue alone. -/
theorem setLoop_pending {s : Reactor A S} {l : LoopId} {e : EventLoop A}
    (he : e.pendingFunctors_ = (s.loop l).pendingFunctors_) (k : LoopId) :
    ((s.setLoop l e).loop k).pendingFunctors_ = (s.loop k).pendingFunctors_ := by
  by_cases hk : k = l
  · subst hk
    rw [setLoop_loop_self, he]
  · rw [setLoop_loop_of_ne s hk]

theorem mem_pending_setLoop {s : Reactor A S} {k l : LoopId} {e : EventLoop A}
    {q : ThreadId × Frame A} (hq : q ∈ ((s.setLoop l e).loop k).pendingFunctors_) :
    q ∈ (s.loop k).pendingFunctors_ ∨ k = l ∧ q ∈ e.pendingFunctors_ := by
  by_cases hk : k = l
  · subst hk
    rw [setLoop_loop_self] at hq
    exact .inr ⟨rfl, hq⟩
  · rw [setLoop_loop_of_ne s hk] at hq
    exact .inl hq

/-- What is queued after a push: what was, and the functor pushed. -/
theorem mem_pending_queueInLoop {s : Reactor A S} {k l : LoopId} {t : ThreadId} {cb : Frame A}
    {q : ThreadId × Frame A}
    (hq : q ∈ ((s.setLoop l ((s.loop l).queueInLoop t cb)).loop k).pendingFunctors_) :
    q ∈ (s.loop k).pendingFunctors_ ∨ k = l ∧ q = (t, cb) := by
  rcases mem_pending_setLoop hq with hold | ⟨rfl, hq⟩
  · exact .inl hold
  · exact (List.mem_append.mp hq).imp_right fun hnew => ⟨rfl, List.mem_singleton.mp hnew⟩

/-- What one iteration has to run. -/
theorem mem_iteration {e : EventLoop A} {l : LoopId} {handlers : List A} {place : Nat}
    {g : Frame A} (hg : g ∈ e.iteration l handlers place) :
    (∃ a ∈ handlers, g = .code a) ∨ g = .handleWakeup l ∨ g = .doPendingFunctors l ∨
      g = .whileNotQuit l := by
  have hcode : g ∈ handlers.map Frame.code → ∃ a ∈ handlers, g = .code a := fun hg => by
    obtain ⟨a, ha, rfl⟩ := List.mem_map.mp hg
    exact ⟨a, ha, rfl⟩
  unfold EventLoop.iteration at hg
  rcases List.mem_append.mp hg with hg | hg
  · split at hg
    · rcases List.mem_append.mp hg with hg | hg
      · exact .inl (hcode (List.mem_of_mem_take hg))
      · rcases List.mem_cons.mp hg with rfl | hg
        · exact .inr (.inl rfl)
        · exact .inl (hcode (List.mem_of_mem_drop hg))
    · exact .inl (hcode hg)
  · simp only [List.mem_cons, List.not_mem_nil, or_false] at hg
    exact .inr (.inr hg)

theorem code_mem_iteration {e : EventLoop A} {l : LoopId} {handlers : List A} {place : Nat}
    {a : A} (ha : a ∈ handlers) : .code a ∈ e.iteration l handlers place := by
  have hcode : Frame.code a ∈ handlers.map Frame.code := List.mem_map_of_mem ha
  refine List.mem_append_left _ ?_
  split
  · rw [← List.take_append_drop place (handlers.map Frame.code)] at hcode
    rcases List.mem_append.mp hcode with hg | hg
    · exact List.mem_append_left _ hg
    · exact List.mem_append_right _ (List.mem_cons_of_mem _ hg)
  · exact hcode

/-! ## What travels through the queues -/

/-- The functor a frame carries to a queue, or has from one, is plain. -/
def cargo : Frame A → Bool
  | .runInLoop _ cb | .queueInLoop _ cb | .functor _ cb => cb.plain
  | _ => true

theorem cargo_of_plain {f : Frame A} (h : f.plain = true) : cargo f = true := by
  cases f <;> first | rfl | exact h | cases h

/-- Everything queued is plain. -/
def Plain (s : Reactor A S) : Prop := ∀ l, ∀ p ∈ (s.loop l).pendingFunctors_, p.2.plain = true

theorem plain_setLoop {s : Reactor A S} (h : Plain s) {l : LoopId} {e : EventLoop A}
    (he : ∀ p ∈ e.pendingFunctors_, p.2.plain = true) : Plain (s.setLoop l e) := by
  intro k p hp
  rcases mem_pending_setLoop hp with hold | ⟨_, hnew⟩
  · exact h k p hold
  · exact he p hnew

theorem runs_plain {t : ThreadId} {f : Frame A} {c : Choice A Ch} {s x : Reactor A S}
    {next : List (Frame A)} (h : Runs P t s f c x next) (hI : Plain s) (hf : cargo f = true) :
    Plain x ∧ ∀ g ∈ next, cargo g = true := by
  cases h with
  | ret => exact ⟨hI, by simp⟩
  | call | callRunInLoop | callQueueInLoop | callQuit => exact ⟨hI, by simp [cargo, Frame.plain]⟩
  | code hx => exact ⟨hI, fun g hg => cargo_of_plain (P.exec_plain hx g hg)⟩
  | runHere => exact ⟨hI, by simpa using cargo_of_plain hf⟩
  | runThere => exact ⟨hI, by simpa [cargo] using hf⟩
  | queueHere | queueThere =>
      refine ⟨plain_setLoop hI fun p hp => ?_, by simp [cargo]⟩
      rcases List.mem_append.mp hp with hp | hp
      · exact hI _ p hp
      · rw [List.mem_singleton.mp hp]
        exact hf
  | wakeup | quitHere | quitThere | loop | clearQuit | leave | handleWakeup =>
      exact ⟨plain_setLoop hI (hI _), by simp [cargo]⟩
  | iterate | polling => exact ⟨hI, by simp [cargo]⟩
  | polled =>
      refine ⟨hI, fun g hg => ?_⟩
      rcases mem_iteration hg with ⟨a, _, rfl⟩ | rfl | rfl | rfl <;> rfl
  | doPendingFunctors =>
      refine ⟨plain_setLoop hI (by simp), fun g hg => ?_⟩
      obtain ⟨p, hp, rfl⟩ := List.mem_map.mp hg
      exact hI _ p hp
  | functor => exact ⟨hI, by simpa using cargo_of_plain hf⟩

/-! ## Where control is -/

/-- The frames that are pieces of `EventLoop::loop`. -/
def control : Frame A → Bool
  | .loop _ | .clearQuit _ | .whileNotQuit _ | .poll _ | .handleWakeup _
  | .doPendingFunctors _ => true
  | _ => false

theorem control_of_plain {f : Frame A} (h : f.plain = true) : control f = false := by
  cases f <;> first | rfl | exact absurd h (by simp [Frame.plain])

/-- The loop's own frames on its thread's stack, top first: those of the
iteration it is in, then calls of `loop()` it has yet to make. -/
inductive LoopShape (l : LoopId) : List (Frame A) → Prop
  | outside {outer : List (Frame A)} (h : ∀ f ∈ outer, f = .loop l) : LoopShape l outer
  | starting {outer : List (Frame A)} (h : ∀ f ∈ outer, f = .loop l) :
      LoopShape l (.clearQuit l :: outer)
  | testing {outer : List (Frame A)} (h : ∀ f ∈ outer, f = .loop l) :
      LoopShape l (.whileNotQuit l :: outer)
  | polling {outer : List (Frame A)} (h : ∀ f ∈ outer, f = .loop l) :
      LoopShape l (.poll l :: outer)
  | dispatching {outer : List (Frame A)} (h : ∀ f ∈ outer, f = .loop l) :
      LoopShape l (.doPendingFunctors l :: .whileNotQuit l :: outer)
  | waking {outer : List (Frame A)} (h : ∀ f ∈ outer, f = .loop l) :
      LoopShape l (.handleWakeup l :: .doPendingFunctors l :: .whileNotQuit l :: outer)

/-- The shape of every thread's stack. -/
def Shaped (s : Config ThreadId (Frame A) (Reactor A S)) : Prop :=
  (∀ l, LoopShape l ((s.stack (.loop l)).filter control)) ∧
    ∀ n, (s.stack (.user n)).filter control = []

theorem filter_control_codes (l : List A) : (l.map Frame.code).filter control = [] := by
  rw [List.filter_eq_nil_iff]
  intro f hf
  obtain ⟨a, _, rfl⟩ := List.mem_map.mp hf
  simp [control]

theorem filter_control_take (l : List A) (k : Nat) :
    ((l.map Frame.code).take k).filter control = [] := by
  rw [← List.map_take]
  exact filter_control_codes _

theorem filter_control_drop (l : List A) (k : Nat) :
    ((l.map Frame.code).drop k).filter control = [] := by
  rw [← List.map_drop]
  exact filter_control_codes _

theorem filter_control_iteration (e : EventLoop A) (l : LoopId) (handlers : List A)
    (place : Nat) :
    (e.iteration l handlers place).filter control =
      (if 0 < e.wakeupBytes then [.handleWakeup l] else []) ++
        [.doPendingFunctors l, .whileNotQuit l] := by
  unfold EventLoop.iteration
  split
  · rw [List.filter_append, List.filter_append, List.filter_cons_of_pos rfl,
      filter_control_take, filter_control_drop]
    rfl
  · rw [List.filter_append, filter_control_codes]
    rfl

theorem filter_control_functors (l : LoopId) (ps : List (ThreadId × Frame A)) :
    (ps.map fun p => Frame.functor l p.2).filter control = [] := by
  rw [List.filter_eq_nil_iff]
  intro f hf
  obtain ⟨p, _, rfl⟩ := List.mem_map.mp hf
  simp [control]

theorem filter_control_plain {next : List (Frame A)} (h : ∀ f ∈ next, f.plain = true) :
    next.filter control = [] := by
  rw [List.filter_eq_nil_iff]
  intro f hf
  rw [control_of_plain (h f hf)]
  exact Bool.false_ne_true

/-- A loop's own frame on top of a stack puts the thread where that frame can
be: at the same loop, with the frames below that the source leaves below. -/
theorem LoopShape.top {l : LoopId} {f : Frame A} {below : List (Frame A)}
    (h : LoopShape l (f :: below)) :
    (f = .loop l ∧ LoopShape l below ∧ ∀ g ∈ below, g = .loop l) ∨
      ((f = .clearQuit l ∨ f = .whileNotQuit l ∨ f = .poll l) ∧ ∀ g ∈ below, g = .loop l) ∨
      (f = .doPendingFunctors l ∧
        ∃ outer, below = .whileNotQuit l :: outer ∧ ∀ g ∈ outer, g = .loop l) ∨
      (f = .handleWakeup l ∧
        ∃ outer, below = .doPendingFunctors l :: .whileNotQuit l :: outer ∧
          ∀ g ∈ outer, g = .loop l) := by
  cases h with
  | outside h =>
      have hb : ∀ g ∈ below, g = .loop l := fun g hg => h g (List.mem_cons_of_mem _ hg)
      exact .inl ⟨h f List.mem_cons_self, .outside hb, hb⟩
  | starting h => exact .inr (.inl ⟨.inl rfl, h⟩)
  | testing h => exact .inr (.inl ⟨.inr (.inl rfl), h⟩)
  | polling h => exact .inr (.inl ⟨.inr (.inr rfl), h⟩)
  | dispatching h => exact .inr (.inr (.inl ⟨rfl, _, rfl, h⟩))
  | waking h => exact .inr (.inr (.inr ⟨rfl, _, rfl, h⟩))

/-- The stacks after a step, as far as the loops' own frames go, when neither
the frame that ran nor what it pushed is one. -/
theorem filter_control_resume {s : Config ThreadId (Frame A) (Reactor A S)} {t : ThreadId}
    {f : Frame A} {x : Reactor A S} {next rest : List (Frame A)} (ht : s.stack t = f :: rest)
    (hf : control f = false) (hn : next.filter control = []) (u : ThreadId) :
    ((s.resume t x next rest).stack u).filter control = (s.stack u).filter control := by
  by_cases hu : u = t
  · subst hu
    rw [Config.resume_stack_self, ht, List.filter_append, hn, List.nil_append,
      List.filter_cons_of_neg (by rw [hf]; exact Bool.false_ne_true)]
  · rw [Config.resume_stack_of_ne s hu]

/-- A step of a loop's own frame: it ran on that loop's thread, and only that
stack changed. -/
theorem shaped_control {s : Config ThreadId (Frame A) (Reactor A S)} (h : Shaped s)
    {t : ThreadId} {f : Frame A} {rest : List (Frame A)} (ht : s.stack t = f :: rest)
    (hf : control f = true) :
    ∃ l, t = .loop l ∧ LoopShape l (f :: rest.filter control) := by
  have hfilter : (f :: rest).filter control = f :: rest.filter control :=
    List.filter_cons_of_pos hf
  cases t with
  | loop l => exact ⟨l, rfl, by rw [← hfilter, ← ht]; exact h.1 l⟩
  | user n =>
      have := h.2 n
      rw [ht, hfilter] at this
      cases this

theorem shaped_resume {s : Config ThreadId (Frame A) (Reactor A S)} (h : Shaped s)
    {l : LoopId} {x : Reactor A S} {next rest : List (Frame A)}
    (hl : LoopShape l (next.filter control ++ rest.filter control)) :
    Shaped (s.resume (.loop l) x next rest) := by
  refine ⟨fun k => ?_, fun n => ?_⟩
  · by_cases hk : k = l
    · subst hk
      rw [Config.resume_stack_self, List.filter_append]
      exact hl
    · rw [Config.resume_stack_of_ne s (by simpa using hk)]
      exact h.1 k
  · rw [Config.resume_stack_of_ne s (by simp)]
    exact h.2 n

theorem shaped_step {s s' : Config ThreadId (Frame A) (Reactor A S)} {t : ThreadId}
    {c : Choice A Ch} (hs : (code P).step s (t, c) = some s')
    (hplain : ∀ u, ∀ f ∈ s.stack u, cargo f = true) (h : Shaped s) : Shaped s' := by
  obtain ⟨f, rest, x, next, ht, hr, rfl⟩ := step_runs hs
  have hcargo : cargo f = true := hplain t f (by rw [ht]; exact List.mem_cons_self)
  have hother : control f = false → next.filter control = [] →
      Shaped (s.resume t x next rest) := fun hf hn =>
    ⟨fun k => by rw [filter_control_resume ht hf hn]; exact h.1 k,
      fun n => by rw [filter_control_resume ht hf hn]; exact h.2 n⟩
  cases hr with
  | ret | call | callRunInLoop | callQueueInLoop | callQuit | runThere | queueHere
  | queueThere | wakeup | quitHere | quitThere => exact hother rfl rfl
  | code hx => exact hother rfl (filter_control_plain (P.exec_plain hx))
  | runHere => exact hother rfl (filter_control_plain (by simpa [cargo] using hcargo))
  | functor => exact hother rfl (filter_control_plain (by simpa [cargo] using hcargo))
  | loop =>
      obtain ⟨l, rfl, hl⟩ := shaped_control h ht rfl
      obtain ⟨hf, _, hb⟩ | ⟨hf | hf | hf, _⟩ | ⟨hf, _⟩ | ⟨hf, _⟩ := hl.top <;> cases hf
      exact shaped_resume h (.starting hb)
  | clearQuit =>
      obtain ⟨l, rfl, hl⟩ := shaped_control h ht rfl
      obtain ⟨hf, _⟩ | ⟨hf | hf | hf, hb⟩ | ⟨hf, _⟩ | ⟨hf, _⟩ := hl.top <;> cases hf
      exact shaped_resume h (.testing hb)
  | leave =>
      obtain ⟨l, rfl, hl⟩ := shaped_control h ht rfl
      obtain ⟨hf, _⟩ | ⟨hf | hf | hf, hb⟩ | ⟨hf, _⟩ | ⟨hf, _⟩ := hl.top <;> cases hf
      exact shaped_resume h (.outside hb)
  | iterate =>
      obtain ⟨l, rfl, hl⟩ := shaped_control h ht rfl
      obtain ⟨hf, _⟩ | ⟨hf | hf | hf, hb⟩ | ⟨hf, _⟩ | ⟨hf, _⟩ := hl.top <;> cases hf
      exact shaped_resume h (.polling hb)
  | polling =>
      obtain ⟨l, rfl, hl⟩ := shaped_control h ht rfl
      obtain ⟨hf, _⟩ | ⟨hf | hf | hf, hb⟩ | ⟨hf, _⟩ | ⟨hf, _⟩ := hl.top <;> cases hf
      exact shaped_resume h (.polling hb)
  | polled =>
      obtain ⟨l, rfl, hl⟩ := shaped_control h ht rfl
      obtain ⟨hf, _⟩ | ⟨hf | hf | hf, hb⟩ | ⟨hf, _⟩ | ⟨hf, _⟩ := hl.top <;> cases hf
      refine shaped_resume h ?_
      rw [filter_control_iteration]
      split
      · exact .waking hb
      · exact .dispatching hb
  | handleWakeup =>
      obtain ⟨l, rfl, hl⟩ := shaped_control h ht rfl
      obtain ⟨hf, _⟩ | ⟨hf | hf | hf, _⟩ | ⟨hf, _⟩ | ⟨hf, outer, hb, ho⟩ := hl.top <;> cases hf
      exact shaped_resume h (by rw [hb]; exact .dispatching ho)
  | doPendingFunctors =>
      obtain ⟨l, rfl, hl⟩ := shaped_control h ht rfl
      obtain ⟨hf, _⟩ | ⟨hf | hf | hf, _⟩ | ⟨hf, outer, hb, ho⟩ | ⟨hf, _⟩ := hl.top <;> cases hf
      refine shaped_resume h ?_
      rw [filter_control_functors, hb]
      exact .testing ho

/-! ## Both, along every run -/

/-- Queues carry plain code, and the loops' own frames are in place. -/
structure Sound (s : Config ThreadId (Frame A) (Reactor A S)) : Prop where
  plain : Holds Plain (fun _ f _ => cargo f = true) s
  shaped : Shaped s

theorem sound_init {s : Config ThreadId (Frame A) (Reactor A S)} (h : Init s) : Sound s := by
  obtain ⟨hloop, hstack, huser⟩ := h
  refine ⟨⟨fun l p hp => ?_, fun t f hf => ?_⟩, fun l => ?_, fun n => ?_⟩
  · rw [hloop] at hp
    cases hp
  · cases t with
    | loop l => rcases hstack l f hf with rfl | rfl <;> rfl
    | user n => exact cargo_of_plain (huser n f hf)
  · refine .outside fun f hf => ?_
    obtain ⟨hf, hc⟩ := List.mem_filter.mp hf
    rcases hstack l f hf with rfl | rfl
    · cases hc
    · rfl
  · exact filter_control_plain (huser n)

theorem sound_step {s s' : Config ThreadId (Frame A) (Reactor A S)}
    {a : ThreadId × Choice A Ch} (hs : (code P).step s a = some s') (h : Sound s) :
    Sound s' := by
  refine ⟨h.plain.step hs fun f rest x next _ hx hI hf => ?_, shaped_step hs h.plain.2 h.shaped⟩
  obtain ⟨hI', hnext⟩ := runs_plain (exec_runs hx) hI hf
  exact ⟨hI', hnext, fun _ _ hg => hg⟩

theorem sound_of_reachIf {init : Config ThreadId (Frame A) (Reactor A S) → Prop}
    (hinit : ∀ s, init s → Init s)
    {C : Config ThreadId (Frame A) (Reactor A S) → ThreadId × Choice A Ch → Prop}
    {s : Config ThreadId (Frame A) (Reactor A S)} (h : (lts P init).ReachIf C s) : Sound s :=
  h.inv (fun s hs => sound_init (hinit s hs)) fun _ _ _ hI _ hs => sound_step hs hI

/-- At `poll`, a loop is past `doPendingFunctors`. -/
theorem Sound.poll_top {s : Config ThreadId (Frame A) (Reactor A S)} (h : Sound s) {l : LoopId}
    {rest : List (Frame A)} (ht : s.stack (.loop l) = .poll l :: rest) :
    .doPendingFunctors l ∉ s.stack (.loop l) := by
  intro hmem
  obtain ⟨k, _, hk⟩ := shaped_control h.shaped ht rfl
  have hin : Frame.doPendingFunctors l ∈ rest.filter control := by
    rw [ht] at hmem
    exact List.mem_filter.mpr ⟨(List.mem_cons.mp hmem).resolve_left (by simp), rfl⟩
  obtain ⟨hf, _⟩ | ⟨_, hb⟩ | ⟨hf, _⟩ | ⟨hf, _⟩ := hk.top
  · cases hf
  · cases hb _ hin
  · cases hf
  · cases hf

/-- A loop polls on its own thread. -/
theorem Sound.poll_thread {s : Config ThreadId (Frame A) (Reactor A S)} (h : Sound s)
    {t : ThreadId} {l : LoopId} {rest : List (Frame A)} (ht : s.stack t = .poll l :: rest) :
    t = .loop l := by
  obtain ⟨k, rfl, hk⟩ := shaped_control h.shaped ht rfl
  obtain ⟨hf, _⟩ | ⟨hf | hf | hf, _⟩ | ⟨hf, _⟩ | ⟨hf, _⟩ := hk.top <;> cases hf
  rfl

/-- At `doPendingFunctors`, a loop is on its own thread and not inside another. -/
theorem Sound.doPendingFunctors_top {s : Config ThreadId (Frame A) (Reactor A S)} (h : Sound s)
    {t : ThreadId} {l : LoopId} {rest : List (Frame A)}
    (ht : s.stack t = .doPendingFunctors l :: rest) :
    t = .loop l ∧ ∀ k, .doPendingFunctors k ∉ rest := by
  obtain ⟨k, rfl, hk⟩ := shaped_control h.shaped ht rfl
  obtain ⟨hf, _⟩ | ⟨hf | hf | hf, _⟩ | ⟨hf, outer, hb, ho⟩ | ⟨hf, _⟩ := hk.top <;> cases hf
  refine ⟨rfl, fun j hj => ?_⟩
  have hin : Frame.doPendingFunctors j ∈ rest.filter control := List.mem_filter.mpr ⟨hj, rfl⟩
  rw [hb] at hin
  rcases List.mem_cons.mp hin with hin | hin
  · cases hin
  · cases ho _ hin

/-- At `handleWakeup`, a loop has `doPendingFunctors` still to run. -/
theorem Sound.handleWakeup_top {s : Config ThreadId (Frame A) (Reactor A S)} (h : Sound s)
    {t : ThreadId} {l : LoopId} {rest : List (Frame A)}
    (ht : s.stack t = .handleWakeup l :: rest) :
    t = .loop l ∧ .doPendingFunctors l ∈ rest := by
  obtain ⟨k, rfl, hk⟩ := shaped_control h.shaped ht rfl
  obtain ⟨hf, _⟩ | ⟨hf | hf | hf, _⟩ | ⟨hf, _⟩ | ⟨hf, outer, hb, _⟩ := hk.top <;> cases hf
  have hin : Frame.doPendingFunctors l ∈ rest.filter control := by
    rw [hb]
    exact List.mem_cons_self
  exact ⟨rfl, (List.mem_filter.mp hin).1⟩

end Muduox.Net.Reactor
