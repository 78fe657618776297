import Muduox.Net.EventLoopThread
import Muduox.Proofs.Wakeup

/-!
# Requests to quit

`loop()` stores false into `quit_` before it first tests it, and `startLoop()`
returns before that. A `quit()` in between is lost: the loop runs on, and the
`stop()` that made the request waits in `join()`.

From the store on `quit_` only grows (`QuitKept`), so every later request is
seen at the loop's next test. Until then the thread can only be asleep in `poll`,
and a byte for its wakeup socket was sent or is about to be.
-/

namespace Muduox.Net.LoopThreads

open Threads

variable {A Ch S : Type} {P : App A Ch S}

/-- The threads over the reactor, in one state. -/
abbrev State (A S : Type) := Config ThreadId (LoopFrame A) (LoopThreads A S)

/-- `quit()` stores true only after `loop()` stored false. -/
def AskedLate (s : State A S) (a : ThreadId × LoopChoice A Ch) : Prop :=
  match (s.stack a.1).head? with
  | some (.inner (.quit l)) => .cleared ∈ (s.shared.thread l).log
  | _ => True

instance (s : State A S) (a : ThreadId × LoopChoice A Ch) : Decidable (AskedLate s a) := by
  unfold AskedLate
  split <;> infer_instance

/-- The thread of loop `l` has returned, or is about to, or will leave the loop
at the next test and does not sleep before it. -/
def Returning (s : State A S) (l : LoopId) : Prop :=
  (s.shared.thread l).returned = true ∨ s.stack (.loop l) = [.exit l] ∨
    (s.shared.reactor.loop l).quit_ = true ∧
      ((s.stack (.loop l)).head? = some (.inner (.poll l)) →
        0 < (s.shared.reactor.loop l).wakeupBytes ∨
          ∃ u, (s.stack u).head? = some (.inner (.wakeup l)))

/-- A request to quit stands until the loop is left, no iteration starts after
it, and who waits for the thread does not wait for a loop that goes on. -/
structure QuitKept (s : State A S) (l : LoopId) : Prop where
  stays : .asked ∈ (s.shared.thread l).log → .left ∉ (s.shared.thread l).log →
    (s.shared.reactor.loop l).quit_ = true
  last : (s.shared.thread l).log.Pairwise fun a b => a = .asked → b ≠ .iterate
  joined : ∀ t, (s.stack t).head? = some (.join l) → Returning s l

/-! ## Where control is -/

/-- The frames of user code and of what it calls. -/
def aside : LoopFrame A → Bool
  | .wait _ | .blocked _ | .join _ => true
  | .inner f => !Reactor.control f
  | _ => false

/-- What may lie over the test on the stack of loop `l`. -/
def Within (l : LoopId) (f : LoopFrame A) : Prop :=
  aside f = true ∨ f = .inner (.handleWakeup l) ∨ f = .inner (.doPendingFunctors l)

/-- The stack of a loop's thread, with the history of its `quit_`. -/
inductive Phase (l : LoopId) (log : List QuitEvent) (returned : Bool) :
    List (LoopFrame A) → Prop
  | before {fs : List (LoopFrame A)} (h : fs ∈ [[.threadFunc l], [.publish l],
        [.notifyOne l, .callLoop l, .exit l], [.callLoop l, .exit l],
        [.inner (.loop l), .exit l], [.inner (.clearQuit l), .exit l]])
      (hlog : log = []) : Phase l log returned fs
  | iterating {gs : List (LoopFrame A)} (hgs : ∀ g ∈ gs, Within l g) (hlog : .left ∉ log) :
      Phase l log returned (gs ++ [.inner (.whileNotQuit l), .exit l])
  | polling (hlog : .left ∉ log) : Phase l log returned [.inner (.poll l), .exit l]
  | leaving (hlog : .left ∈ log) : Phase l log returned [.exit l]
  | returned (h : returned = true) : Phase l log returned []

/-- What is known of loop `l`. -/
structure Good (s : State A S) (l : LoopId) : Prop where
  phase : Phase l (s.shared.thread l).log (s.shared.thread l).returned (s.stack (.loop l))
  stays : .asked ∈ (s.shared.thread l).log → .left ∉ (s.shared.thread l).log →
    (s.shared.reactor.loop l).quit_ = true
  last : (s.shared.thread l).log.Pairwise fun a b => a = .asked → b ≠ .iterate
  woken : .asked ∈ (s.shared.thread l).log → .inner (.poll l) ∈ s.stack (.loop l) →
    0 < (s.shared.reactor.loop l).wakeupBytes ∨
      ∃ u, (s.stack u).head? = some (.inner (.wakeup l))

/-- What every run keeps that meets the condition. -/
structure Inv (s : State A S) : Prop where
  plain : Reactor.Plain s.shared.reactor
  cargo : ∀ t, ∀ f, .inner f ∈ s.stack t → Reactor.cargo f = true
  others : ∀ n, ∀ f ∈ s.stack (.user n), aside f = true
  good : ∀ l, Good s l
  joins : ∀ t l pre rest, s.stack t = pre ++ .join l :: rest →
    .asked ∈ (s.shared.thread l).log ∨ .inner (.quit l) ∈ pre

/-- What running a frame of user code does. -/
structure Aside (t : ThreadId) (f : LoopFrame A) (s x : LoopThreads A S)
    (next : List (LoopFrame A)) : Prop where
  pushes : ∀ g ∈ next, aside g = true
  log : ∀ l, (x.thread l).log = (s.thread l).log ∨
    f = .inner (.quit l) ∧ (x.thread l).log = (s.thread l).log ++ [.asked] ∧
      (x.reactor.loop l).quit_ = true ∧ (t ≠ .loop l → next = [.inner (.wakeup l)])
  returned : ∀ l, (x.thread l).returned = (s.thread l).returned
  stays : ∀ l, (s.reactor.loop l).quit_ = true → (x.reactor.loop l).quit_ = true
  bytes : ∀ l, (s.reactor.loop l).wakeupBytes ≤ (x.reactor.loop l).wakeupBytes
  sent : ∀ l, f = .inner (.wakeup l) → 0 < (x.reactor.loop l).wakeupBytes
  asks : ∀ l, f = .inner (.quit l) → .asked ∈ (x.thread l).log

/-- An iteration ends at the loop's test. -/
theorem iteration_eq (e : EventLoop A) (l : LoopId) (handlers : List A) (place : Nat) :
    ∃ gs, e.iteration l handlers place = gs ++ [.whileNotQuit l] ∧
      ∀ g ∈ gs, (∃ a, g = .code a) ∨ g = .handleWakeup l ∨ g = .doPendingFunctors l := by
  have hcode : ∀ g ∈ handlers.map Frame.code, ∃ a, g = .code a := fun g hg => by
    obtain ⟨a, _, rfl⟩ := List.mem_map.mp hg
    exact ⟨a, rfl⟩
  unfold EventLoop.iteration
  split
  · refine ⟨_ ++ [.doPendingFunctors l], (List.append_assoc _ [_] [_]).symm, fun g hg => ?_⟩
    simp only [List.mem_append, List.mem_cons, List.not_mem_nil, or_false] at hg
    rcases hg with (hg | rfl | hg) | rfl
    · exact .inl (hcode g (List.mem_of_mem_take hg))
    · exact .inr (.inl rfl)
    · exact .inl (hcode g (List.mem_of_mem_drop hg))
    · exact .inr (.inr rfl)
  · refine ⟨_ ++ [.doPendingFunctors l], (List.append_assoc _ [_] [_]).symm, fun g hg => ?_⟩
    rcases List.mem_append.mp hg with hg | hg
    · exact .inl (hcode g hg)
    · exact .inr (.inr (List.mem_singleton.mp hg))

/-- The frames that run to no end of a loop's: they wake it at most, and ask it
to quit. -/
theorem runs_aside {t : ThreadId} {f : Frame A} {c : Choice A Ch} {s x : Reactor A S}
    {next : List (Frame A)} (h : Reactor.Runs P t s f c x next) (hf : Reactor.control f = false)
    (hcargo : Reactor.cargo f = true) :
    (∀ g ∈ next, Reactor.control g = false) ∧
      ∀ l, ((s.loop l).quit_ = true ∨ f = .quit l → (x.loop l).quit_ = true) ∧
        (s.loop l).wakeupBytes ≤ (x.loop l).wakeupBytes ∧
        (f = .wakeup l → 0 < (x.loop l).wakeupBytes) := by
  have hset : ∀ k (e : EventLoop A), f ≠ .wakeup k → (∀ l, f = .quit l → l = k) →
      ((s.loop k).quit_ = true ∨ f = .quit k → e.quit_ = true) →
      (s.loop k).wakeupBytes ≤ e.wakeupBytes → (∀ l, f = .wakeup l → l = k) →
      ∀ l, ((s.loop l).quit_ = true ∨ f = .quit l → ((s.setLoop k e).loop l).quit_ = true) ∧
        (s.loop l).wakeupBytes ≤ ((s.setLoop k e).loop l).wakeupBytes ∧
        (f = .wakeup l → 0 < ((s.setLoop k e).loop l).wakeupBytes) := by
    intro k e hne hquit he hb hw l
    by_cases hl : l = k
    · subst hl
      rw [Reactor.setLoop_loop_self]
      exact ⟨he, hb, fun hf => absurd hf hne⟩
    · rw [Reactor.setLoop_loop_of_ne s hl]
      exact ⟨fun h => h.resolve_right fun hf => hl (hquit l hf), Nat.le_refl _,
        fun hf => absurd (hw l hf) hl⟩
  cases h with
  | loop | clearQuit | leave | iterate | polling | polled | handleWakeup | doPendingFunctors =>
      cases hf
  | ret | call | callRunInLoop | callQueueInLoop | callQuit | runThere =>
      exact ⟨by simp [Reactor.control], fun l => ⟨by simp, Nat.le_refl _, by simp⟩⟩
  | code hx =>
      exact ⟨fun g hg => Reactor.control_of_plain (P.exec_plain hx g hg),
        fun l => ⟨by simp, Nat.le_refl _, by simp⟩⟩
  | runHere | functor =>
      refine ⟨fun g hg => ?_, fun l => ⟨by simp, Nat.le_refl _, by simp⟩⟩
      rw [List.mem_singleton.mp hg]
      exact Reactor.control_of_plain (by simpa [Reactor.cargo] using hcargo)
  | queueHere | queueThere =>
      exact ⟨by simp [Reactor.control], hset _ _ (by simp) (by simp)
        (by simp [EventLoop.queueInLoop]) (Nat.le_refl _) (by simp)⟩
  | quitHere | quitThere =>
      exact ⟨by simp [Reactor.control], hset _ _ (by simp) (by simp) (by simp) (Nat.le_refl _) (by simp)⟩
  | @wakeup k n hn =>
      refine ⟨by simp, fun l => ?_⟩
      by_cases hl : l = k
      · subst hl
        rw [Reactor.setLoop_loop_self]
        refine ⟨by simp, Nat.le_add_right _ _, fun _ => ?_⟩
        dsimp only
        omega
      · rw [Reactor.setLoop_loop_of_ne s hl]
        exact ⟨by simp, Nat.le_refl _, by simpa using fun h => absurd h.symm hl⟩

section Pieces

variable {s s' x : LoopThreads A S} {t : ThreadId} {f : LoopFrame A}
  {next : List (LoopFrame A)}

@[simp] theorem setThread_thread_self (s : LoopThreads A S) (l : LoopId) (e : EventLoopThread) :
    (s.setThread l e).thread l = e := Function.update_self ..

theorem setThread_thread_of_ne (s : LoopThreads A S) {k l : LoopId} (h : k ≠ l)
    (e : EventLoopThread) : (s.setThread l e).thread k = s.thread k := Function.update_of_ne h ..

/-- A change of a thread's members that has no part in the history. -/
theorem setThread_log {l : LoopId} {e : EventLoopThread} (hlog : e.log = (s.thread l).log)
    (k : LoopId) : ((s.setThread l e).thread k).log = (s.thread k).log := by
  by_cases hk : k = l
  · subst hk
    rw [setThread_thread_self, hlog]
  · rw [setThread_thread_of_ne s hk]

theorem setThread_returned {l : LoopId} {e : EventLoopThread}
    (h : e.returned = (s.thread l).returned) (k : LoopId) :
    ((s.setThread l e).thread k).returned = (s.thread k).returned := by
  by_cases hk : k = l
  · subst hk
    rw [setThread_thread_self, h]
  · rw [setThread_thread_of_ne s hk]

theorem record_returned (s : LoopThreads A S) (o : Option (LoopId × QuitEvent)) (k : LoopId) :
    ((s.record o).thread k).returned = (s.thread k).returned := by
  cases o with
  | none => rfl
  | some p =>
      rw [record]
      refine setThread_returned ?_ k
      rfl

theorem record_log_self (s : LoopThreads A S) (l : LoopId) (e : QuitEvent) :
    ((s.record (some (l, e))).thread l).log = (s.thread l).log ++ [e] := by
  rw [record, setThread_thread_self]

theorem record_log_of_ne (s : LoopThreads A S) {o : Option (LoopId × QuitEvent)} {k : LoopId}
    (h : ∀ p ∈ o, p.1 ≠ k) : ((s.record o).thread k).log = (s.thread k).log := by
  cases o with
  | none => rfl
  | some p => rw [record, setThread_thread_of_ne s (Ne.symm (h p rfl))]

/-- The pieces of `startLoop` and `stop` that another loop's `quit_` has no part in. -/
theorem aside_quiet (hx : x.reactor = s.reactor)
    (hlog : ∀ k, (x.thread k).log = (s.thread k).log)
    (hret : ∀ k, (x.thread k).returned = (s.thread k).returned)
    (hf : (∀ l, f ≠ .inner (.quit l)) ∧ ∀ l, f ≠ .inner (.wakeup l))
    (hnext : ∀ g ∈ next, aside g = true) : Aside t f s x next :=
  ⟨hnext, fun l => .inl (hlog l), hret, fun l h => by rw [hx]; exact h,
    fun l => Nat.le_of_eq (by rw [hx]), fun l h => absurd h (hf.2 l), fun l h => absurd h (hf.1 l)⟩

theorem exec_aside {c : LoopChoice A Ch} (h : exec P t f c s = some (x, next))
    (hf : aside f = true) (hcargo : ∀ g, f = .inner g → Reactor.cargo g = true) :
    Aside t f s x next := by
  unfold exec at h
  split at h
  case h_1 l =>
    split at h
    · cases h
      exact aside_quiet rfl (fun _ => rfl) (fun _ => rfl) (by simp) (by simp [aside, Reactor.control])
    · split at h
      · cases h
      · cases h
        exact aside_quiet rfl (setThread_log rfl) (setThread_returned rfl) (by simp)
          (by simp [aside, Reactor.control])
  case h_2 l =>
    split at h
    · cases h
      exact aside_quiet rfl (fun _ => rfl) (fun _ => rfl) (by simp) (by simp [aside, Reactor.control])
    · cases h
  case h_3 l =>
    split at h
    · cases h
      exact aside_quiet rfl (fun _ => rfl) (fun _ => rfl) (by simp) (by simp)
    · cases h
      exact aside_quiet rfl (setThread_log rfl) (setThread_returned rfl) (by simp) (by simp [aside])
  case h_4 l =>
    split at h
    · cases h
    · cases h
      exact aside_quiet rfl (fun _ => rfl) (fun _ => rfl) (by simp) (by simp [aside])
  case h_5 l =>
    cases h
    exact aside_quiet rfl (setThread_log rfl) (setThread_returned rfl) (by simp) (by simp [aside])
  case h_6 l =>
    split at h
    · cases h
      exact aside_quiet rfl (fun _ => rfl) (fun _ => rfl) (by simp) (by simp)
    · split at h
      · cases h
        exact aside_quiet rfl (setThread_log rfl) (setThread_returned rfl) (by simp) (by simp)
      · cases h
  case h_13 f c =>
    split at h
    · split at h
      · next y next hy =>
          cases h
          have hruns := Reactor.exec_runs hy
          have hfc : Reactor.control f = false := by simpa [aside] using hf
          obtain ⟨hnext, hloop⟩ := runs_aside hruns hfc (hcargo f rfl)
          refine ⟨fun g hg => ?_, fun l => ?_, record_returned s _, fun l h => (hloop l).1 (.inl h),
            fun l => (hloop l).2.1, fun l h => ?_, fun l h => ?_⟩
          · obtain ⟨b, hb, rfl⟩ := List.mem_map.mp hg
            simp [aside, hnext b hb]
          · by_cases hquit : f = .quit l
            · subst hquit
              refine .inr ⟨rfl, record_log_self s l .asked, (hloop l).1 (.inr rfl), fun ht => ?_⟩
              cases hruns with
              | quitHere ht' => exact absurd ht' ht
              | quitThere => rfl
            · refine .inl (record_log_of_ne s fun p hp hpl => ?_)
              cases f with
              | clearQuit | whileNotQuit => cases hfc
              | quit k =>
                  cases hp
                  exact hquit (congrArg Frame.quit hpl)
              | _ => cases hp
          · cases h
            exact (hloop l).2.2 rfl
          · cases h
            have hlog := record_log_self s l .asked
            change QuitEvent.asked ∈ ((s.record (some (l, .asked))).thread l).log
            rw [hlog]
            exact List.mem_append_right _ List.mem_cons_self
      · cases h
    · cases h
  all_goals first | cases hf | cases h

/-- What running one of a thread's own frames does. -/
inductive Own (P : App A Ch S) (t : ThreadId) (s : LoopThreads A S) :
    LoopFrame A → LoopThreads A S → List (LoopFrame A) → Prop
  | threadFunc {l : LoopId} : Own P t s (.threadFunc l) s [.publish l]
  | publish {l : LoopId} :
      Own P t s (.publish l) (s.setThread l { s.thread l with loop_ := true })
        [.notifyOne l, .callLoop l, .exit l]
  | notifyNone {l : LoopId} : Own P t s (.notifyOne l) s []
  | notify {l : LoopId} {ws : List ThreadId} :
      Own P t s (.notifyOne l) (s.setThread l { s.thread l with waiting := ws }) []
  | callLoop {l : LoopId} : Own P t s (.callLoop l) s [.inner (.loop l)]
  | exit {l : LoopId} :
      Own P t s (.exit l) (s.setThread l { s.thread l with returned := true }) []
  | inner {f : Frame A} {c : Choice A Ch} {x : Reactor A S} {next : List (Frame A)}
      (h : Reactor.Runs P t s.reactor f c x next) :
      Own P t s (.inner f) { s.record (quitEvent s.reactor f) with reactor := x }
        (next.map .inner)

theorem exec_own {c : LoopChoice A Ch} (h : exec P t f c s = some (x, next))
    (hf : aside f = false) : Own P t s f x next := by
  unfold exec at h
  split at h
  case h_7 l =>
    split at h
    · cases h
      exact .threadFunc
    · cases h
  case h_8 l => cases h; exact .publish
  case h_9 l =>
    split at h
    · cases h
      exact .notifyNone
    · cases h
  case h_10 l w =>
    split at h
    · cases h
      exact .notify
    · cases h
  case h_11 l => cases h; exact .callLoop
  case h_12 l => cases h; exact .exit
  case h_13 f c =>
    split at h
    · split at h
      · next y next hy =>
          cases h
          exact .inner (Reactor.exec_runs hy)
      · cases h
    · cases h
  all_goals first | cases hf | cases h

/-- What is queued stays plain. -/
theorem exec_plain {c : LoopChoice A Ch} (h : exec P t f c s = some (x, next))
    (hplain : Reactor.Plain s.reactor) (hcargo : ∀ g, f = .inner g → Reactor.cargo g = true) :
    Reactor.Plain x.reactor ∧ ∀ g, .inner g ∈ next → Reactor.cargo g = true := by
  by_cases hinner : ∃ g c', f = .inner g ∧ c = .inner c'
  · obtain ⟨g, c', rfl, rfl⟩ := hinner
    unfold exec at h
    split at h
    case h_13 g' c' hf hc =>
      cases hf
      split at h
      · split at h
        · next y next hy =>
            cases h
            obtain ⟨hy, hnext⟩ := Reactor.runs_plain (Reactor.exec_runs hy) hplain (hcargo g rfl)
            refine ⟨hy, fun b hb => ?_⟩
            obtain ⟨b', hb', he⟩ := List.mem_map.mp hb
            cases he
            exact hnext b hb'
        · cases h
      · cases h
    all_goals simp_all
  · have hx : x.reactor = s.reactor ∧ ∀ g, .inner g ∈ next → g = .user ∨ (∃ l, g = .quit l) ∨
        ∃ l, g = .loop l := by
      unfold exec at h
      split at h
      case h_13 g c => exact absurd ⟨g, c, rfl, rfl⟩ hinner
      all_goals repeat' split at h
      all_goals try cases h
      all_goals simp [setThread]
    rw [hx.1]
    refine ⟨hplain, fun g hg => ?_⟩
    rcases hx.2 g hg with rfl | ⟨l, rfl⟩ | ⟨l, rfl⟩ <;> rfl

/-- `stop()` asks before it waits. -/
theorem exec_joins {c : LoopChoice A Ch} (h : exec P t f c s = some (x, next)) {l : LoopId}
    {pre rest : List (LoopFrame A)} (hnext : next = pre ++ .join l :: rest) :
    .inner (.quit l) ∈ pre := by
  have hstop : .join l ∈ next := by
    rw [hnext]
    simp
  unfold exec at h
  split at h
  case h_2 k =>
    split at h
    · cases h
      cases pre with
      | nil => cases hnext
      | cons a pre =>
          cases pre with
          | nil =>
              cases hnext
              exact List.mem_cons_self
          | cons b pre =>
              cases pre with
              | nil => cases hnext
              | cons c pre => cases pre <;> cases hnext
    · cases h
  all_goals repeat' split at h
  all_goals try cases h
  all_goals simp at hstop

end Pieces

section Step

variable {s s' : State A S} {t : ThreadId} {f : LoopFrame A} {x : LoopThreads A S}
  {next rest : List (LoopFrame A)} {l : LoopId}

/-! ### User code -/

/-- User code on a loop's own stack runs within an iteration. -/
theorem Phase.aside {log log' : List QuitEvent} {r r' : Bool} (h : Phase l log r (f :: rest))
    (hf : aside f = true) (hnext : ∀ g ∈ next, LoopThreads.aside g = true)
    (hlog : .left ∈ log' → .left ∈ log) : Phase l log' r' (next ++ rest) := by
  generalize hfs : f :: rest = fs at h
  cases h with
  | before h =>
      subst hfs
      simp only [List.mem_cons, List.not_mem_nil, or_false, List.cons.injEq] at h
      rcases h with ⟨rfl, _⟩ | ⟨rfl, _⟩ | ⟨rfl, _⟩ | ⟨rfl, _⟩ | ⟨rfl, _⟩ | ⟨rfl, _⟩ <;> cases hf
  | @iterating gs hgs hl =>
      cases gs with
      | nil =>
          cases hfs
          cases hf
      | cons g gs =>
          cases hfs
          change Phase l log' r' (next ++ (gs ++ _))
          rw [← List.append_assoc]
          refine .iterating (fun b hb => ?_) fun h => hl (hlog h)
          rcases List.mem_append.mp hb with hb | hb
          · exact .inl (hnext b hb)
          · exact hgs b (List.mem_cons_of_mem _ hb)
  | polling | leaving =>
      cases hfs
      cases hf
  | returned => cases hfs

/-- The phase after another thread's step. -/
theorem Phase.asked {log : List QuitEvent} {r : Bool} {fs : List (LoopFrame A)}
    (h : Phase l log r fs) (hlate : .cleared ∈ log) : Phase l (log ++ [.asked]) r fs := by
  cases h with
  | before _ hlog =>
      rw [hlog] at hlate
      cases hlate
  | iterating hgs hl => exact .iterating hgs (by simpa using hl)
  | polling hl => exact .polling (by simpa using hl)
  | leaving hl => exact .leaving (List.mem_append_left _ hl)
  | returned hr => exact .returned hr

/-- Nothing lies on or under `poll`. -/
theorem Phase.poll_mem {log : List QuitEvent} {r : Bool} {fs : List (LoopFrame A)}
    (h : Phase l log r fs) (hpoll : .inner (.poll l) ∈ fs) :
    fs = [.inner (.poll l), .exit l] := by
  cases h with
  | before h =>
      simp only [List.mem_cons, List.not_mem_nil, or_false] at h
      rcases h with rfl | rfl | rfl | rfl | rfl | rfl <;> simp at hpoll
  | iterating hgs =>
      rcases List.mem_append.mp hpoll with hpoll | hpoll
      · rcases hgs _ hpoll with h | h | h <;> cases h
      · simp at hpoll
  | polling => rfl
  | leaving | returned => simp at hpoll

/-- A thread stands at `wakeup` after a step if it did before. -/
theorem wakeup_stays (ht : s.stack t = f :: rest) (hf : f ≠ .inner (.wakeup l))
    (h : ∃ u, (s.stack u).head? = some (.inner (.wakeup l))) :
    ∃ u, ((s.resume t x next rest).stack u).head? = some (.inner (.wakeup l)) := by
  obtain ⟨u, hu⟩ := h
  refine ⟨u, ?_⟩
  by_cases hut : u = t
  · subst hut
    rw [ht, List.head?_cons, Option.some.injEq] at hu
    exact absurd hu hf
  · rw [Config.resume_stack_of_ne s hut]
    exact hu

theorem Good.aside (h : Good s l) (ht : s.stack t = f :: rest) (hf : aside f = true)
    (hlate : f = .inner (.quit l) → .cleared ∈ (s.shared.thread l).log)
    (hrun : Aside t f s.shared x next) : Good (s.resume t x next rest) l := by
  have hleft : .left ∈ (x.thread l).log → .left ∈ (s.shared.thread l).log := by
    rcases hrun.log l with hlog | ⟨-, hlog, -⟩ <;> rw [hlog] <;> simp
  have hphase : Phase l (x.thread l).log (x.thread l).returned
      ((s.resume t x next rest).stack (.loop l)) := by
    by_cases hl : t = .loop l
    · subst hl
      rw [Config.resume_stack_self]
      have hp := h.phase
      rw [ht] at hp
      exact hp.aside hf hrun.pushes hleft
    · rw [Config.resume_stack_of_ne s (Ne.symm hl), hrun.returned]
      rcases hrun.log l with hlog | ⟨hq, hlog, -⟩ <;> rw [hlog]
      · exact h.phase
      · exact h.phase.asked (hlate hq)
  refine ⟨hphase, fun ha hl => ?_, ?_, fun ha hpoll => ?_⟩
  · rcases hrun.log l with hlog | ⟨-, -, hquit, -⟩
    · rw [Config.resume_shared, hlog] at ha hl
      exact hrun.stays l (h.stays ha hl)
    · exact hquit
  · rw [Config.resume_shared]
    rcases hrun.log l with hlog | ⟨-, hlog, -⟩ <;> rw [hlog]
    · exact h.last
    · rw [List.pairwise_append]
      exact ⟨h.last, List.pairwise_singleton .., by simp⟩
  · have hold : t ≠ .loop l ∧ .inner (.poll l) ∈ s.stack (.loop l) := by
      have hne : t ≠ .loop l := by
        rintro rfl
        rw [Config.resume_stack_self] at hpoll
        rcases List.mem_append.mp hpoll with hpoll | hpoll
        · cases hrun.pushes _ hpoll
        · have htop := h.phase.poll_mem (by rw [ht]; exact List.mem_cons_of_mem _ hpoll)
          rw [ht, List.cons.injEq] at htop
          rw [htop.1] at hf
          cases hf
      rw [Config.resume_stack_of_ne s (Ne.symm hne)] at hpoll
      exact ⟨hne, hpoll⟩
    rcases hrun.log l with hlog | ⟨-, -, -, hwake⟩
    · rw [Config.resume_shared, hlog] at ha
      rcases h.woken ha hold.2 with hb | hu
      · exact .inl (Nat.lt_of_lt_of_le hb (hrun.bytes l))
      · by_cases hw : f = .inner (.wakeup l)
        · exact .inl (hrun.sent l hw)
        · exact .inr (wakeup_stays ht hw hu)
    · refine .inr ⟨t, ?_⟩
      rw [Config.resume_stack_self, hwake hold.1]
      rfl

/-! ### A loop's own frames -/

/-- The loop a frame is a piece of. -/
def home : LoopFrame A → Option LoopId
  | .threadFunc l | .publish l | .notifyOne l | .callLoop l | .exit l => some l
  | .inner (.loop l) | .inner (.clearQuit l) | .inner (.whileNotQuit l) | .inner (.poll l)
  | .inner (.handleWakeup l) | .inner (.doPendingFunctors l) => some l
  | _ => none

/-- A loop's thread runs its own loop. -/
theorem Phase.home_eq {log : List QuitEvent} {r : Bool} (h : Phase l log r (f :: rest))
    (hf : LoopThreads.aside f = false) : home f = some l := by
  generalize hfs : f :: rest = fs at h
  cases h with
  | before h =>
      subst hfs
      simp only [List.mem_cons, List.not_mem_nil, or_false, List.cons.injEq] at h
      rcases h with ⟨rfl, _⟩ | ⟨rfl, _⟩ | ⟨rfl, _⟩ | ⟨rfl, _⟩ | ⟨rfl, _⟩ | ⟨rfl, _⟩ <;> rfl
  | @iterating gs hgs =>
      cases gs with
      | nil =>
          cases hfs
          rfl
      | cons g gs =>
          cases hfs
          rcases hgs f List.mem_cons_self with hg | rfl | rfl
          · rw [hf] at hg
            cases hg
          · rfl
          · rfl
  | polling | leaving =>
      cases hfs
      rfl
  | returned => cases hfs

/-- Other loops do not notice. -/
theorem Own.elsewhere (h : Own P t s.shared f x next) (hf : home f = some l) {k : LoopId}
    (hk : k ≠ l) :
    x.thread k = s.shared.thread k ∧ x.reactor.loop k = s.shared.reactor.loop k := by
  cases h with
  | threadFunc | notifyNone | callLoop => exact ⟨rfl, rfl⟩
  | publish | notify | exit =>
      cases hf
      exact ⟨setThread_thread_of_ne _ hk _, rfl⟩
  | inner hr =>
      have hthread : ∀ e, ((s.shared.record (some (l, e))).thread k) = s.shared.thread k :=
        fun e => setThread_thread_of_ne _ hk _
      cases hr with
      | loop | handleWakeup | doPendingFunctors =>
          cases hf
          exact ⟨rfl, Reactor.setLoop_loop_of_ne _ hk _⟩
      | clearQuit | leave =>
          cases hf
          exact ⟨hthread _, Reactor.setLoop_loop_of_ne _ hk _⟩
      | iterate =>
          cases hf
          exact ⟨hthread _, rfl⟩
      | polling | polled => exact ⟨rfl, rfl⟩
      | _ => cases hf

/-- The history is only added to. -/
theorem Own.log (h : Own P t s.shared f x next) (k : LoopId) (e : QuitEvent)
    (he : e ∈ (s.shared.thread k).log) : e ∈ (x.thread k).log := by
  cases h with
  | threadFunc | notifyNone | callLoop => exact he
  | publish | notify | exit =>
      rw [setThread_log]
      · exact he
      · rfl
  | @inner f =>
      change e ∈ ((s.shared.record (quitEvent s.shared.reactor f)).thread k).log
      cases hq : quitEvent s.shared.reactor f with
      | none => exact he
      | some p =>
          by_cases hp : p.1 = k
          · subst hp
            rw [show some p = some (p.1, p.2) from rfl, record_log_self]
            exact List.mem_append_left _ he
          · rw [record_log_of_ne]
            · exact he
            · intro q hq'
              cases hq'
              exact hp

/-- The steps of another loop's thread. -/
theorem Good.other (h : Good s l) (ht : s.stack t = f :: rest) (hne : t ≠ .loop l)
    (hthread : x.thread l = s.shared.thread l)
    (hloop : x.reactor.loop l = s.shared.reactor.loop l) (hf : f ≠ .inner (.wakeup l)) :
    Good (s.resume t x next rest) l := by
  have hstack := Config.resume_stack_of_ne s (Ne.symm hne) x next rest
  refine ⟨?_, ?_, ?_, fun ha hpoll => ?_⟩
  · rw [Config.resume_shared, hthread, hstack]
    exact h.phase
  · rw [Config.resume_shared, hthread, hloop]
    exact h.stays
  · rw [Config.resume_shared, hthread]
    exact h.last
  · rw [Config.resume_shared, hthread] at ha
    rw [hstack] at hpoll
    rw [Config.resume_shared, hloop]
    exact (h.woken ha hpoll).imp_right (wakeup_stays ht hf)

theorem Good.fresh (hphase : Phase l (s.shared.thread l).log (s.shared.thread l).returned
      (s.stack (.loop l)))
    (hlog : (s.shared.thread l).log = [] ∨ (s.shared.thread l).log = [.cleared]) : Good s l := by
  refine ⟨hphase, fun ha => ?_, ?_, fun ha => ?_⟩
  · rcases hlog with hlog | hlog <;> rw [hlog] at ha <;> simp at ha
  · rcases hlog with hlog | hlog <;> rw [hlog] <;> simp
  · rcases hlog with hlog | hlog <;> rw [hlog] at ha <;> simp at ha

/-- The steps of an iteration that are not `poll`. -/
theorem Good.within (h : Good s l) (gs : List (LoopFrame A)) (hgs : ∀ g ∈ gs, Within l g)
    (hleft : .left ∉ (s.shared.thread l).log)
    (hlog : (x.thread l).log = (s.shared.thread l).log)
    (hquit : (x.reactor.loop l).quit_ = (s.shared.reactor.loop l).quit_)
    (hnext : next ++ rest = gs ++ [.inner (.whileNotQuit l), .exit l]) :
    Good (s.resume (.loop l) x next rest) l := by
  have hphase : Phase l (x.thread l).log (x.thread l).returned
      ((s.resume (.loop l) x next rest).stack (.loop l)) := by
    rw [Config.resume_stack_self, hlog, hnext]
    exact .iterating hgs hleft
  refine ⟨hphase, ?_, ?_, fun _ hpoll => ?_⟩
  · rw [Config.resume_shared, hlog, hquit]
    exact h.stays
  · rw [Config.resume_shared, hlog]
    exact h.last
  · have htop := hphase.poll_mem hpoll
    rw [Config.resume_stack_self, hnext] at htop
    cases gs with
    | nil => cases htop
    | cons g gs =>
        rw [List.cons_append, List.cons.injEq] at htop
        have := hgs g List.mem_cons_self
        rw [htop.1] at this
        rcases this with h | h | h <;> cases h

/-- Before the loop is entered, the thread has its next frame. -/
theorem good_before
    (hbefore : f :: rest ∈ [[.threadFunc l], [.publish l],
      [.notifyOne l, .callLoop l, .exit l], [.callLoop l, .exit l],
      [.inner (.loop l), .exit l], [.inner (.clearQuit l), .exit l]])
    (hlog : (s.shared.thread l).log = []) (hrun : Own P (.loop l) s.shared f x next) :
    Good (s.resume (.loop l) x next rest) l := by
  simp only [List.mem_cons, List.not_mem_nil, or_false, List.cons.injEq] at hbefore
  rcases hbefore with ⟨rfl, rfl⟩ | ⟨rfl, rfl⟩ | ⟨rfl, rfl⟩ | ⟨rfl, rfl⟩ | ⟨rfl, rfl⟩ | ⟨rfl, rfl⟩
  · cases hrun
    refine Good.fresh ?_ (.inl hlog)
    rw [Config.resume_stack_self]
    exact .before (by simp) hlog
  · cases hrun
    have hlog' := (setThread_log (s := s.shared) (e := { s.shared.thread l with loop_ := true }) rfl
      l).trans hlog
    refine Good.fresh ?_ (.inl hlog')
    rw [Config.resume_stack_self]
    exact .before (by simp) hlog'
  · have hlog' : (x.thread l).log = [] := by
      cases hrun with
      | notifyNone => exact hlog
      | notify =>
          rw [setThread_thread_self]
          exact hlog
    have hnext : next = [] := by cases hrun <;> rfl
    subst hnext
    refine Good.fresh ?_ (.inl hlog')
    rw [Config.resume_stack_self]
    exact .before (by simp) hlog'
  · cases hrun
    refine Good.fresh ?_ (.inl hlog)
    rw [Config.resume_stack_self]
    exact .before (by simp) hlog
  · cases hrun with
    | inner hr =>
        cases hr
        refine Good.fresh ?_ (.inl hlog)
        rw [Config.resume_stack_self]
        exact .before (by simp) hlog
  · cases hrun with
    | inner hr =>
        cases hr
        have hlog' : ((s.shared.record (some (l, .cleared))).thread l).log = [.cleared] := by
          rw [record_log_self, hlog]
          rfl
        refine Good.fresh ?_ (.inr hlog')
        rw [Config.resume_stack_self]
        change Phase l _ _ ([] ++ [.inner (.whileNotQuit l), .exit l])
        refine .iterating (by simp) ?_
        change .left ∉ ((s.shared.record (some (l, .cleared))).thread l).log
        rw [hlog']
        simp

/-- The test of `quit_` ends the loop. -/
theorem Good.leave (h : Good s l)
    (hlog : (x.thread l).log = (s.shared.thread l).log ++ [.left]) :
    Good (s.resume (.loop l) x [] [.exit l]) l := by
  refine ⟨?_, fun _ hl => ?_, ?_, fun _ hpoll => ?_⟩
  · rw [Config.resume_stack_self]
    refine .leaving ?_
    rw [Config.resume_shared, hlog]
    simp
  · rw [Config.resume_shared, hlog] at hl
    simp at hl
  · rw [Config.resume_shared, hlog, List.pairwise_append]
    exact ⟨h.last, List.pairwise_singleton .., by simp⟩
  · rw [Config.resume_stack_self] at hpoll
    simp at hpoll

/-- It lets the loop go on, because nothing was asked. -/
theorem Good.iterate (h : Good s l) (hleft : .left ∉ (s.shared.thread l).log)
    (hnone : .asked ∉ (s.shared.thread l).log)
    (hlog : (x.thread l).log = (s.shared.thread l).log ++ [.iterate]) :
    Good (s.resume (.loop l) x [.inner (.poll l)] [.exit l]) l := by
  have hnone' : .asked ∉ (s.shared.thread l).log ++ [QuitEvent.iterate] := by simpa using hnone
  refine ⟨?_, fun ha => ?_, ?_, fun ha => ?_⟩
  · rw [Config.resume_stack_self]
    refine .polling ?_
    rw [Config.resume_shared, hlog]
    simpa using hleft
  · rw [Config.resume_shared, hlog] at ha
    exact absurd ha hnone'
  · rw [Config.resume_shared, hlog, List.pairwise_append]
    refine ⟨h.last, List.pairwise_singleton .., fun a ha b _ he => ?_⟩
    exact absurd (he ▸ ha) hnone
  · rw [Config.resume_shared, hlog] at ha
    exact absurd ha hnone'

theorem Good.own (h : Good s l) (ht : s.stack (.loop l) = f :: rest)
    (hf : LoopThreads.aside f = false)
    (hrun : Own P (.loop l) s.shared f x next) :
    Good (s.resume (.loop l) x next rest) l := by
  have hphase := h.phase
  rw [ht] at hphase
  generalize hfs : f :: rest = fs at hphase
  cases hphase with
  | before hbefore hlog => exact good_before (hfs ▸ hbefore) hlog hrun
  | @iterating gs hgs hleft =>
      cases gs with
      | cons g gs =>
          cases hfs
          have hgs' : ∀ g ∈ gs, Within l g := fun g hg => hgs g (List.mem_cons_of_mem _ hg)
          rcases hgs f List.mem_cons_self with hg | rfl | rfl
          · rw [hf] at hg
            cases hg
          · cases hrun with
            | inner hr =>
                cases hr
                exact h.within gs hgs' hleft rfl (by simp) rfl
          · cases hrun with
            | inner hr =>
                cases hr
                refine h.within (_ ++ gs) (fun g hg => ?_) hleft rfl (by simp)
                  (List.append_assoc ..).symm
                rcases List.mem_append.mp hg with hg | hg
                · obtain ⟨b, hb, rfl⟩ := List.mem_map.mp hg
                  obtain ⟨q, _, rfl⟩ := List.mem_map.mp hb
                  exact .inl rfl
                · exact hgs' g hg
      | nil =>
          cases hfs
          cases hrun with
          | inner hr =>
              cases hr with
              | leave hq =>
                  refine h.leave ?_
                  change ((s.shared.record (quitEvent s.shared.reactor
                    (.whileNotQuit l : Frame A))).thread l).log = _
                  rw [quitEvent, record_log_self, if_pos hq]
              | iterate hq =>
                  -- A request that stands would have been seen.
                  have hnone : .asked ∉ (s.shared.thread l).log := fun ha => by
                    rw [h.stays ha hleft] at hq
                    cases hq
                  refine h.iterate hleft hnone ?_
                  change ((s.shared.record (quitEvent s.shared.reactor
                    (.whileNotQuit l : Frame A))).thread l).log = _
                  rw [quitEvent, record_log_self, if_neg (by simp [hq])]
  | polling hleft =>
      cases hfs
      cases hrun with
      | inner hr =>
          cases hr with
          | polling =>
              refine ⟨?_, h.stays, h.last, fun ha _ => ?_⟩
              · rw [Config.resume_stack_self]
                exact .polling hleft
              · have hpoll : .inner (.poll l) ∈ s.stack (.loop l) := by
                  rw [ht]
                  exact List.mem_cons_self
                exact (h.woken ha hpoll).imp_right (wakeup_stays ht (by simp))
          | @polled _ c y handlers place hy =>
              obtain ⟨gs, hiter, hgs⟩ :=
                iteration_eq (s.shared.reactor.loop l) l handlers place
              refine h.within (gs.map .inner) (fun g hg => ?_) hleft rfl rfl
                (by rw [hiter]; simp)
              obtain ⟨b, hb, rfl⟩ := List.mem_map.mp hg
              rcases hgs b hb with ⟨a, rfl⟩ | rfl | rfl
              · exact .inl rfl
              · exact .inr (.inl rfl)
              · exact .inr (.inr rfl)
  | leaving hleft =>
      cases hfs
      cases hrun
      refine ⟨?_, ?_, ?_, fun _ hpoll => ?_⟩
      · rw [Config.resume_stack_self]
        refine .returned ?_
        rw [Config.resume_shared, setThread_thread_self]
      · rw [Config.resume_shared, setThread_thread_self]
        exact h.stays
      · rw [Config.resume_shared, setThread_thread_self]
        exact h.last
      · rw [Config.resume_stack_self] at hpoll
        simp at hpoll
  | returned => cases hfs

/-! ### Runs -/

theorem Inv.step {c : LoopChoice A Ch} (h : Inv s) (hc : AskedLate s (t, c))
    (hs : (code P).step s (t, c) = some s') : Inv s' := by
  obtain ⟨f, rest, x, next, ht, hx, rfl⟩ := Code.step_eq_some.mp hs
  have hx : exec P t f c s.shared = some (x, next) := hx
  have htop : f ∈ s.stack t := by
    rw [ht]
    exact List.mem_cons_self
  have hcargo : ∀ g, f = .inner g → Reactor.cargo g = true := fun g hg => h.cargo t g (hg ▸ htop)
  obtain ⟨hplain, hnext⟩ := exec_plain hx h.plain hcargo
  have hlate : ∀ l, f = .inner (.quit l) → .cleared ∈ (s.shared.thread l).log := by
    rintro l rfl
    simpa [AskedLate, ht] using hc
  -- What the step is to the invariant depends on whether the frame is user code.
  have hrun : (aside f = true ∧ Aside t f s.shared x next) ∨
      ∃ l, t = .loop l ∧ aside f = false ∧ home f = some l ∧ Own P (.loop l) s.shared f x next := by
    cases hf : aside f with
    | true => exact .inl ⟨rfl, exec_aside hx hf hcargo⟩
    | false =>
        cases t with
        | user n =>
            rw [h.others n f htop] at hf
            cases hf
        | loop l =>
            have hphase := (h.good l).phase
            rw [ht] at hphase
            exact .inr ⟨l, rfl, rfl, hphase.home_eq hf, exec_own hx hf⟩
  have hlog : ∀ l, .asked ∈ (s.shared.thread l).log → .asked ∈ (x.thread l).log := by
    intro l ha
    rcases hrun with ⟨-, hr⟩ | ⟨_, _, _, _, hr⟩
    · rcases hr.log l with hl | ⟨-, hl, -⟩ <;> rw [hl]
      · exact ha
      · exact List.mem_append_left _ ha
    · exact hr.log l _ ha
  refine ⟨hplain, fun u g hg => ?_, fun n g hg => ?_, fun l => ?_, fun u l pre below hu => ?_⟩
  · rcases Config.mem_of_mem_resume ht hg with ⟨_, hnew⟩ | hold
    · exact hnext g hnew
    · exact h.cargo u g hold
  · rcases Config.mem_of_mem_resume ht hg with ⟨rfl, hnew⟩ | hold
    · rcases hrun with ⟨_, hr⟩ | ⟨l, hl, _⟩
      · exact hr.pushes g hnew
      · cases hl
    · exact h.others n g hold
  · rcases hrun with ⟨hf, hr⟩ | ⟨k, rfl, hf, hhome, hr⟩
    · exact (h.good l).aside ht hf (hlate l) hr
    · by_cases hl : l = k
      · subst hl
        exact (h.good l).own ht hf hr
      · obtain ⟨hthread, hloop⟩ := hr.elsewhere hhome hl
        refine (h.good l).other ht (by simpa using Ne.symm hl) hthread hloop ?_
        rintro rfl
        cases hhome
  · by_cases hut : u = t
    · subst hut
      rw [Config.resume_stack_self] at hu
      have hbelow : ∀ pre', pre = next ++ pre' → rest = pre' ++ .join l :: below →
          .asked ∈ (x.thread l).log ∨ .inner (.quit l) ∈ pre := by
        rintro pre' rfl hrest
        rcases h.joins u l (f :: pre') below (by rw [ht, hrest]; rfl) with ha | hm
        · exact .inl (hlog l ha)
        · rcases List.mem_cons.mp hm with hq | hm
          · rcases hrun with ⟨_, hr⟩ | ⟨_, _, _, hhome, _⟩
            · exact .inl (hr.asks l hq.symm)
            · rw [← hq] at hhome
              cases hhome
          · exact .inr (List.mem_append_right _ hm)
      rcases List.append_eq_append_iff.mp hu with ⟨pre', hpre, hrest⟩ | ⟨mid, hnew, hmid⟩
      · exact hbelow pre' hpre hrest
      · cases mid with
        | nil => exact hbelow [] (by simp [hnew]) (by rw [List.nil_append]; exact hmid.symm)
        | cons g mid =>
            cases hmid
            exact .inr (exec_joins hx hnew)
    · rw [Config.resume_stack_of_ne s hut] at hu
      exact (h.joins u l pre below hu).imp_left (hlog l)

theorem inv_start (x : S) : Inv (start (A := A) x) := by
  refine ⟨fun l p hp => (by cases hp), fun t f hf => ?_, fun n f hf => ?_, fun l => ?_,
    fun t l pre below hu => ?_⟩
  · cases t with
    | loop l => cases List.mem_singleton.mp hf
    | user n =>
        cases List.mem_singleton.mp hf
        rfl
  · rw [List.mem_singleton.mp hf]
    rfl
  · exact .fresh (.before (by simp [start]) rfl) (.inl rfl)
  · have hmem : .join l ∈ (start (A := A) x).stack t := by
      rw [hu]
      simp
    cases t <;> cases List.mem_singleton.mp hmem

theorem inv_run {x : S} (h : (lts P x).ReachIf AskedLate s) : Inv s :=
  Lts.ReachIf.inv (fun s hs => by rw [show s = start x from hs]; exact inv_start x)
    (fun _ _ _ hI hc hs => hI.step hc hs) h

end Step

/-- Along every run whose requests to quit come after `loop()` cleared `quit_`,
they stand until the loop is left. -/
theorem quit_kept {s : State A S} {x : S} (h : (lts P x).ReachIf AskedLate s) (l : LoopId) :
    QuitKept s l := by
  have hinv := inv_run h
  have hgood := hinv.good l
  refine ⟨hgood.stays, hgood.last, fun t ht => ?_⟩
  obtain ⟨rest, hstack⟩ := List.head?_eq_some_iff.mp ht
  have hasked : .asked ∈ (s.shared.thread l).log := by
    rcases hinv.joins t l [] rest hstack with ha | hm
    · exact ha
    · cases hm
  by_cases hleft : .left ∈ (s.shared.thread l).log
  · have hphase := hgood.phase
    generalize hfs : s.stack (.loop l) = fs at hphase
    cases hphase with
    | before _ hlog =>
        rw [hlog] at hleft
        cases hleft
    | iterating _ hno | polling hno => exact absurd hleft hno
    | leaving => exact .inr (.inl hfs)
    | returned hr => exact .inl hr
  · refine .inr (.inr ⟨hgood.stays hasked hleft, fun hpoll => ?_⟩)
    exact hgood.woken hasked (List.mem_of_head? hpoll)

/-- Thread 0 starts loop 0 and stops it when it waits in `poll`. -/
theorem quit_kept_stopped :
    ∃ s : State Empty Unit, .asked ∈ (s.shared.thread 0).log ∧
      (s.shared.reactor.loop 0).quit_ = true ∧ QuitKept s 0 := by
  obtain ⟨s, hs, hp⟩ := Lts.exists_reachIf (lts Reactor.idle ()) AskedLate
    [(.user 0, .startLoop 0), (.loop 0, .go), (.loop 0, .go), (.loop 0, .wake none),
      (.loop 0, .go), (.loop 0, .inner .go), (.loop 0, .inner .go), (.loop 0, .inner .go),
      (.user 0, .go), (.user 0, .stop 0), (.user 0, .inner .go)]
    (fun s => decide ((s.shared.thread 0).log = [.cleared, .iterate, .asked])) rfl
    (by decide +kernel)
  have hlog := of_decide_eq_true hp
  have hkept := quit_kept hs 0
  exact ⟨s, by simp [hlog], hkept.stays (by simp [hlog]) (by simp [hlog]), hkept⟩

/-- Thread 0 stops loop 0 before `loop()` clears `quit_`. -/
theorem early_quit_lost :
    ¬ ∀ (s : State Empty Unit) (l : LoopId), (lts Reactor.idle ()).Reach s → QuitKept s l := by
  intro h
  obtain ⟨s, hs, hp⟩ := Lts.exists_reach (lts Reactor.idle ())
    [(.user 0, .startLoop 0), (.loop 0, .go), (.loop 0, .go), (.user 0, .go), (.user 0, .stop 0),
      (.user 0, .inner .go), (.user 0, .inner (.moved 8)), (.loop 0, .wake none), (.loop 0, .go),
      (.loop 0, .inner .go), (.loop 0, .inner .go), (.loop 0, .inner .go)]
    (fun s => decide ((s.shared.thread 0).log = [.asked, .cleared, .iterate])) rfl
    (by decide +kernel)
  have hlast := (h s 0 hs).last
  rw [of_decide_eq_true hp] at hlast
  simp at hlast

end Muduox.Net.LoopThreads
