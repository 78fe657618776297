import Muduox.Net.ThreadPool

/-!
# Tasks are handed over, and nobody sleeps over them

The queue is touched under the lock only (`Safe.owner`), so what was pushed is
what was popped and then what is queued. A worker that is about to block has
seen the queue empty and `stop_` unset, and that is still so when it blocks
(`Safe.empty`): whoever changes either needs the lock first, and notifies after.
Hence a task is queued, or `stop_` set, over blocked workers only between a
critical section and its notification (`Safe.woken`, `Safe.stopped`).
-/

namespace Muduox.Net

namespace BlockQueue

open Threads

variable {T : Type}

/-- What a frame that waits for the lock goes on with. -/
def locks : PoolFrame T → Option (PoolFrame T)
  | .insert x => some (.emplace x)
  | .pop | .blocked => some .test
  | .stop => some .setStop
  | _ => none

/-- Code of the user's. -/
def isUser : PoolFrame T → Bool
  | .user | .task _ => true
  | _ => false

/-- Frame by frame, what thread `t` does to the queue `s`. -/
inductive Runs (t : PoolThread) (s : BlockQueue T) :
    PoolFrame T → BlockQueue T → List (PoolFrame T) → Prop
  | ret {f : PoolFrame T} (hf : isUser f = true) : Runs t s f s []
  | callPush {f : PoolFrame T} {x : T} (hf : isUser f = true) : Runs t s f s [.insert x, f]
  | callStop {f : PoolFrame T} (hf : isUser f = true) : Runs t s f s [.stop, f]
  | work : Runs t s .work s [.pop]
  | lock {f g : PoolFrame T} (hg : locks f = some g) (hm : s.mutex_ = none)
      (hw : f = .blocked → t ∉ s.waiting) : Runs t s f { s with mutex_ := some t } [g]
  | emplace {x : T} :
      Runs t s (.emplace x) { s with queue_ := s.queue_ ++ [x], log := s.log ++ [.pushed x] }
        [.unlock, .notifyOne]
  | unlock : Runs t s .unlock { s with mutex_ := none } []
  | notifyNobody (hw : s.waiting = []) : Runs t s .notifyOne s []
  | notifyOne {w : PoolThread} (hw : w ∈ s.waiting) : Runs t s .notifyOne (s.wake w) []
  | ready : Runs t s .test s [.take]
  | unready (hq : s.queue_ = []) (hs : s.stop_ = false) : Runs t s .test s [.wait]
  | wait : Runs t s .wait { s with mutex_ := none, waiting := t :: s.waiting } [.blocked]
  | spurious (hw : t ∈ s.waiting) : Runs t s .blocked (s.wake t) [.blocked]
  | take {x : T} {rest : List T} (hq : s.queue_ = x :: rest) (hs : s.stop_ = false) :
      Runs t s .take { s with queue_ := rest, log := s.log ++ [.popped t x] }
        [.unlock, .task x, .work]
  | refuse : Runs t s .take { s with log := s.log ++ [.refused t] } [.unlock]
  | setStop :
      Runs t s .setStop { s with stop_ := true, log := s.log ++ [.stopped] }
        [.unlock, .notifyAll]
  | notifyAll : Runs t s .notifyAll { s with waiting := [] } []

theorem lock_eq {s s' : BlockQueue T} {t : PoolThread} {g : PoolFrame T}
    {next : List (PoolFrame T)} (h : s.lock t [g] = some (s', next)) :
    s.mutex_ = none ∧ s' = { s with mutex_ := some t } ∧ next = [g] := by
  unfold lock at h
  split at h
  · next hm => cases h; exact ⟨hm, rfl, rfl⟩
  · cases h

theorem exec_runs {t : PoolThread} {f : PoolFrame T} {c : PoolChoice T} {s s' : BlockQueue T}
    {next : List (PoolFrame T)} (h : exec t f c s = some (s', next)) : Runs t s f s' next := by
  unfold exec at h
  split at h
  case h_1 | h_4 => cases h; exact .ret rfl
  case h_2 | h_5 => cases h; exact .callPush rfl
  case h_3 | h_6 => cases h; exact .callStop rfl
  case h_7 => cases h; exact .work
  case h_8 | h_13 | h_19 =>
    obtain ⟨hm, rfl, rfl⟩ := lock_eq h
    exact .lock rfl hm (by simp)
  case h_9 x => cases h; exact .emplace
  case h_10 => cases h; exact .unlock
  case h_11 =>
    split at h
    · next hw => cases h; exact .notifyNobody hw
    · cases h
  case h_12 w =>
    split at h
    · next hw => cases h; exact .notifyOne hw
    · cases h
  case h_14 =>
    cases h
    split
    · exact .ready
    · next hno =>
        rw [Bool.or_eq_true, not_or, Bool.not_eq_true', Bool.not_eq_false, Bool.not_eq_true] at hno
        exact .unready (List.isEmpty_iff.mp hno.1) hno.2
  case h_15 => cases h; exact .wait
  case h_16 =>
    split at h
    · cases h
    · next hw =>
        obtain ⟨hm, rfl, rfl⟩ := lock_eq h
        exact .lock rfl hm fun _ => hw
  case h_17 =>
    split at h
    · next hw => cases h; exact .spurious hw
    · cases h
  case h_18 =>
    split at h
    · next x rest hq hs => cases h; exact .take hq hs
    · cases h; exact .refuse
  case h_20 => cases h; exact .setStop
  case h_21 => cases h; exact .notifyAll
  case h_22 => cases h

/-- A step of the pool: the thread's top frame ran. -/
theorem step_runs {s s' : Config PoolThread (PoolFrame T) (BlockQueue T)} {t : PoolThread}
    {c : PoolChoice T} (h : code.step s (t, c) = some s') :
    ∃ f rest x next, s.stack t = f :: rest ∧ Runs t s.shared f x next ∧
      s' = s.resume t x next rest := by
  obtain ⟨f, rest, x, next, ht, hx, hs'⟩ := Code.step_eq_some.mp h
  exact ⟨f, rest, x, next, ht, exec_runs hx, hs'⟩

/-! ## Who holds the lock -/

/-- The frames that run under the lock. -/
def critical : PoolFrame T → Bool
  | .emplace _ | .test | .wait | .take | .setStop | .unlock => true
  | _ => false

/-- The frames of `pop` and of the loop that calls it. -/
def popping : PoolFrame T → Bool
  | .work | .pop | .test | .wait | .blocked | .take => true
  | _ => false

theorem not_critical_of_isUser {f : PoolFrame T} (h : isUser f = true) : critical f = false := by
  cases f <;> first | rfl | cases h

theorem critical_of_locks {f g : PoolFrame T} (h : locks f = some g) :
    critical f = false ∧ critical g = true ∧ (popping g = true → popping f = true) ∧
      g ≠ .wait := by
  cases f <;> cases h <;> simp [critical, popping]

section Step

variable {s : BlockQueue T} {t : PoolThread} {f : PoolFrame T} {x : BlockQueue T}
  {next : List (PoolFrame T)}

/-- How the lock changes hands. -/
theorem runs_mutex (h : Runs t s f x next) :
    (∀ g ∈ next.tail, critical g = false) ∧
      ((s.mutex_ = none ∧ x.mutex_ = some t ∧ critical f = false) ∨
        (critical f = true ∧ x.mutex_ = none ∧ ∀ g ∈ next, critical g = false) ∨
        (x.mutex_ = s.mutex_ ∧ ∀ g ∈ next, critical g = true → critical f = true)) := by
  cases h with
  | ret hf => simp
  | callPush hf | callStop hf =>
      have hf' := not_critical_of_isUser hf
      refine ⟨by simpa using hf', .inr (.inr ⟨rfl, fun g hg hc => ?_⟩)⟩
      simp only [List.mem_cons, List.not_mem_nil, or_false] at hg
      rcases hg with rfl | rfl
      · cases hc
      · exact hc
  | lock hg hm => exact ⟨by simp, .inl ⟨hm, rfl, (critical_of_locks hg).1⟩⟩
  | _ => simp [critical, wake]

/-- Only those who pop go on popping. -/
theorem runs_popping (h : Runs t s f x next) :
    ∀ g ∈ next, popping g = true → popping f = true := by
  cases h with
  | callPush hf | callStop hf => simp [popping]
  | lock hg => simpa using (critical_of_locks hg).2.2.1
  | _ => simp [popping]

end Step

/-! ## Along a run -/

/-- Some thread is between its critical section and its `notify`. -/
def Notifying (s : Config PoolThread (PoolFrame T) (BlockQueue T)) : Prop :=
  ∃ t, .notifyOne ∈ s.stack t ∨ .notifyAll ∈ s.stack t

/-- The control of a pool of `n` workers. -/
structure Safe (n : Nat) (s : Config PoolThread (PoolFrame T) (BlockQueue T)) : Prop where
  tail : ∀ t, ∀ f ∈ (s.stack t).tail, critical f = false
  owner : ∀ t, ∀ f ∈ s.stack t, critical f = true → s.shared.mutex_ = some t
  popping : ∀ t, ∀ f ∈ s.stack t, popping f = true → ∃ i < n, t = .worker i
  waiting : ∀ t ∈ s.shared.waiting, ∃ i < n, t = .worker i
  empty : ∀ t, .wait ∈ s.stack t → s.shared.queue_ = [] ∧ s.shared.stop_ = false
  woken : s.shared.queue_ ≠ [] → (∀ i < n, .worker i ∈ s.shared.waiting) → Notifying s
  stopped : s.shared.stop_ = true → ∀ w ∈ s.shared.waiting, ∃ t, .notifyAll ∈ s.stack t

section Run

variable {n : Nat} {s s' : Config PoolThread (PoolFrame T) (BlockQueue T)} {t : PoolThread}
  {f : PoolFrame T} {x : BlockQueue T} {next rest : List (PoolFrame T)}

/-- While a thread holds the lock nobody else is in a critical section. -/
theorem Safe.alone (h : Safe n s) (ht : s.stack t = f :: rest) (hf : critical f = true)
    {u : PoolThread} {g : PoolFrame T} (hg : g ∈ s.stack u) (hgc : critical g = true) :
    u = t ∧ g = f := by
  have hmt := h.owner t f (by rw [ht]; exact List.mem_cons_self) hf
  obtain rfl : t = u := Option.some.inj (hmt.symm.trans (h.owner u g hg hgc))
  refine ⟨rfl, ?_⟩
  rw [ht] at hg
  refine (List.mem_cons.mp hg).resolve_right fun hrest => ?_
  have := h.tail t g (by rw [ht]; exact hrest)
  rw [hgc] at this
  cases this

theorem safe_tail (h : Safe n s) (ht : s.stack t = f :: rest) (hr : Runs t s.shared f x next) :
    ∀ u, ∀ g ∈ ((s.resume t x next rest).stack u).tail, critical g = false := by
  have hrest : ∀ g ∈ rest, critical g = false := by
    have := h.tail t
    rwa [ht] at this
  intro u g hg
  by_cases hu : u = t
  · subst hu
    rw [Config.resume_stack_self] at hg
    cases next with
    | nil => exact hrest g (List.mem_of_mem_tail hg)
    | cons g' next =>
        rcases List.mem_append.mp (show g ∈ next ++ rest from hg) with hg | hg
        · exact (runs_mutex hr).1 g hg
        · exact hrest g hg
  · rw [Config.resume_stack_of_ne s hu] at hg
    exact h.tail u g hg

theorem safe_owner (h : Safe n s) (ht : s.stack t = f :: rest) (hr : Runs t s.shared f x next) :
    ∀ u, ∀ g ∈ (s.resume t x next rest).stack u, critical g = true → x.mutex_ = some u := by
  intro u g hg hgc
  have hf : f ∈ s.stack t := by rw [ht]; exact List.mem_cons_self
  -- What was on a stack and is critical is not below the frame that ran.
  have hold : g ∈ s.stack u → s.shared.mutex_ = some u := fun hg => h.owner u g hg hgc
  rcases (runs_mutex hr).2 with ⟨hm, hx, _⟩ | ⟨hfc, _, hn⟩ | ⟨hx, hn⟩
  · rcases Config.mem_of_mem_resume ht hg with ⟨rfl, _⟩ | hg
    · exact hx
    · have := hold hg
      rw [hm] at this
      cases this
  · by_cases hu : u = t
    · subst hu
      rw [Config.resume_stack_self] at hg
      rcases List.mem_append.mp hg with hg | hg
      · rw [hn g hg] at hgc
        cases hgc
      · have := h.tail u g (by rw [ht]; exact hg)
        rw [hgc] at this
        cases this
    · rw [Config.resume_stack_of_ne s hu] at hg
      exact absurd (h.alone ht hfc hg hgc).1 hu
  · rw [hx]
    rcases Config.mem_of_mem_resume ht hg with ⟨rfl, hnew⟩ | hg
    · exact h.owner u f hf (hn g hnew hgc)
    · exact hold hg

theorem safe_popping (h : Safe n s) (ht : s.stack t = f :: rest)
    (hr : Runs t s.shared f x next) :
    ∀ u, ∀ g ∈ (s.resume t x next rest).stack u, popping g = true → ∃ i < n, u = .worker i := by
  intro u g hg hgp
  rcases Config.mem_of_mem_resume ht hg with ⟨rfl, hnew⟩ | hg
  · exact h.popping u f (by rw [ht]; exact List.mem_cons_self) (runs_popping hr g hnew hgp)
  · exact h.popping u g hg hgp

/-- Who waits after a step: only `wait` adds a thread. -/
theorem runs_waiting (hr : Runs t s.shared f x next) {w : PoolThread} (hw : w ∈ x.waiting) :
    w ∈ s.shared.waiting ∨ f = .wait ∧ w = t := by
  cases hr with
  | wait =>
      rcases List.mem_cons.mp hw with rfl | hw
      · exact .inr ⟨rfl, rfl⟩
      · exact .inl hw
  | notifyOne | spurious => exact .inl (List.mem_filter.mp hw).1
  | notifyAll => cases hw
  | _ => exact .inl hw

/-- The queue and `stop_` change under the lock only. -/
theorem runs_queue (hr : Runs t s.shared f x next) :
    (x.queue_ = s.shared.queue_ ∧ x.stop_ = s.shared.stop_) ∨ critical f = true := by
  cases hr with
  | emplace | take | setStop => exact .inr rfl
  | _ => exact .inl ⟨rfl, rfl⟩

theorem safe_empty (h : Safe n s) (ht : s.stack t = f :: rest) (hr : Runs t s.shared f x next) :
    ∀ u, .wait ∈ (s.resume t x next rest).stack u → x.queue_ = [] ∧ x.stop_ = false := by
  intro u hg
  have hold : .wait ∈ s.stack u → x.queue_ = [] ∧ x.stop_ = false := by
    intro hg
    obtain ⟨hq, hs⟩ := h.empty u hg
    rcases runs_queue hr with ⟨hxq, hxs⟩ | hf
    · exact ⟨hxq.trans hq, hxs.trans hs⟩
    · obtain ⟨rfl, rfl⟩ := h.alone ht hf hg rfl
      cases hr with
      | wait => exact ⟨hq, hs⟩
      | ret hu | callPush hu | callStop hu => cases hu
      | lock hl => cases hl
  rcases Config.mem_of_mem_resume ht hg with ⟨rfl, hnew⟩ | hg
  · cases hr with
    | unready hq hs => exact ⟨hq, hs⟩
    | lock hl => exact absurd (List.mem_singleton.mp hnew).symm (critical_of_locks hl).2.2.2
    | callPush hf | callStop hf =>
        simp only [List.mem_cons, List.not_mem_nil, or_false] at hnew
        rcases hnew with he | rfl
        · cases he
        · cases hf
    | _ => simp at hnew
  · exact hold hg

/-- A notification that was due is, unless it was the step. -/
theorem notifyAll_stays (ht : s.stack t = f :: rest) (hf : f ≠ .notifyAll)
    (h : ∃ u, .notifyAll ∈ s.stack u) : ∃ u, .notifyAll ∈ (s.resume t x next rest).stack u := by
  obtain ⟨u, hu⟩ := h
  exact ⟨u, Config.mem_resume ht hu (.inl (Ne.symm hf))⟩

theorem notifying_stays (ht : s.stack t = f :: rest) (hone : f ≠ .notifyOne)
    (hall : f ≠ .notifyAll) (h : Notifying s) : Notifying (s.resume t x next rest) := by
  obtain ⟨u, hu | hu⟩ := h
  · exact ⟨u, .inl (Config.mem_resume ht hu (.inl (Ne.symm hone)))⟩
  · exact ⟨u, .inr (Config.mem_resume ht hu (.inl (Ne.symm hall)))⟩

theorem safe_woken (h : Safe n s) (hn : 0 < n) (ht : s.stack t = f :: rest)
    (hr : Runs t s.shared f x next) (hq : x.queue_ ≠ [])
    (hall : ∀ i < n, .worker i ∈ x.waiting) : Notifying (s.resume t x next rest) := by
  have hself : ∀ g ∈ next, g ∈ (s.resume t x next rest).stack t := by
    intro g hg
    rw [Config.resume_stack_self]
    exact List.mem_append_left _ hg
  -- A worker that was woken does not wait.
  have hwake : ∀ w ∈ s.shared.waiting, ¬ ∀ i < n, .worker i ∈ (s.shared.wake w).waiting := by
    intro w hw hall
    obtain ⟨i, hi, rfl⟩ := h.waiting w hw
    have := (List.mem_filter.mp (hall i hi)).2
    simp at this
  have hold : f ≠ .notifyOne → f ≠ .notifyAll → s.shared.queue_ ≠ [] →
      (∀ i < n, .worker i ∈ s.shared.waiting) → Notifying (s.resume t x next rest) :=
    fun hone hall' hq hall => notifying_stays ht hone hall' (h.woken hq hall)
  cases hr with
  | emplace => exact ⟨t, .inl (hself _ (by simp))⟩
  | setStop => exact ⟨t, .inr (hself _ (by simp))⟩
  | notifyNobody hw =>
      have := hall 0 hn
      rw [hw] at this
      cases this
  | notifyOne hw => exact absurd hall (hwake _ hw)
  | spurious hw => exact absurd hall (hwake _ hw)
  | notifyAll => cases hall 0 hn
  | wait => exact absurd (h.empty t (by rw [ht]; exact List.mem_cons_self)).1 hq
  | take hqx => exact hold (by simp) (by simp) (by rw [hqx]; simp) hall
  | ret hf | callPush hf | callStop hf =>
      exact hold (fun he => by rw [he] at hf; cases hf) (fun he => by rw [he] at hf; cases hf)
        hq hall
  | lock hg =>
      exact hold (fun he => by rw [he] at hg; cases hg) (fun he => by rw [he] at hg; cases hg)
        hq hall
  | _ => exact hold (by simp) (by simp) hq hall

theorem safe_stopped (h : Safe n s) (ht : s.stack t = f :: rest)
    (hr : Runs t s.shared f x next) (hs : x.stop_ = true) :
    ∀ w ∈ x.waiting, ∃ u, .notifyAll ∈ (s.resume t x next rest).stack u := by
  intro w hw
  have hold : f ≠ .notifyAll → s.shared.stop_ = true → w ∈ s.shared.waiting →
      ∃ u, .notifyAll ∈ (s.resume t x next rest).stack u := fun hf hs hw =>
    notifyAll_stays ht hf (h.stopped hs w hw)
  cases hr with
  | setStop => exact ⟨t, by rw [Config.resume_stack_self]; simp⟩
  | notifyAll => cases hw
  | wait =>
      have := (h.empty t (by rw [ht]; exact List.mem_cons_self)).2
      rw [show s.shared.stop_ = true from hs] at this
      cases this
  | notifyOne | spurious => exact hold (by simp) hs (List.mem_filter.mp hw).1
  | ret hf | callPush hf | callStop hf =>
      exact hold (fun he => by rw [he] at hf; cases hf) hs hw
  | lock hg => exact hold (fun he => by rw [he] at hg; cases hg) hs hw
  | _ => exact hold (by simp) hs hw

theorem Safe.step (h : Safe n s) (hn : 0 < n) {c : PoolChoice T}
    (hs : code.step s (t, c) = some s') : Safe n s' := by
  obtain ⟨f, rest, x, next, ht, hr, rfl⟩ := step_runs hs
  refine ⟨safe_tail h ht hr, safe_owner h ht hr, safe_popping h ht hr, fun w hw => ?_,
    safe_empty h ht hr, safe_woken h hn ht hr, safe_stopped h ht hr⟩
  rcases runs_waiting hr hw with hw | ⟨rfl, rfl⟩
  · exact h.waiting w hw
  · exact h.popping w .wait (by rw [ht]; exact List.mem_cons_self) rfl

end Run

/-! ## What is handed over -/

/-- The tasks pushed, in the order of the lock. -/
def pushed (log : List (PoolEvent T)) : List T :=
  log.filterMap fun | .pushed x => some x | _ => none

/-- The tasks that were returned by a call of `pop`, one call each. -/
def popped (log : List (PoolEvent T)) : List T :=
  log.filterMap fun | .popped _ x => some x | _ => none

/-- Once `stop_` was set, no `pop` returned true. -/
def NoneAfterStop (log : List (PoolEvent T)) : Prop :=
  log.Pairwise fun a b => a = .stopped → ∀ t x, b ≠ .popped t x

/-- The history of a queue. -/
structure HandedOver (s : BlockQueue T) : Prop where
  fifo : popped s.log ++ s.queue_ = pushed s.log
  stopped : .stopped ∈ s.log → s.stop_ = true
  none : NoneAfterStop s.log

theorem pushed_append (as bs : List (PoolEvent T)) :
    pushed (as ++ bs) = pushed as ++ pushed bs := List.filterMap_append

theorem popped_append (as bs : List (PoolEvent T)) :
    popped (as ++ bs) = popped as ++ popped bs := List.filterMap_append

theorem NoneAfterStop.append {log : List (PoolEvent T)} {e : PoolEvent T} (h : NoneAfterStop log)
    (he : .stopped ∈ log → ∀ t x, e ≠ .popped t x) : NoneAfterStop (log ++ [e]) := by
  rw [NoneAfterStop, List.pairwise_append]
  refine ⟨h, List.pairwise_singleton .., fun a ha b hb has => ?_⟩
  subst has
  rw [List.mem_singleton.mp hb]
  exact he ha

theorem HandedOver.runs {s x : BlockQueue T} {t : PoolThread} {f : PoolFrame T}
    {next : List (PoolFrame T)} (h : HandedOver s) (hr : Runs t s f x next) : HandedOver x := by
  cases hr with
  | @emplace y =>
      refine ⟨?_, fun hs => h.stopped (by simpa using hs), h.none.append (by simp)⟩
      rw [popped_append, pushed_append, ← h.fifo]
      simp [popped, pushed]
  | @take y rest hq hs =>
      have hopen : .stopped ∉ s.log := fun hm => by
        have := h.stopped hm
        rw [hs] at this
        cases this
      refine ⟨?_, fun hm => absurd (by simpa using hm) hopen,
        h.none.append fun hm => absurd hm hopen⟩
      rw [popped_append, pushed_append, ← h.fifo, hq]
      simp [popped, pushed]
  | refuse =>
      refine ⟨?_, fun hs => h.stopped (by simpa using hs), h.none.append (by simp)⟩
      rw [popped_append, pushed_append, ← h.fifo]
      simp [popped, pushed]
  | setStop =>
      refine ⟨?_, fun _ => rfl, h.none.append (by simp)⟩
      rw [popped_append, pushed_append, ← h.fifo]
      simp [popped, pushed]
  | _ => exact ⟨h.fifo, h.stopped, h.none⟩

end BlockQueue

namespace ThreadPool

open Threads BlockQueue

variable {T : Type} {numThreads : Int}

theorem numThreads_pos : 0 < numThreads_ numThreads := by
  unfold numThreads_
  omega

theorem safe_start : Safe (numThreads_ numThreads) (start T numThreads) := by
  have hframe : ∀ t, ∀ f ∈ (start T numThreads).stack t,
      (f = .work ∧ ∃ i < numThreads_ numThreads, t = .worker i) ∨ f = .user := by
    intro t f hf
    match t with
    | .worker i =>
        by_cases hi : i < numThreads_ numThreads
        · simp only [start, hi, if_true, List.mem_singleton] at hf
          exact .inl ⟨hf, i, hi, rfl⟩
        · simp [start, hi] at hf
    | .other n => exact .inr (List.mem_singleton.mp hf)
  refine ⟨fun t f hf => ?_, fun t f hf hc => ?_, fun t f hf hp => ?_, fun t ht => ?_,
    fun t ht => ⟨rfl, rfl⟩, fun hq => absurd rfl hq, fun hs => by cases hs⟩
  · rcases hframe t f (List.mem_of_mem_tail hf) with ⟨rfl, _⟩ | rfl <;> rfl
  · rcases hframe t f hf with ⟨rfl, _⟩ | rfl <;> cases hc
  · rcases hframe t f hf with ⟨rfl, hw⟩ | rfl
    · exact hw
    · cases hp
  · cases ht

/-- A worker that `cond_.wait` let through takes the front of the queue, unless
`stop_` is set. -/
theorem step_take {s : Config PoolThread (PoolFrame T) (BlockQueue T)} {t : PoolThread}
    {rest : List (PoolFrame T)} {x : T} {q : List T} (ht : s.stack t = .take :: rest)
    (hq : s.shared.queue_ = x :: q) (hs : s.shared.stop_ = false) :
    (lts T numThreads).step s (t, .go) = some (s.resume t
      { s.shared with queue_ := q, log := s.shared.log ++ [.popped t x] }
      [.unlock, .task x, .work] rest) := by
  refine Code.step_eq_some.mpr ⟨.take, rest, _, _, ht, ?_, rfl⟩
  simp only [code, exec, hq, hs]

/-- Along every run of a pool, with any number of other threads that push and
stop it: tasks are popped once each, in the order of the pushes, and none after
`stop_` was set. All workers are blocked over a queued task, or over `stop_`,
only while some thread is on its way to its notification; and over `stop_`
nobody is blocked for good. A worker that was let through takes the front. -/
theorem tasks_handed_over {s : Config PoolThread (PoolFrame T) (BlockQueue T)}
    (h : (lts T numThreads).Reach s) :
    popped s.shared.log ++ s.shared.queue_ = pushed s.shared.log ∧
      NoneAfterStop s.shared.log ∧
      (s.shared.queue_ ≠ [] ∨ s.shared.stop_ = true →
        (∀ i < numThreads_ numThreads, .worker i ∈ s.shared.waiting) → Notifying s) ∧
      (s.shared.stop_ = true → (∀ t, .notifyAll ∉ s.stack t) → s.shared.waiting = []) ∧
      ∀ t rest x q, s.stack t = .take :: rest → s.shared.queue_ = x :: q →
        s.shared.stop_ = false → ∃ s', (lts T numThreads).step s (t, .go) = some s' ∧
          s'.shared.queue_ = q ∧ s'.shared.log = s.shared.log ++ [.popped t x] := by
  have hinv : Safe (numThreads_ numThreads) s ∧ HandedOver s.shared := by
    refine Lts.Reach.inv (I := fun s => Safe (numThreads_ numThreads) s ∧ HandedOver s.shared)
      (fun s hs => ?_) (fun s b s' hI hs => ?_) h
    · rw [show s = start T numThreads from hs]
      exact ⟨safe_start, rfl, (fun hm => by cases hm), List.Pairwise.nil⟩
    · obtain ⟨t, c⟩ := b
      refine ⟨hI.1.step numThreads_pos hs, ?_⟩
      obtain ⟨f, rest, x, next, ht, hr, rfl⟩ := step_runs hs
      exact hI.2.runs hr
  obtain ⟨hsafe, hover⟩ := hinv
  refine ⟨hover.fifo, hover.none, fun hdue hall => ?_, fun hs hno => ?_,
    fun t rest x q ht hq hs => ⟨_, step_take ht hq hs, rfl, rfl⟩⟩
  · rcases hdue with hq | hs
    · exact hsafe.woken hq hall
    · obtain ⟨t, ht⟩ := hsafe.stopped hs _ (hall 0 numThreads_pos)
      exact ⟨t, .inr ht⟩
  · rw [List.eq_nil_iff_forall_not_mem]
    intro w hw
    obtain ⟨t, ht⟩ := hsafe.stopped hs w hw
    exact hno t ht

/-- The only worker blocks before the first task is pushed; thread 0 is about to
notify it. -/
def blocking : List (PoolThread × PoolChoice Nat) :=
  [(.worker 0, .go), (.worker 0, .go), (.worker 0, .go), (.worker 0, .go),
    (.other 0, .push 7), (.other 0, .go), (.other 0, .go), (.other 0, .go)]

/-- There, and then the worker is woken and pops the task. -/
theorem tasks_handed_over_blocked :
    (∃ s : Config PoolThread (PoolFrame Nat) (BlockQueue Nat),
      s.shared.queue_ = [7] ∧ s.shared.waiting = [.worker 0] ∧ pushed s.shared.log = [7] ∧
        Notifying s) ∧
    ∃ s s' : Config PoolThread (PoolFrame Nat) (BlockQueue Nat),
      s.shared.queue_ = [7] ∧ (lts Nat 0).step s (.worker 0, .go) = some s' ∧
        s'.shared.queue_ = [] ∧ popped s'.shared.log = [7] := by
  constructor
  · obtain ⟨s, hs, hp⟩ := Lts.exists_reach (lts Nat 0) blocking
      (fun s => decide (s.shared.queue_ = [7] ∧ s.shared.waiting = [.worker 0] ∧
        popped s.shared.log = [])) rfl (by decide +kernel)
    obtain ⟨hq, hw, hpop⟩ := of_decide_eq_true hp
    obtain ⟨hfifo, _, hwoken, _⟩ := tasks_handed_over hs
    rw [hpop, hq] at hfifo
    refine ⟨s, hq, hw, hfifo.symm, hwoken (.inl (by rw [hq]; simp)) fun i hi => ?_⟩
    have hi : i = 0 := by
      unfold numThreads_ at hi
      omega
    rw [hw, hi]
    exact List.mem_singleton_self _
  · obtain ⟨s, hs, hp⟩ := Lts.exists_reach (lts Nat 0)
      (blocking ++ [(.other 0, .wake (some (.worker 0))), (.worker 0, .go), (.worker 0, .go)])
      (fun s => decide ((s.stack (.worker 0)).head? = some .take ∧ s.shared.queue_ = [7] ∧
        s.shared.stop_ = false ∧ popped s.shared.log = [])) rfl (by decide +kernel)
    obtain ⟨htop, hq, hstop, hpop⟩ := of_decide_eq_true hp
    obtain ⟨rest, ht⟩ := List.head?_eq_some_iff.mp htop
    obtain ⟨-, -, -, -, htake⟩ := tasks_handed_over hs
    obtain ⟨s', hstep, hq', hlog⟩ := htake _ _ _ _ ht hq hstop
    refine ⟨s, s', hq, hstep, hq', ?_⟩
    rw [hlog, popped_append, hpop]
    rfl

end ThreadPool

end Muduox.Net
