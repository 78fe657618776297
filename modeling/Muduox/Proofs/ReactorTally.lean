import Mathlib.Algebra.GroupWithZero.Nat
import Mathlib.Algebra.BigOperators.Group.Finset.Piecewise
import Mathlib.Algebra.Order.BigOperators.Group.Finset
import Muduox.Proofs.ReactorRules

/-!
# Counting code in flight

A functor that is made once is run once: whatever else the reactor does with it,
it is in exactly one place until it runs. To use that, give each piece of code a
weight and add up what lies on the stacks and in the queues of a finite set of
loops (`tally`). As long as everything with a weight stays among these loops
(`Within`), moving code around leaves the sum alone, and running a piece trades
its own weight for that of what it leaves (`tally_step`).
-/

namespace Muduox.Net

/-- The weight of the code a frame will run. -/
def Frame.weight {A : Type} (v : A → Nat) (f : Frame A) : Nat :=
  match f.payload with
  | some a => v a
  | none => 0

/-- A functor on its way from loop to loop visits only those in `L`. -/
def Frame.visits {A : Type} (L : Finset LoopId) : Frame A → Prop
  | .runInLoop l cb | .queueInLoop l cb => l ∈ L ∧ cb.visits L
  | .functor _ cb => cb.visits L
  | _ => True

namespace Reactor

open Threads

variable {A Ch S : Type} {P : App A Ch S} {v : A → Nat} {L : Finset LoopId}

/-- The weight of a list of frames. -/
def weigh (v : A → Nat) (l : List (Frame A)) : Nat := (l.map (Frame.weight v)).sum

@[simp] theorem weigh_nil : weigh v [] = 0 := rfl

@[simp] theorem weigh_cons (f : Frame A) (l : List (Frame A)) :
    weigh v (f :: l) = f.weight v + weigh v l := by
  rw [weigh, List.map_cons, List.sum_cons]
  rfl

@[simp] theorem weigh_append (l m : List (Frame A)) : weigh v (l ++ m) = weigh v l + weigh v m := by
  rw [weigh, List.map_append, List.sum_append]
  rfl

theorem weigh_eq_zero {l : List (Frame A)} (h : ∀ f ∈ l, f.weight v = 0) : weigh v l = 0 := by
  induction l with
  | nil => rfl
  | cons f l ih =>
      rw [weigh_cons, h f List.mem_cons_self, ih fun g hg => h g (List.mem_cons_of_mem _ hg)]

theorem le_weigh {f : Frame A} {l : List (Frame A)} (h : f ∈ l) : f.weight v ≤ weigh v l := by
  obtain ⟨l₁, l₂, rfl⟩ := List.append_of_mem h
  rw [weigh_append, weigh_cons]
  omega

/-- What lies on the stacks of the loops in `L`. -/
def onStacks (v : A → Nat) (L : Finset LoopId) (stack : ThreadId → List (Frame A)) : Nat :=
  ∑ l ∈ L, weigh v (stack (.loop l))

/-- What lies in their queues. -/
def inQueues (v : A → Nat) (L : Finset LoopId) (loop : LoopId → EventLoop A) : Nat :=
  ∑ l ∈ L, weigh v ((loop l).pendingFunctors_.map Prod.snd)

/-- The weight of all code in flight. -/
def tally (v : A → Nat) (L : Finset LoopId) (s : Config ThreadId (Frame A) (Reactor A S)) : Nat :=
  onStacks v L s.stack + inQueues v L s.shared.loop

/-- Everything with a weight is with the loops in `L`, and stays there. -/
structure Within (v : A → Nat) (L : Finset LoopId)
    (s : Config ThreadId (Frame A) (Reactor A S)) : Prop where
  stack : ∀ t, ∀ f ∈ s.stack t, f.weight v ≠ 0 → (∃ l ∈ L, t = .loop l) ∧ f.visits L
  queue : ∀ l, ∀ q ∈ (s.shared.loop l).pendingFunctors_, q.2.weight v ≠ 0 →
    l ∈ L ∧ q.2.visits L

variable {s s' : Config ThreadId (Frame A) (Reactor A S)} {t : ThreadId} {f : Frame A}
  {x : Reactor A S} {next rest : List (Frame A)}

theorem sum_update_add {g : LoopId → Nat} {l : LoopId} (h : l ∈ L) (b : Nat) :
    ∑ k ∈ L, Function.update g l b k + g l = ∑ k ∈ L, g k + b := by
  rw [Finset.sum_update_of_mem h, ← Finset.sum_erase_add L g h, Finset.sdiff_singleton_eq_erase]
  omega

/-- What is counted is somewhere. -/
theorem exists_of_tally (h : tally v L s ≠ 0) :
    (∃ t, ∃ f ∈ s.stack t, f.weight v ≠ 0) ∨
      ∃ l, ∃ q ∈ (s.shared.loop l).pendingFunctors_, q.2.weight v ≠ 0 := by
  by_contra hno
  rw [not_or] at hno
  refine h ?_
  have hstack : onStacks v L s.stack = 0 := Finset.sum_eq_zero fun l _ =>
    weigh_eq_zero fun f hf => by
      by_contra hw
      exact hno.1 ⟨_, f, hf, hw⟩
  have hqueue : inQueues v L s.shared.loop = 0 := Finset.sum_eq_zero fun l _ =>
    weigh_eq_zero fun g hg => by
      obtain ⟨q, hq, rfl⟩ := List.mem_map.mp hg
      by_contra hw
      exact hno.2 ⟨l, q, hq, hw⟩
  rw [tally, hstack, hqueue]

/-- What lies on a stack is counted. -/
theorem Within.le_tally (h : Within v L s) (hf : f ∈ s.stack t) : f.weight v ≤ tally v L s := by
  by_cases hw : f.weight v = 0
  · rw [hw]
    exact Nat.zero_le _
  · obtain ⟨⟨l, hl, rfl⟩, _⟩ := h.stack t f hf hw
    have hstack : weigh v (s.stack (.loop l)) ≤ onStacks v L s.stack :=
      Finset.single_le_sum (f := fun k => weigh v (s.stack (.loop k)))
        (fun _ _ => Nat.zero_le _) hl
    have hle := le_weigh (v := v) hf
    rw [tally]
    omega

/-- A frame makes way for those it leaves. -/
theorem onStacks_resume (ht : s.stack t = f :: rest)
    (hf : f.weight v ≠ 0 → ∃ l ∈ L, t = .loop l)
    (hn : weigh v next ≠ 0 → ∃ l ∈ L, t = .loop l) :
    onStacks v L (s.resume t x next rest).stack + f.weight v =
      onStacks v L s.stack + weigh v next := by
  by_cases hL : ∃ l ∈ L, t = .loop l
  · obtain ⟨l, hl, rfl⟩ := hL
    have hnew : onStacks v L (s.resume (.loop l) x next rest).stack =
        ∑ k ∈ L, Function.update (fun k => weigh v (s.stack (.loop k))) l
          (weigh v (next ++ rest)) k := by
      refine Finset.sum_congr rfl fun k _ => ?_
      by_cases hk : k = l
      · subst hk
        rw [Function.update_self, Config.resume_stack_self]
      · rw [Function.update_of_ne hk, Config.resume_stack_of_ne s (by simpa using hk)]
    have hsum := sum_update_add (g := fun k => weigh v (s.stack (.loop k))) hl
      (weigh v (next ++ rest))
    rw [← hnew, ht, weigh_cons, weigh_append] at hsum
    rw [onStacks, onStacks] at *
    omega
  · have hf0 : f.weight v = 0 := by
      by_contra h
      exact hL (hf h)
    have hn0 : weigh v next = 0 := by
      by_contra h
      exact hL (hn h)
    rw [hf0, hn0, onStacks, onStacks]
    refine congrArg (· + 0) (Finset.sum_congr rfl fun l hl => ?_)
    rw [Config.resume_stack_of_ne s fun he => hL ⟨l, hl, he.symm⟩]

/-- A new queue for one loop. -/
theorem inQueues_setLoop {r : Reactor A S} {l : LoopId} {e : EventLoop A}
    (hl : weigh v ((r.loop l).pendingFunctors_.map Prod.snd) ≠
      weigh v (e.pendingFunctors_.map Prod.snd) → l ∈ L) :
    inQueues v L (r.setLoop l e).loop + weigh v ((r.loop l).pendingFunctors_.map Prod.snd) =
      inQueues v L r.loop + weigh v (e.pendingFunctors_.map Prod.snd) := by
  have hupd : (fun k => weigh v (((r.setLoop l e).loop k).pendingFunctors_.map Prod.snd)) =
      Function.update (fun k => weigh v ((r.loop k).pendingFunctors_.map Prod.snd)) l
        (weigh v (e.pendingFunctors_.map Prod.snd)) := by
    funext k
    by_cases hk : k = l
    · subst hk
      rw [Function.update_self, setLoop_loop_self]
    · rw [Function.update_of_ne hk, setLoop_loop_of_ne r hk]
  rw [inQueues, hupd, inQueues]
  by_cases h : l ∈ L
  · exact sum_update_add h _
  · rw [Finset.sum_update_of_notMem h, not_ne_iff.mp fun hne => h (hl hne)]

theorem inQueues_congr {r r' : Reactor A S}
    (h : ∀ l, (r'.loop l).pendingFunctors_ = (r.loop l).pendingFunctors_) :
    inQueues v L r'.loop = inQueues v L r.loop :=
  Finset.sum_congr rfl fun l _ => by rw [h l]

/-! ## The steps -/

/-- What a step leaves within `L`, when what it pushes is. -/
theorem Within.resume (h : Within v L s) (ht : s.stack t = f :: rest)
    (hloop : ∀ l, (x.loop l).pendingFunctors_ = (s.shared.loop l).pendingFunctors_)
    (hnext : ∀ g ∈ next, g.weight v ≠ 0 → (∃ l ∈ L, t = .loop l) ∧ g.visits L) :
    Within v L (s.resume t x next rest) := by
  refine ⟨fun u g hg hw => ?_, fun l q hq hw => ?_⟩
  · rcases Config.mem_of_mem_resume ht hg with ⟨rfl, hnew⟩ | hold
    · exact hnext g hnew hw
    · exact h.stack u g hold hw
  · rw [Config.resume_shared, hloop] at hq
    exact h.queue l q hq hw

theorem Within.push (h : Within v L s) {l : LoopId} {cb : Frame A}
    (ht : s.stack t = .queueInLoop l cb :: rest) (hnext : ∀ g ∈ next, g.weight v = 0) :
    Within v L
      (s.resume t (s.shared.setLoop l ((s.shared.loop l).queueInLoop t cb)) next rest) := by
  have hcb : cb.weight v ≠ 0 → l ∈ L ∧ cb.visits L := fun hw =>
    (h.stack t (.queueInLoop l cb) (by rw [ht]; exact List.mem_cons_self) hw).2
  refine ⟨fun u g hg hw => ?_, fun k q hq hw => ?_⟩
  · rcases Config.mem_of_mem_resume ht hg with ⟨_, hnew⟩ | hold
    · exact absurd (hnext g hnew) hw
    · exact h.stack u g hold hw
  · rw [Config.resume_shared] at hq
    rcases mem_pending_queueInLoop hq with hold | ⟨rfl, rfl⟩
    · exact h.queue k q hold hw
    · exact hcb hw

/-- The tally of a step that leaves the queues alone. -/
theorem tally_resume (h : Within v L s) (ht : s.stack t = f :: rest)
    (hloop : ∀ l, (x.loop l).pendingFunctors_ = (s.shared.loop l).pendingFunctors_)
    (hnext : weigh v next ≠ 0 → ∃ l ∈ L, t = .loop l) :
    tally v L (s.resume t x next rest) + f.weight v = tally v L s + weigh v next := by
  have hf : f.weight v ≠ 0 → ∃ l ∈ L, t = .loop l := fun hw =>
    (h.stack t f (by rw [ht]; exact List.mem_cons_self) hw).1
  have hstack := onStacks_resume (x := x) ht hf hnext
  have hqueue : inQueues v L (s.resume t x next rest).shared.loop = inQueues v L s.shared.loop :=
    inQueues_congr hloop
  rw [tally, tally, hqueue]
  omega

/-- A push moves a functor from a stack to a queue. -/
theorem tally_push (h : Within v L s) {l : LoopId} {cb : Frame A}
    (ht : s.stack t = .queueInLoop l cb :: rest) (hnext : weigh v next = 0) :
    tally v L (s.resume t (s.shared.setLoop l ((s.shared.loop l).queueInLoop t cb)) next rest) =
      tally v L s := by
  have hcb := h.stack t (.queueInLoop l cb) (by rw [ht]; exact List.mem_cons_self)
  have hstack : onStacks v L (s.resume t
      (s.shared.setLoop l ((s.shared.loop l).queueInLoop t cb)) next rest).stack +
      (Frame.queueInLoop l cb).weight v = onStacks v L s.stack + weigh v next :=
    onStacks_resume ht (fun hw => (hcb hw).1) fun hw => absurd hnext hw
  have hqueue := inQueues_setLoop (v := v) (L := L) (r := s.shared) (l := l)
    (e := (s.shared.loop l).queueInLoop t cb) fun hne => (hcb fun hz => hne (by
      simp [EventLoop.queueInLoop, show cb.weight v = 0 from hz])).2.1
  have hnew : weigh v (((s.shared.loop l).queueInLoop t cb).pendingFunctors_.map Prod.snd) =
      weigh v ((s.shared.loop l).pendingFunctors_.map Prod.snd) + cb.weight v := by
    simp [EventLoop.queueInLoop]
  have hw : (Frame.queueInLoop l cb).weight v = cb.weight v := rfl
  rw [tally, tally, Config.resume_shared]
  omega

/-- The swap moves a queue to its loop's stack. -/
theorem tally_swap (h : Within v L s) {l : LoopId} {e : EventLoop A}
    (ht : s.stack (.loop l) = .doPendingFunctors l :: rest) (he : e.pendingFunctors_ = []) :
    tally v L (s.resume (.loop l) (s.shared.setLoop l e)
      ((s.shared.loop l).pendingFunctors_.map fun p => .functor l p.2) rest) = tally v L s := by
  have hnext : weigh v ((s.shared.loop l).pendingFunctors_.map fun p => Frame.functor l p.2) =
      weigh v ((s.shared.loop l).pendingFunctors_.map Prod.snd) := by
    rw [weigh, weigh, List.map_map, List.map_map]
    rfl
  have hin : weigh v ((s.shared.loop l).pendingFunctors_.map Prod.snd) ≠ 0 → l ∈ L := by
    intro hw
    by_contra hl
    refine hw (weigh_eq_zero fun g hg => ?_)
    obtain ⟨q, hq, rfl⟩ := List.mem_map.mp hg
    by_contra hne
    exact hl (h.queue l q hq hne).1
  have hstack := onStacks_resume (v := v) (L := L) (x := s.shared.setLoop l e) ht
    (fun hw => absurd rfl hw) fun hw => ⟨l, hin (hnext ▸ hw), rfl⟩
  have hqueue := inQueues_setLoop (v := v) (L := L) (r := s.shared) (l := l) (e := e)
    fun hne => hin (by simpa [he] using hne)
  have hz : (Frame.doPendingFunctors l : Frame A).weight v = 0 := rfl
  rw [he, List.map_nil, weigh_nil] at hqueue
  rw [tally, tally, Config.resume_shared]
  omega

/-- What a step does to the tally. -/
inductive Accounts (P : App A Ch S) (v : A → Nat) (L : Finset LoopId) (t : ThreadId)
    (s s' : Config ThreadId (Frame A) (Reactor A S)) : Prop
  | code {a : A} {c : Ch} {next rest : List (Frame A)} (ht : s.stack t = .code a :: rest)
      (hx : P.exec t a c s.shared.app = some (s'.shared.app, next))
      (htally : tally v L s' + v a = tally v L s + weigh v next)
  | poll {l : LoopId} {c : Ch} {r : Option (List A)}
      (hx : P.poll l c s.shared.app = some (s'.shared.app, r))
      (htally : tally v L s' = tally v L s)
  | other (hx : s'.shared.app = s.shared.app) (htally : tally v L s' = tally v L s)

/-- The rule: the code that ran makes way for what it leaves, and every other
step only moves things around. -/
theorem tally_step {ch : Choice A Ch} (hs : (code P).step s (t, ch) = some s')
    (hsound : Sound s) (h : Within v L s)
    (hexec : ∀ {a c x next rest}, s.stack t = .code a :: rest →
      P.exec t a c s.shared.app = some (x, next) →
      ∀ g ∈ next, g.weight v ≠ 0 → (∃ l ∈ L, t = .loop l) ∧ g.visits L)
    (hpoll : ∀ {l c r}, P.poll l c s.shared.app = some r → ∀ b ∈ r.2.getD [], v b = 0)
    (hapi : ∀ {a}, P.api t s.shared.app a = true → v a = 0) :
    Within v L s' ∧ Accounts P v L t s s' := by
  obtain ⟨f, rest, x, next, ht, hr, rfl⟩ := step_runs hs
  have hf := h.stack t f (by rw [ht]; exact List.mem_cons_self)
  -- Steps that neither weigh anything nor leave anything that does.
  have hquiet : (∀ l, (x.loop l).pendingFunctors_ = (s.shared.loop l).pendingFunctors_) →
      (∀ g ∈ next, g.weight v = 0) → f.weight v = 0 →
      Within v L (s.resume t x next rest) ∧ tally v L (s.resume t x next rest) = tally v L s := by
    intro hloop hnext hw
    have hz := weigh_eq_zero hnext
    have := tally_resume h ht hloop fun hne => absurd hz hne
    exact ⟨h.resume ht hloop fun g hg hne => absurd (hnext g hg) hne, by omega⟩
  -- Steps that turn a frame into another one for the same code.
  have hsame : ∀ {g}, next = [g] → x = s.shared → g.weight v = f.weight v →
      (f.visits L → g.visits L) →
      Within v L (s.resume t x next rest) ∧ tally v L (s.resume t x next rest) = tally v L s := by
    rintro g rfl rfl hw hv
    have hz : weigh v [g] = f.weight v := by rw [weigh_cons, weigh_nil, hw, Nat.add_zero]
    have := tally_resume h ht (fun _ => rfl) fun hne => (hf (hz ▸ hne)).1
    refine ⟨h.resume ht (fun _ => rfl) fun g' hg' hne => ?_, by omega⟩
    rw [List.mem_singleton.mp hg'] at hne ⊢
    exact ⟨(hf (hw ▸ hne)).1, hv (hf (hw ▸ hne)).2⟩
  have hother : x.app = s.shared.app →
      Within v L (s.resume t x next rest) ∧ tally v L (s.resume t x next rest) = tally v L s →
      Within v L (s.resume t x next rest) ∧ Accounts P v L t s (s.resume t x next rest) :=
    fun hx hwt => ⟨hwt.1, .other hx hwt.2⟩
  cases hr with
  | ret | callRunInLoop | callQueueInLoop | callQuit | iterate =>
      exact hother rfl (hquiet (fun _ => rfl) (by simp [Frame.weight, Frame.payload]) rfl)
  | call ha =>
      refine hother rfl (hquiet (fun _ => rfl) ?_ rfl)
      simpa [Frame.weight, Frame.payload] using hapi ha
  | @code a c x next hx =>
      have hin := hexec ht hx
      have hnext : weigh v next ≠ 0 → ∃ l ∈ L, t = .loop l := by
        intro hne
        by_contra hL
        refine hne (weigh_eq_zero fun g hg => ?_)
        by_contra hw
        exact hL (hin g hg hw).1
      exact ⟨h.resume ht (fun _ => rfl) hin, .code ht hx
        (tally_resume h ht (fun _ => rfl) hnext)⟩
  | runHere => exact hother rfl (hsame rfl rfl rfl And.right)
  | runThere => exact hother rfl (hsame rfl rfl rfl id)
  | functor => exact hother rfl (hsame rfl rfl rfl id)
  | queueHere => exact hother rfl ⟨h.push ht (by simp), tally_push h ht rfl⟩
  | queueThere =>
      exact hother rfl ⟨h.push ht (by simp [Frame.weight, Frame.payload]), tally_push h ht rfl⟩
  | wakeup | quitHere | quitThere | loop | clearQuit | leave | handleWakeup =>
      exact hother rfl (hquiet (fun k => setLoop_pending (by rfl) k)
        (by simp [Frame.weight, Frame.payload]) rfl)
  | polling hx =>
      obtain ⟨hw, ht'⟩ := hquiet (fun _ => rfl) (by simp [Frame.weight, Frame.payload]) rfl
      exact ⟨hw, .poll hx ht'⟩
  | polled hx =>
      obtain ⟨hw, ht'⟩ := hquiet (fun _ => rfl) (fun g hg => by
        rcases mem_iteration hg with ⟨b, hb, rfl⟩ | rfl | rfl | rfl
        · exact hpoll hx b hb
        · rfl
        · rfl
        · rfl) rfl
      exact ⟨hw, .poll hx ht'⟩
  | @doPendingFunctors l =>
      obtain ⟨rfl, _⟩ := hsound.doPendingFunctors_top ht
      refine hother rfl ⟨⟨fun u g hg hw => ?_, fun k q hq hw => ?_⟩, tally_swap h ht rfl⟩
      · rcases Config.mem_of_mem_resume ht hg with ⟨rfl, hnew⟩ | hold
        · obtain ⟨q, hq, rfl⟩ := List.mem_map.mp hnew
          obtain ⟨hl, hv⟩ := h.queue l q hq hw
          exact ⟨⟨l, hl, rfl⟩, hv⟩
        · exact h.stack u g hold hw
      · rw [Config.resume_shared] at hq
        rcases mem_pending_setLoop hq with hold | ⟨_, hnew⟩
        · exact h.queue k q hold hw
        · cases hnew

end Reactor

end Muduox.Net
