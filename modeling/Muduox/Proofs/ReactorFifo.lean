import Muduox.Proofs.ReactorRules

/-!
# What one thread hands to a loop arrives in order

A thread that hands functors to another thread's loop has them run in the order
of its calls, and none is lost on the way. `sel` picks the code in question and
says what it stands for. `transit` lists all of it that is on its way, oldest
first: what the loop's thread is about to run, what its queue holds, what the
calling thread is about to push. A step of the reactor leaves the list alone,
but for code: what the loop runs comes off the front, and what the thread hands
over goes on at the back (`handover_step`).

That the front of the list is the top of the loop's stack needs the order of
frames on it (`Under`): under a piece of the loop itself nothing handed over
waits. Code may also be marked, and nothing handed over runs on top of it,
because what lies on top of marked code was left by code.
-/

namespace Muduox.Net

/-- What the code a frame will run stands for. -/
def Frame.sel {A β : Type} (sel : A → Option β) (f : Frame A) : Option β := f.payload.bind sel

/-- Whether a frame is marked code. -/
def Frame.marked {A : Type} (mark : A → Bool) : Frame A → Bool
  | .code a => mark a
  | _ => false

namespace Reactor

open Threads

/-- A functor that `doPendingFunctors` took out of the queue. -/
def isFunctor {A : Type} : Frame A → Bool
  | .functor _ _ => true
  | _ => false

variable {A Ch S β : Type} {P : App A Ch S} {sel : A → Option β} {mark : A → Bool}
  {T : ThreadId} {l : LoopId}

/-- What a list of frames stands for, top first. -/
def picked (sel : A → Option β) (fs : List (Frame A)) : List β := fs.filterMap (Frame.sel sel)

@[simp] theorem picked_nil : picked sel [] = [] := rfl

@[simp] theorem picked_cons (f : Frame A) (fs : List (Frame A)) :
    picked sel (f :: fs) = (f.sel sel).toList ++ picked sel fs := by
  cases h : f.sel sel <;> simp [picked, h]

@[simp] theorem picked_append (fs gs : List (Frame A)) :
    picked sel (fs ++ gs) = picked sel fs ++ picked sel gs := List.filterMap_append

/-- All that thread `T` handed to loop `l` and that has not run, oldest first. -/
def transit (sel : A → Option β) (T : ThreadId) (l : LoopId)
    (s : Config ThreadId (Frame A) (Reactor A S)) : List β :=
  picked sel (s.stack (.loop l)) ++
    picked sel ((s.shared.loop l).pendingFunctors_.map Prod.snd) ++ picked sel (s.stack T)

/-- Where picked code may be on the stack of thread `t`: on its way from `T`, or
about to run on the loop. -/
def Carried (T : ThreadId) (l : LoopId) (t : ThreadId) (f : Frame A) : Prop :=
  ∃ a, t = T ∧ (f = .runInLoop l (.code a) ∨ f = .queueInLoop l (.code a)) ∨
    t = .loop l ∧ (f = .code a ∨ f = .functor l (.code a))

/-- What may lie on top of what on the loop's stack. -/
def Under (sel : A → Option β) (mark : A → Bool) (g b : Frame A) : Prop :=
  (control g = true → b.sel sel = none) ∧
    (control g = true ∨ isFunctor g = true ∨ g.sel sel ≠ none → b.marked mark = false)

/-- The picked code is where it may be, and in place. -/
structure Handover (sel : A → Option β) (mark : A → Bool) (T : ThreadId) (l : LoopId)
    (s : Config ThreadId (Frame A) (Reactor A S)) : Prop where
  stack : ∀ t, ∀ f ∈ s.stack t, f.sel sel ≠ none → Carried T l t f
  queue : ∀ k, ∀ q ∈ (s.shared.loop k).pendingFunctors_, q.2.sel sel ≠ none →
    k = l ∧ ∃ a, q.2 = .code a
  alone : ∀ f ∈ (s.stack T).tail, f.sel sel = none
  under : (s.stack (.loop l)).Pairwise (Under sel mark)

variable {s s' : Config ThreadId (Frame A) (Reactor A S)} {t : ThreadId} {f : Frame A}
  {x : Reactor A S} {next rest : List (Frame A)}

theorem picked_eq_nil {fs : List (Frame A)} (h : ∀ f ∈ fs, f.sel sel = none) :
    picked sel fs = [] := List.filterMap_eq_nil_iff.mpr h

theorem sel_of_picked_nil {fs : List (Frame A)} (h : picked sel fs = []) :
    ∀ f ∈ fs, f.sel sel = none := List.filterMap_eq_nil_iff.mp h

/-- A step that leaves on the stack what it took. -/
theorem picked_resume (ht : s.stack t = f :: rest) (h : picked sel next = picked sel [f])
    (u : ThreadId) : picked sel ((s.resume t x next rest).stack u) = picked sel (s.stack u) := by
  by_cases hu : u = t
  · subst hu
    rw [Config.resume_stack_self, ht, picked_append, h, ← picked_append]
    rfl
  · rw [Config.resume_stack_of_ne s hu]

theorem picked_functors (k : LoopId) (ps : List (ThreadId × Frame A)) :
    picked sel (ps.map fun p => Frame.functor k p.2) = picked sel (ps.map Prod.snd) := by
  rw [picked, picked, List.filterMap_map, List.filterMap_map]
  rfl

/-- A frame that may lie on anything. -/
def Light (sel : A → Option β) (g : Frame A) : Prop :=
  control g = false ∧ isFunctor g = false ∧ g.sel sel = none

theorem Light.under {g : Frame A} (h : Light sel g) (b : Frame A) : Under sel mark g b := by
  obtain ⟨hc, hf, hs⟩ := h
  unfold Under
  simp [hc, hf, hs]

theorem pairwise_under {fs : List (Frame A)} (h : ∀ g ∈ fs, Light sel g) :
    fs.Pairwise (Under sel mark) :=
  List.pairwise_of_forall_mem_list fun g hg b _ => (h g hg).under b

/-- A step that leaves the queues alone. -/
theorem Handover.resume (h : Handover sel mark T l s) (ht : s.stack t = f :: rest)
    (hloop : ∀ k, (x.loop k).pendingFunctors_ = (s.shared.loop k).pendingFunctors_)
    (hstack : ∀ g ∈ next, g.sel sel ≠ none → Carried T l t g)
    (halone : t = T → ∀ g ∈ next.tail, g.sel sel = none)
    (hunder : t = .loop l → next.Pairwise (Under sel mark) ∧
      ∀ g ∈ next, ∀ b ∈ rest, Under sel mark f b → Under sel mark g b) :
    Handover sel mark T l (s.resume t x next rest) := by
  refine ⟨fun u g hg hs => ?_, fun k q hq hs => ?_, fun g hg => ?_, ?_⟩
  · rcases Config.mem_of_mem_resume ht hg with ⟨rfl, hnew⟩ | hold
    · exact hstack g hnew hs
    · exact h.stack u g hold hs
  · rw [Config.resume_shared, hloop] at hq
    exact h.queue k q hq hs
  · by_cases hT : T = t
    · subst hT
      have hrest : ∀ g ∈ rest, g.sel sel = none := by
        have := h.alone
        rwa [ht] at this
      rw [Config.resume_stack_self] at hg
      cases next with
      | nil => exact hrest g (List.mem_of_mem_tail hg)
      | cons g' next =>
          rcases List.mem_append.mp (show g ∈ next ++ rest from hg) with hg | hg
          · exact halone rfl g hg
          · exact hrest g hg
    · rw [Config.resume_stack_of_ne s hT] at hg
      exact h.alone g hg
  · by_cases hl : t = .loop l
    · subst hl
      obtain ⟨hnext, hover⟩ := hunder rfl
      have hold := h.under
      rw [ht, List.pairwise_cons] at hold
      rw [Config.resume_stack_self, List.pairwise_append]
      exact ⟨hnext, hold.2, fun g hg b hb => hover g hg b hb (hold.1 b hb)⟩
    · rw [Config.resume_stack_of_ne s (Ne.symm hl)]
      exact h.under

/-- What a step does to the list. -/
inductive Conveys (P : App A Ch S) (sel : A → Option β) (T : ThreadId) (l : LoopId) (t : ThreadId)
    (s s' : Config ThreadId (Frame A) (Reactor A S)) : Prop
  | code {a : A} {c : Ch} {next rest : List (Frame A)} (ht : s.stack t = .code a :: rest)
      (hx : P.exec t a c s.shared.app = some (s'.shared.app, next))
      (hstack : s'.stack t = next ++ rest)
      (hloop : t = .loop l → transit sel T l s = (sel a).toList ++ transit sel T l s')
      (hthread : t ≠ .loop l → transit sel T l s' = transit sel T l s ++ picked sel next)
  | other (hcode : ∀ a rest, s.stack t ≠ .code a :: rest)
      (hsame : transit sel T l s' = transit sel T l s)

theorem transit_resume (ht : s.stack t = f :: rest) (h : picked sel next = picked sel [f])
    (hloop : ∀ k, (x.loop k).pendingFunctors_ = (s.shared.loop k).pendingFunctors_) :
    transit sel T l (s.resume t x next rest) = transit sel T l s := by
  rw [transit, picked_resume ht h, picked_resume ht h, Config.resume_shared, hloop]
  rfl

section Push

variable {k : LoopId} {cb : Frame A}

theorem queueInLoop_pending :
    ((s.shared.loop k).queueInLoop t cb).pendingFunctors_ =
      (s.shared.loop k).pendingFunctors_ ++ [(t, cb)] := rfl

/-- A push: `cb` goes from the top of a stack to the end of a queue. -/
theorem Handover.push (h : Handover sel mark T l s) (hT : T ≠ .loop l)
    (ht : s.stack t = .queueInLoop k cb :: rest) (hnext : ∀ g ∈ next, Light sel g) :
    Handover sel mark T l
        (s.resume t (s.shared.setLoop k ((s.shared.loop k).queueInLoop t cb)) next rest) ∧
      transit sel T l
          (s.resume t (s.shared.setLoop k ((s.shared.loop k).queueInLoop t cb)) next rest) =
        transit sel T l s := by
  have hcarried : cb.sel sel ≠ none → t = T ∧ k = l ∧ ∃ a, cb = .code a := by
    intro hs
    have hmem : Frame.queueInLoop k cb ∈ s.stack t := by
      rw [ht]
      exact List.mem_cons_self
    obtain ⟨a, ⟨rfl, he | he⟩ | ⟨_, he | he⟩⟩ := h.stack t _ hmem hs <;> cases he
    exact ⟨rfl, rfl, a, rfl⟩
  have hpicked : picked sel next = [] := picked_eq_nil fun g hg => (hnext g hg).2.2
  constructor
  · have hold : Handover sel mark T l (s.resume t s.shared next rest) :=
      h.resume ht (fun _ => rfl) (fun g hg hs => absurd (hnext g hg).2.2 hs)
        (fun _ g hg => (hnext g (List.mem_of_mem_tail hg)).2.2)
        fun _ => ⟨pairwise_under hnext, fun g hg b _ _ => (hnext g hg).under b⟩
    refine ⟨hold.stack, fun j q hq hs => ?_, hold.alone, hold.under⟩
    rw [Config.resume_shared] at hq
    rcases mem_pending_queueInLoop hq with hold | ⟨rfl, rfl⟩
    · exact h.queue j q hold hs
    · exact (hcarried hs).2
  · by_cases hs : cb.sel sel = none
    · -- Nothing picked moves.
      have hstack : picked sel next = picked sel [Frame.queueInLoop k cb] := by
        rw [hpicked]
        exact (picked_eq_nil fun g hg => by rw [List.mem_singleton.mp hg]; exact hs).symm
      have hqueue : picked sel (((s.shared.setLoop k
          ((s.shared.loop k).queueInLoop t cb)).loop l).pendingFunctors_.map Prod.snd) =
          picked sel ((s.shared.loop l).pendingFunctors_.map Prod.snd) := by
        by_cases hl : l = k
        · subst hl
          rw [setLoop_loop_self, queueInLoop_pending, List.map_append, picked_append]
          simp [hs]
        · rw [setLoop_loop_of_ne _ hl]
      rw [transit, picked_resume ht hstack, picked_resume ht hstack, Config.resume_shared, hqueue]
      rfl
    · obtain ⟨rfl, rfl, a, rfl⟩ := hcarried hs
      rw [transit, transit, Config.resume_shared, setLoop_loop_self,
        Config.resume_stack_of_ne s (Ne.symm hT), Config.resume_stack_self, queueInLoop_pending, ht,
        picked_append next, hpicked]
      simp [show (Frame.queueInLoop k (.code a)).sel sel = (Frame.code a).sel sel from rfl]

/-- The swap: a queue goes onto its loop's stack. -/
theorem Handover.swap (h : Handover sel mark T l s) (hT : T ≠ .loop l)
    (ht : s.stack (.loop k) = .doPendingFunctors k :: rest) {e : EventLoop A}
    (he : e.pendingFunctors_ = []) :
    Handover sel mark T l (s.resume (.loop k) (s.shared.setLoop k e)
        ((s.shared.loop k).pendingFunctors_.map fun p => .functor k p.2) rest) ∧
      transit sel T l (s.resume (.loop k) (s.shared.setLoop k e)
        ((s.shared.loop k).pendingFunctors_.map fun p => .functor k p.2) rest) =
        transit sel T l s := by
  have hfunctor : ∀ g ∈ (s.shared.loop k).pendingFunctors_.map fun p => Frame.functor k p.2,
      g.sel sel ≠ none → k = l ∧ ∃ a, g = .functor l (.code a) := by
    intro g hg hs
    obtain ⟨q, hq, rfl⟩ := List.mem_map.mp hg
    obtain ⟨rfl, a, ha⟩ := h.queue k q hq hs
    exact ⟨rfl, a, by rw [ha]⟩
  have hmoved : picked sel ((s.shared.loop k).pendingFunctors_.map fun p => Frame.functor k p.2) =
      picked sel ((s.shared.loop k).pendingFunctors_.map Prod.snd) := picked_functors k _
  -- Elsewhere nothing picked was queued.
  have helse : k ≠ l → picked sel ((s.shared.loop k).pendingFunctors_.map
      fun p => Frame.functor k p.2) = [] := fun hk =>
    picked_eq_nil fun g hg => by
      by_contra hs
      exact hk (hfunctor g hg hs).1
  constructor
  · have hstack : Handover sel mark T l (s.resume (.loop k) s.shared
        ((s.shared.loop k).pendingFunctors_.map fun p => .functor k p.2) rest) := by
      refine h.resume ht (fun _ => rfl) (fun g hg hs => ?_) (fun hkT g hg => ?_)
        fun hkl => ⟨?_, ?_⟩
      · obtain ⟨rfl, a, rfl⟩ := hfunctor g hg hs
        exact ⟨a, .inr ⟨rfl, .inr rfl⟩⟩
      · refine sel_of_picked_nil (helse fun hk => hT ?_) g (List.mem_of_mem_tail hg)
        rw [← hkT, hk]
      · refine List.pairwise_of_forall_mem_list fun g hg b hb => ?_
        obtain ⟨_, _, rfl⟩ := List.mem_map.mp hg
        obtain ⟨_, _, rfl⟩ := List.mem_map.mp hb
        exact ⟨fun hc => (by cases hc), fun _ => rfl⟩
      · intro g hg b _ hfb
        obtain ⟨_, _, rfl⟩ := List.mem_map.mp hg
        exact ⟨fun hc => (by cases hc), fun _ => hfb.2 (.inl rfl)⟩
    · refine ⟨hstack.stack, fun j q hq hs => ?_, hstack.alone, hstack.under⟩
      rw [Config.resume_shared] at hq
      rcases mem_pending_setLoop hq with hold | ⟨_, hnew⟩
      · exact h.queue j q hold hs
      · rw [he] at hnew
        cases hnew
  · by_cases hk : k = l
    · subst hk
      have hrest : picked sel rest = [] := by
        have hu := h.under
        rw [ht, List.pairwise_cons] at hu
        exact picked_eq_nil fun b hb => (hu.1 b hb).1 rfl
      rw [transit, transit, Config.resume_shared, setLoop_loop_self, he, Config.resume_stack_self,
        Config.resume_stack_of_ne s hT, ht, picked_append, hmoved]
      simp [hrest, show (Frame.doPendingFunctors k : Frame A).sel sel = none from rfl]
    · have hsame : picked sel ((s.shared.loop k).pendingFunctors_.map
          fun p => Frame.functor k p.2) = picked sel [Frame.doPendingFunctors k] := by
        rw [helse hk]
        rfl
      rw [transit, picked_resume ht hsame, picked_resume ht hsame, Config.resume_shared,
        setLoop_loop_of_ne _ (Ne.symm hk)]
      rfl

end Push

/-- Code ran: what it stands for comes off the front on the loop, and what it
hands over goes on at the back. -/
theorem transit_code {a : A} (h : Handover sel mark T l s) (hT : T ≠ .loop l)
    (ht : s.stack t = .code a :: rest)
    (hloop : ∀ k, (x.loop k).pendingFunctors_ = (s.shared.loop k).pendingFunctors_)
    (hnext : t ≠ T → picked sel next = []) :
    (t = .loop l → transit sel T l s =
        (sel a).toList ++ transit sel T l (s.resume t x next rest)) ∧
      (t ≠ .loop l → transit sel T l (s.resume t x next rest) =
        transit sel T l s ++ picked sel next) := by
  constructor
  · rintro rfl
    rw [transit, transit, Config.resume_shared, hloop, Config.resume_stack_self,
      Config.resume_stack_of_ne s hT, ht, picked_append, hnext (Ne.symm hT), picked_cons]
    simp [show (Frame.code a).sel sel = sel a from rfl]
  · intro hl
    have hself : (Frame.code a).sel sel = none := by
      by_contra hs
      obtain ⟨b, ⟨_, he | he⟩ | ⟨he, _⟩⟩ := h.stack t (.code a)
        (by rw [ht]; exact List.mem_cons_self) hs
      · cases he
      · cases he
      · exact hl he
    by_cases htT : t = T
    · subst htT
      have hrest : picked sel rest = [] := by
        have := h.alone
        rw [ht] at this
        exact picked_eq_nil this
      rw [transit, transit, Config.resume_shared, hloop, Config.resume_stack_self,
        Config.resume_stack_of_ne s (Ne.symm hl), ht, picked_append, picked_cons, hself, hrest]
      simp
    · have hsame : picked sel next = picked sel [Frame.code a] := by
        rw [hnext htT]
        simp [hself]
      rw [transit_resume ht hsame hloop, hnext htT, List.append_nil]

theorem isFunctor_of_plain {g : Frame A} (h : g.plain = true) : isFunctor g = false := by
  cases g <;> first | rfl | cases h

/-- Where nothing is picked, everything is in place. -/
theorem handover_none (hstack : ∀ t, ∀ f ∈ s.stack t, f.sel sel = none)
    (hqueue : ∀ k, ∀ q ∈ (s.shared.loop k).pendingFunctors_, q.2.sel sel = none)
    (hmark : ∀ f ∈ s.stack (.loop l), f.marked mark = false) : Handover sel mark T l s where
  stack t f hf hs := absurd (hstack t f hf) hs
  queue k q hq hs := absurd (hqueue k q hq) hs
  alone f hf := hstack T f (List.mem_of_mem_tail hf)
  under := List.pairwise_of_forall_mem_list fun _ _ b hb =>
    ⟨fun _ => hstack _ b hb, fun _ => hmark b hb⟩

/-- A step that takes nothing picked and leaves light frames. -/
theorem Handover.quiet (h : Handover sel mark T l s) (ht : s.stack t = f :: rest)
    (hloop : ∀ k, (x.loop k).pendingFunctors_ = (s.shared.loop k).pendingFunctors_)
    (hsel : f.sel sel = none) (hlight : ∀ g ∈ next, Light sel g) :
    Handover sel mark T l (s.resume t x next rest) ∧
      transit sel T l (s.resume t x next rest) = transit sel T l s := by
  have hp : picked sel next = picked sel [f] := by
    rw [picked_eq_nil fun g hg => (hlight g hg).2.2]
    simp [hsel]
  exact ⟨h.resume ht hloop (fun g hg hs => absurd (hlight g hg).2.2 hs)
    (fun _ g hg => (hlight g (List.mem_of_mem_tail hg)).2.2)
    fun _ => ⟨pairwise_under hlight, fun g hg b _ _ => (hlight g hg).under b⟩,
    transit_resume ht hp hloop⟩

/-- A piece of the loop makes way for frames that nothing has to be kept from. -/
theorem Handover.control (h : Handover sel mark T l s) (ht : s.stack t = f :: rest)
    (hc : control f = true) (hsel : f.sel sel = none)
    (hloop : ∀ k, (x.loop k).pendingFunctors_ = (s.shared.loop k).pendingFunctors_)
    (hnext : ∀ g ∈ next, g.sel sel = none ∧ g.marked mark = false) :
    Handover sel mark T l (s.resume t x next rest) ∧
      transit sel T l (s.resume t x next rest) = transit sel T l s := by
  have hp : picked sel next = picked sel [f] := by
    rw [picked_eq_nil fun g hg => (hnext g hg).1]
    simp [hsel]
  refine ⟨h.resume ht hloop (fun g hg hs => absurd (hnext g hg).1 hs)
    (fun _ g hg => (hnext g (List.mem_of_mem_tail hg)).1) fun _ => ⟨?_, ?_⟩,
    transit_resume ht hp hloop⟩
  · exact List.pairwise_of_forall_mem_list fun _ _ b hb =>
      ⟨fun _ => (hnext b hb).1, fun _ => (hnext b hb).2⟩
  · exact fun _ _ b _ hfb => ⟨fun _ => hfb.1 hc, fun _ => hfb.2 (.inl hc)⟩

/-- Code ran, on any thread: nothing of what it leaves is picked, or it is `T`
handing over. -/
theorem Handover.code {a : A} (h : Handover sel mark T l s) (hT : T ≠ .loop l)
    (ht : s.stack t = .code a :: rest)
    (hloop : ∀ k, (x.loop k).pendingFunctors_ = (s.shared.loop k).pendingFunctors_)
    (hplain : ∀ g ∈ next, g.plain = true)
    (hnext : (∀ g ∈ next, g.sel sel = none) ∨ t = T ∧ ∃ b, next = [.runInLoop l (.code b)]) :
    Handover sel mark T l (s.resume t x next rest) := by
  refine h.resume ht hloop (fun g hg hs => ?_) (fun _ g hg => ?_) fun hl => ?_
  · rcases hnext with hno | ⟨rfl, b, rfl⟩
    · exact absurd (hno g hg) hs
    · exact ⟨b, .inl ⟨rfl, .inl (List.mem_singleton.mp hg)⟩⟩
  · rcases hnext with hno | ⟨_, b, rfl⟩
    · exact hno g (List.mem_of_mem_tail hg)
    · cases hg
  · have hnone : ∀ g ∈ next, g.sel sel = none :=
      hnext.resolve_right fun hr => hT (hr.1 ▸ hl)
    have hlight : ∀ g ∈ next, Light sel g := fun g hg =>
      ⟨control_of_plain (hplain g hg), isFunctor_of_plain (hplain g hg), hnone g hg⟩
    exact ⟨pairwise_under hlight, fun g hg b _ _ => (hlight g hg).under b⟩

theorem handover_step {ch : Choice A Ch} (hs : (code P).step s (t, ch) = some s')
    (hsound : Sound s) (hT : T ≠ .loop l) (h : Handover sel mark T l s)
    (hexec : ∀ {a c x next rest}, s.stack t = .code a :: rest →
      P.exec t a c s.shared.app = some (x, next) →
      (∀ g ∈ next, g.sel sel = none) ∨ t = T ∧ ∃ b, next = [.runInLoop l (.code b)])
    (hpoll : ∀ {k c r}, P.poll k c s.shared.app = some r →
      ∀ b ∈ r.2.getD [], sel b = none ∧ mark b = false)
    (hapi : ∀ {a}, P.api t s.shared.app a = true → sel a = none) :
    Handover sel mark T l s' ∧ Conveys P sel T l t s s' := by
  obtain ⟨f, rest, x, next, ht, hr, rfl⟩ := step_runs hs
  have hmem : f ∈ s.stack t := by
    rw [ht]
    exact List.mem_cons_self
  have hcargo : cargo f = true := hsound.plain.2 t f hmem
  -- Steps that run no code and leave as much picked as they took.
  have hother : (∀ a, f ≠ .code a) →
      Handover sel mark T l (s.resume t x next rest) ∧
        transit sel T l (s.resume t x next rest) = transit sel T l s →
      Handover sel mark T l (s.resume t x next rest) ∧
        Conveys P sel T l t s (s.resume t x next rest) := by
    rintro hf ⟨hh, htr⟩
    refine ⟨hh, .other (fun a r he => hf a ?_) htr⟩
    rw [ht] at he
    exact (List.cons.inj he).1
  cases hr with
  | ret => exact hother (by simp) (h.quiet ht (fun _ => rfl) rfl (by simp))
  | @call a ha =>
      refine hother (by simp) (h.quiet ht (fun _ => rfl) rfl fun g hg => ?_)
      simp only [List.mem_cons, List.not_mem_nil, or_false] at hg
      rcases hg with rfl | rfl
      · exact ⟨rfl, rfl, hapi ha⟩
      · exact ⟨rfl, rfl, rfl⟩
  | callRunInLoop | callQueueInLoop | callQuit =>
      refine hother (by simp) (h.quiet ht (fun _ => rfl) rfl fun g hg => ?_)
      simp only [List.mem_cons, List.not_mem_nil, or_false] at hg
      rcases hg with rfl | rfl <;> exact ⟨rfl, rfl, rfl⟩
  | @code a c x next hx =>
      have hnext := hexec ht hx
      have hnone : t ≠ T → ∀ g ∈ next, g.sel sel = none := fun htT =>
        hnext.resolve_right fun hr => htT hr.1
      have hh : Handover sel mark T l (s.resume t { s.shared with app := x } next rest) :=
        h.code hT ht (fun _ => rfl) (P.exec_plain hx) hnext
      obtain ⟨h1, h2⟩ := transit_code (x := { s.shared with app := x }) h hT ht (fun _ => rfl)
        fun htT => picked_eq_nil (hnone htT)
      exact ⟨hh, .code ht hx (Config.resume_stack_self ..) h1 h2⟩
  | @runHere k cb hk =>
      -- Nothing that is picked is handed to its own thread.
      have hsel : cb.sel sel = none := by
        by_contra hs
        obtain ⟨a, ⟨rfl, he | he⟩ | ⟨_, he | he⟩⟩ := h.stack t _ hmem hs <;> cases he
        exact hT hk
      refine hother (by simp) (h.quiet ht (fun _ => rfl) hsel fun g hg => ?_)
      rw [List.mem_singleton.mp hg]
      exact ⟨control_of_plain hcargo, isFunctor_of_plain hcargo, hsel⟩
  | @runThere k cb =>
      refine hother (by simp) ⟨h.resume ht (fun _ => rfl) (fun g hg hs => ?_)
        (fun _ g hg => by cases hg) fun hl => ⟨List.pairwise_singleton .., fun g hg b _ _ => ?_⟩,
        transit_resume ht (by simp; rfl) fun _ => rfl⟩
      · rw [List.mem_singleton.mp hg] at hs ⊢
        obtain ⟨a, ⟨rfl, he | he⟩ | ⟨_, he | he⟩⟩ := h.stack t _ hmem hs <;> cases he
        exact ⟨a, .inl ⟨rfl, .inr rfl⟩⟩
      · rw [List.mem_singleton.mp hg]
        refine Light.under ⟨rfl, rfl, ?_⟩ b
        by_contra hs
        obtain ⟨a, ⟨htT, he | he⟩ | ⟨_, he | he⟩⟩ := h.stack t _ hmem hs <;> cases he
        exact hT (htT ▸ hl)
  | queueHere => exact hother (by simp) (h.push hT ht (by simp))
  | queueThere =>
      refine hother (by simp) (h.push hT ht fun g hg => ?_)
      rw [List.mem_singleton.mp hg]
      exact ⟨rfl, rfl, rfl⟩
  | wakeup | quitHere | leave | handleWakeup =>
      exact hother (by simp) (h.quiet ht (fun k => setLoop_pending (by rfl) k) rfl (by simp))
  | quitThere =>
      refine hother (by simp) (h.quiet ht (fun k => setLoop_pending (by rfl) k) rfl fun g hg => ?_)
      rw [List.mem_singleton.mp hg]
      exact ⟨rfl, rfl, rfl⟩
  | loop | clearQuit =>
      refine hother (by simp) (h.control ht rfl rfl (fun k => setLoop_pending (by rfl) k) ?_)
      intro g hg
      rw [List.mem_singleton.mp hg]
      exact ⟨rfl, rfl⟩
  | iterate =>
      refine hother (by simp) (h.control ht rfl rfl (fun _ => rfl) fun g hg => ?_)
      rw [List.mem_singleton.mp hg]
      exact ⟨rfl, rfl⟩
  | polling =>
      refine hother (by simp) (h.control ht rfl rfl (fun _ => rfl) fun g hg => ?_)
      rw [List.mem_singleton.mp hg]
      exact ⟨rfl, rfl⟩
  | polled hx =>
      refine hother (by simp) (h.control ht rfl rfl (fun _ => rfl) fun g hg => ?_)
      rcases mem_iteration hg with ⟨b, hb, rfl⟩ | rfl | rfl | rfl
      · exact hpoll hx b hb
      all_goals exact ⟨rfl, rfl⟩
  | @doPendingFunctors k =>
      obtain ⟨rfl, _⟩ := hsound.doPendingFunctors_top ht
      exact hother (by simp) (h.swap hT ht rfl)
  | @functor k cb =>
      have hp : cb.plain = true := hcargo
      refine hother (by simp) ⟨h.resume ht (fun _ => rfl) (fun g hg hs => ?_)
        (fun _ g hg => by cases hg) fun hl => ⟨List.pairwise_singleton .., fun g hg b _ hfb => ?_⟩,
        transit_resume ht (by simp; rfl) fun _ => rfl⟩
      · rw [List.mem_singleton.mp hg] at hs ⊢
        obtain ⟨a, ⟨_, he | he⟩ | ⟨rfl, he | he⟩⟩ := h.stack t _ hmem hs <;> cases he
        exact ⟨a, .inr ⟨rfl, .inl rfl⟩⟩
      · rw [List.mem_singleton.mp hg]
        refine ⟨fun hc => ?_, fun _ => hfb.2 (.inr (.inl rfl))⟩
        rw [control_of_plain hp] at hc
        cases hc

end Reactor

end Muduox.Net
