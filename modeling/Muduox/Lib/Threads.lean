import Mathlib.Logic.Function.Basic
import Muduox.Lib.Lts

/-!
# Threads with explicit stacks over a shared state

Code is cut at the points where another thread may interleave, and each piece
between two such points is a *frame*. A thread is the stack of frames it still
has to run; a step takes the top frame of one thread, runs it against the
shared state, and puts whatever the piece calls or leaves to do on top of the
rest. Everything the environment decides is the label.

Two rules are proved once. `Code.step_eq_some` says what a step is, and
`Holds.step` reduces an invariant made of a fact about the shared state and a
fact about each frame on each stack to the frame that runs: it has to
reestablish the former, establish the latter for what it pushes, and leave it
alone for everyone else.
-/

namespace Threads

/-- Frames and what they do: the frame's outcome under a choice of the
environment is a new shared state and the frames to run next. -/
structure Code (ι F α σ : Type*) where
  exec : ι → F → α → σ → Option (σ × List F)

/-- Every thread's stack, and the state they share. -/
structure Config (ι F σ : Type*) where
  shared : σ
  stack : ι → List F

variable {ι F α σ : Type*}

/-- The facts a configuration satisfies: `I` of the shared state, `J` of every
frame still to run. -/
def Holds (I : σ → Prop) (J : ι → F → σ → Prop) (s : Config ι F σ) : Prop :=
  I s.shared ∧ ∀ t, ∀ f ∈ s.stack t, J t f s.shared

variable [DecidableEq ι]

/-- Replace the top frame of thread `t` by `next`. -/
def Config.resume (s : Config ι F σ) (t : ι) (shared : σ) (next rest : List F) :
    Config ι F σ :=
  ⟨shared, Function.update s.stack t (next ++ rest)⟩

@[simp] theorem Config.resume_shared (s : Config ι F σ) (t : ι) (x : σ)
    (next rest : List F) : (s.resume t x next rest).shared = x := rfl

@[simp] theorem Config.resume_stack_self (s : Config ι F σ) (t : ι) (x : σ)
    (next rest : List F) : (s.resume t x next rest).stack t = next ++ rest :=
  Function.update_self ..

theorem Config.resume_stack_of_ne (s : Config ι F σ) {t u : ι} (h : u ≠ t) (x : σ)
    (next rest : List F) : (s.resume t x next rest).stack u = s.stack u :=
  Function.update_of_ne h ..

/-- A frame that is not the one that ran is still where it was. -/
theorem Config.mem_resume {s : Config ι F σ} {t u : ι} {x : σ} {f g : F}
    {next rest : List F} (ht : s.stack t = f :: rest) (hg : g ∈ s.stack u)
    (hne : g ≠ f ∨ u ≠ t) : g ∈ (s.resume t x next rest).stack u := by
  by_cases hu : u = t
  · subst hu
    rw [ht] at hg
    rw [resume_stack_self]
    have hgf : g ≠ f := hne.resolve_right (fun h => h rfl)
    exact List.mem_append_right _ ((List.mem_cons.mp hg).resolve_left hgf)
  · rw [resume_stack_of_ne s hu]
    exact hg

/-- A frame on a stack after a step was pushed by it or was there before. -/
theorem Config.mem_of_mem_resume {s : Config ι F σ} {t u : ι} {x : σ} {f g : F}
    {next rest : List F} (ht : s.stack t = f :: rest)
    (hg : g ∈ (s.resume t x next rest).stack u) :
    (u = t ∧ g ∈ next) ∨ g ∈ s.stack u := by
  by_cases hu : u = t
  · subst hu
    rw [resume_stack_self] at hg
    rcases List.mem_append.mp hg with h | h
    · exact .inl ⟨rfl, h⟩
    · exact .inr (by rw [ht]; exact List.mem_cons_of_mem _ h)
  · rw [resume_stack_of_ne s hu] at hg
    exact .inr hg

/-- Thread `a.1` runs its top frame, the environment choosing `a.2`. -/
def Code.step (C : Code ι F α σ) (s : Config ι F σ) (a : ι × α) : Option (Config ι F σ) :=
  match s.stack a.1 with
  | [] => none
  | f :: rest => (C.exec a.1 f a.2 s.shared).map fun r => s.resume a.1 r.1 r.2 rest

/-- The system of all interleavings. -/
def Code.lts (C : Code ι F α σ) (init : Config ι F σ → Prop) : Lts (Config ι F σ) (ι × α) :=
  ⟨init, C.step⟩

variable {C : Code ι F α σ} {s s' : Config ι F σ}

/-- What a step is: a top frame, its outcome, and the stack it leaves. -/
theorem Code.step_eq_some {t : ι} {a : α} :
    C.step s (t, a) = some s' ↔
      ∃ f rest x next, s.stack t = f :: rest ∧ C.exec t f a s.shared = some (x, next) ∧
        s' = s.resume t x next rest := by
  constructor
  · intro h
    unfold step at h
    split at h
    · cases h
    · next f rest ht =>
        obtain ⟨⟨x, next⟩, hx, hs'⟩ := Option.map_eq_some_iff.mp h
        exact ⟨f, rest, x, next, ht, hx, hs'.symm⟩
  · rintro ⟨f, rest, x, next, ht, hx, rfl⟩
    have ht' : s.stack (t, a).1 = f :: rest := ht
    simp only [step, ht', hx, Option.map_some]

/-- The rule for an invariant made of a fact about the shared state and one
about each frame: only the frame that runs has anything to prove. -/
theorem Holds.step {I : σ → Prop} {J : ι → F → σ → Prop} {t : ι} {a : α}
    (h : Holds I J s) (hs : C.step s (t, a) = some s')
    (hexec : ∀ f rest x next, s.stack t = f :: rest →
      C.exec t f a s.shared = some (x, next) → I s.shared → J t f s.shared →
      I x ∧ (∀ g ∈ next, J t g x) ∧ ∀ u g, J u g s.shared → J u g x) :
    Holds I J s' := by
  obtain ⟨f, rest, x, next, ht, hx, rfl⟩ := Code.step_eq_some.mp hs
  have hf : J t f s.shared := h.2 t f (by rw [ht]; exact List.mem_cons_self)
  obtain ⟨hI, hnext, hkeep⟩ := hexec f rest x next ht hx h.1 hf
  refine ⟨hI, fun u g hg => ?_⟩
  rcases Config.mem_of_mem_resume ht hg with ⟨rfl, hnew⟩ | hold
  · exact hnext g hnew
  · exact hkeep u g (h.2 u g hold)

end Threads
