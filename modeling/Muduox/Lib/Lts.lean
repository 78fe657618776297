import Mathlib.Logic.Relation

/-!
# Labelled transition systems whose steps compute

A system is a predicate on initial states and a step function: the label names
everything the environment decides, so a step either has exactly one outcome or
does not exist. What such systems are for here is one kind of statement, a
property of every state of every run, and one refinement of it: a property of
every state of every run *whose steps all meet a condition*. Both are the same
induction, so `ReachIf` carries the condition and `Reach` is its trivial case.

A run can also be computed. `runIf` folds a list of labels and refuses at the
first step that misses the condition or has no outcome; what it reaches is
`ReachIf` (`reachIf_of_runIf`), which is how a concrete schedule becomes a
statement about the system.
-/

/-- A transition system: who may start, and what a label does to a state. -/
structure Lts (σ α : Type*) where
  init : σ → Prop
  step : σ → α → Option σ

namespace Lts

variable {σ α : Type*} {M : Lts σ α}

/-- The states a run reaches when each of its steps meets `C`. -/
inductive ReachIf (M : Lts σ α) (C : σ → α → Prop) : σ → Prop
  | init {s : σ} : M.init s → ReachIf M C s
  | step {s s' : σ} {a : α} :
      ReachIf M C s → C s a → M.step s a = some s' → ReachIf M C s'

/-- The states any run reaches. -/
def Reach (M : Lts σ α) : σ → Prop := ReachIf M fun _ _ => True

/-- A condition may be weakened along a run. -/
theorem ReachIf.mono {C D : σ → α → Prop} (hCD : ∀ s a, C s a → D s a) {s : σ}
    (h : ReachIf M C s) : ReachIf M D s := by
  induction h with
  | init hs => exact .init hs
  | step _ hc hs ih => exact .step ih (hCD _ _ hc) hs

/-- A run that meets a condition is a run. -/
theorem ReachIf.reach {C : σ → α → Prop} {s : σ} (h : ReachIf M C s) : M.Reach s :=
  h.mono fun _ _ _ => trivial

theorem Reach.init {s : σ} (h : M.init s) : M.Reach s := ReachIf.init h

theorem Reach.step {s s' : σ} {a : α} (h : M.Reach s) (hs : M.step s a = some s') :
    M.Reach s' := ReachIf.step h trivial hs

/-- The invariant rule: what holds at the start and survives every step that
meets the condition holds of everything such runs reach. -/
theorem ReachIf.inv {C : σ → α → Prop} {I : σ → Prop} (hinit : ∀ s, M.init s → I s)
    (hstep : ∀ s a s', I s → C s a → M.step s a = some s' → I s') {s : σ}
    (h : ReachIf M C s) : I s := by
  induction h with
  | init hs => exact hinit _ hs
  | step _ hc hs ih => exact hstep _ _ _ ih hc hs

/-- The invariant rule with an invariant that is already known to hold along
the run at hand: each step may use both. -/
theorem ReachIf.inv_of {C : σ → α → Prop} {K I : σ → Prop}
    (hK : ∀ s, ReachIf M C s → K s) (hinit : ∀ s, M.init s → I s)
    (hstep : ∀ s a s', K s → I s → C s a → M.step s a = some s' → I s') {s : σ}
    (h : ReachIf M C s) : I s := by
  induction h with
  | init hs => exact hinit _ hs
  | step hr hc hs ih => exact hstep _ _ _ (hK _ hr) ih hc hs

/-- The invariant rule for unconditioned runs. -/
theorem Reach.inv {I : σ → Prop} (hinit : ∀ s, M.init s → I s)
    (hstep : ∀ s a s', I s → M.step s a = some s' → I s') {s : σ} (h : M.Reach s) :
    I s :=
  ReachIf.inv hinit (fun s a s' hI _ hs => hstep s a s' hI hs) h

/-- The system with a record of what its runs do, which no step reads. -/
def recording {γ : Type*} (M : Lts σ α) (note : σ → α → γ → γ) (g : γ) : Lts (σ × γ) α where
  init p := M.init p.1 ∧ p.2 = g
  step p a := (M.step p.1 a).map fun s => (s, note p.1 a p.2)

/-- What a recorded run reaches without its record. -/
theorem ReachIf.recorded {γ : Type*} {note : σ → α → γ → γ} {g : γ} {C : σ → α → Prop} {p : σ × γ}
    (h : (M.recording note g).ReachIf (fun p => C p.1) p) : ReachIf M C p.1 := by
  induction h with
  | init hp => exact .init hp.1
  | step _ hc hp ih =>
      obtain ⟨s, hs, rfl⟩ := Option.map_eq_some_iff.mp hp
      exact ih.step hc hs

/-- Follow a list of labels, refusing at the first step that misses `C`. -/
def runIf (M : Lts σ α) (C : σ → α → Prop) [∀ s a, Decidable (C s a)] :
    σ → List α → Option σ
  | s, [] => some s
  | s, a :: as =>
      if C s a then (M.step s a).bind fun s' => runIf M C s' as else none

/-- Follow a list of labels. -/
def run (M : Lts σ α) : σ → List α → Option σ := M.runIf fun _ _ => True

theorem ReachIf.of_runIf {C : σ → α → Prop} [∀ s a, Decidable (C s a)] {as : List α} :
    ∀ {s s' : σ}, ReachIf M C s → M.runIf C s as = some s' → ReachIf M C s' := by
  induction as with
  | nil =>
      intro s s' h hr
      rw [runIf, Option.some.injEq] at hr
      exact hr ▸ h
  | cons a as ih =>
      intro s s' h hr
      rw [runIf] at hr
      split at hr
      · next hc =>
          obtain ⟨s₁, hs, hr⟩ := Option.bind_eq_some_iff.mp hr
          exact ih (.step h hc hs) hr
      · cases hr

/-- A property that a step keeps exactly when it meets `C`, and that never comes
back once it is lost: it holds at the end of a run iff each step of the run met
`C`. The runs are those whose steps meet `D`, along which `K` is known. -/
theorem runIf_iff {C D : σ → α → Prop} [∀ s a, Decidable (C s a)] [∀ s a, Decidable (D s a)]
    {K Q : σ → Prop} (hK : ∀ s a s', K s → D s a → M.step s a = some s' → K s')
    (hQ : ∀ s a s', K s → D s a → M.step s a = some s' → (Q s' ↔ Q s ∧ C s a))
    {as : List α} : ∀ {s s' : σ}, K s → M.runIf D s as = some s' →
      (Q s' ↔ Q s ∧ (M.runIf C s as).isSome) := by
  induction as with
  | nil =>
      intro s s' _ hr
      rw [runIf, Option.some.injEq] at hr
      simp [hr, runIf]
  | cons a as ih =>
      intro s s' hk hr
      rw [runIf] at hr
      split at hr
      · next hd =>
          obtain ⟨s₁, hs, hr⟩ := Option.bind_eq_some_iff.mp hr
          have hrest := ih (hK s a s₁ hk hd hs) hr
          have hone := hQ s a s₁ hk hd hs
          by_cases hc : C s a
          · rw [hrest, hone, runIf, if_pos hc, hs, Option.bind_some]
            simp only [hc, and_true]
          · rw [hrest, hone, runIf, if_neg hc]
            simp [hc]
      · cases hr

/-- The states a list of labels passes through. -/
def trace (M : Lts σ α) : σ → List α → List σ
  | s, [] => [s]
  | s, a :: as => s :: ((M.step s a).map fun s' => trace M s' as).getD []

/-- A property that a step keeps exactly when it meets `C`: a run passes only
through states with the property iff each of its steps meets `C`. -/
theorem forall_trace_iff {C : σ → α → Prop} [∀ s a, Decidable (C s a)] {K Q : σ → Prop}
    (hK : ∀ s a s', K s → M.step s a = some s' → K s')
    (hQ : ∀ s a s', K s → Q s → M.step s a = some s' → (Q s' ↔ C s a)) {as : List α} :
    ∀ {s s' : σ}, K s → Q s → M.run s as = some s' →
      ((∀ x ∈ M.trace s as, Q x) ↔ (M.runIf C s as).isSome) := by
  have hstart : ∀ {as : List α} {s : σ}, s ∈ M.trace s as := by
    intro as s
    cases as <;> exact List.mem_cons_self
  induction as with
  | nil =>
      intro s s' _ hq _
      simp [trace, runIf, hq]
  | cons a as ih =>
      intro s s' hk hq hr
      rw [run, runIf, if_pos trivial] at hr
      obtain ⟨s₁, hs, hr⟩ := Option.bind_eq_some_iff.mp hr
      have hone := hQ s a s₁ hk hq hs
      rw [trace, hs, Option.map_some, Option.getD_some, List.forall_mem_cons, runIf, hs,
        Option.bind_some]
      by_cases hc : C s a
      · rw [if_pos hc, ih (hK s a s₁ hk hs) (hone.mpr hc) hr]
        exact ⟨And.right, fun h => ⟨hq, h⟩⟩
      · rw [if_neg hc]
        exact ⟨fun h => absurd (hone.mp (h.2 s₁ hstart)) hc, fun h => by simp at h⟩

/-- A schedule that was computed, and whose outcome passes a test, is a
reachable state that passes it. -/
theorem exists_reachIf (M : Lts σ α) (C : σ → α → Prop) [∀ s a, Decidable (C s a)] {x : σ}
    (as : List α) (p : σ → Bool) (hinit : M.init x) (h : (M.runIf C x as).any p = true) :
    ∃ s, ReachIf M C s ∧ p s = true := by
  cases hs : M.runIf C x as with
  | none =>
      rw [hs] at h
      cases h
  | some s =>
      rw [hs] at h
      exact ⟨s, (ReachIf.init hinit).of_runIf hs, h⟩

theorem exists_reach (M : Lts σ α) {x : σ} (as : List α) (p : σ → Bool) (hinit : M.init x)
    (h : (M.run x as).any p = true) : ∃ s, M.Reach s ∧ p s = true :=
  exists_reachIf M (fun _ _ => True) as p hinit h

end Lts
