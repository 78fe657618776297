import Mathlib.Logic.Function.Iterate
import Muduox.Lib.Threads

/-!
# Infinite runs

That something happens in the end is a statement about runs which never stop,
and it needs an assumption about what keeps happening in them. A run here
(`Lts.RunIf`) starts anywhere a run may have come to, and each of its steps
meets a condition. Two rules take it forward: what is lost between two states
is lost in some step between them (`exists_lost`), and a number that cannot
stand still grows (`grows`), again and again until it gets anywhere (`climbs`).
For threads the first says that a frame leaves a stack by being run
(`exists_runsAt`).

A strategy that always finds a step makes an infinite run (`exists_runIf`).
-/

namespace Lts

variable {σ α : Type*} {M : Lts σ α} {C : σ → α → Prop}

/-- A run without an end, from a state that runs reach. -/
structure RunIf (M : Lts σ α) (C : σ → α → Prop) where
  state : ℕ → σ
  label : ℕ → α
  init : ReachIf M C (state 0)
  meets : ∀ n, C (state n) (label n)
  step : ∀ n, M.step (state n) (label n) = some (state (n + 1))

/-- A run without an end that meets no condition in particular. -/
abbrev Run (M : Lts σ α) := RunIf M fun _ _ => True

namespace RunIf

variable (r : RunIf M C) {n m : ℕ}

theorem reachIf (n : ℕ) : ReachIf M C (r.state n) := by
  induction n with
  | zero => exact r.init
  | succ n ih => exact ih.step (r.meets n) (r.step n)

/-- What every step keeps holds from then on. -/
theorem keeps {I : σ → Prop} (hstep : ∀ k, n ≤ k → I (r.state k) → I (r.state (k + 1)))
    (h : I (r.state n)) (hnm : n ≤ m) : I (r.state m) := by
  induction hnm with
  | refl => exact h
  | step hk ih => exact hstep _ hk ih

/-- What no longer holds was lost in one of the steps. -/
theorem exists_lost {I : σ → Prop} (h : I (r.state n)) (hnm : n ≤ m) (hm : ¬ I (r.state m)) :
    ∃ k, n ≤ k ∧ I (r.state k) ∧ ¬ I (r.state (k + 1)) := by
  by_contra hno
  refine hm (r.keeps (fun k hk hI => ?_) h hnm)
  by_contra hlost
  exact hno ⟨k, hk, hI, hlost⟩

/-- At step `n` or later `Q` holds once. -/
def Eventually (r : RunIf M C) (n : ℕ) (Q : σ → Prop) : Prop := ∃ m, n ≤ m ∧ Q (r.state m)

/-- Stages follow one another. -/
theorem Eventually.bind {r : RunIf M C} {Q R : σ → Prop} (h : r.Eventually n Q)
    (hQ : ∀ m, n ≤ m → Q (r.state m) → r.Eventually m R) : r.Eventually n R := by
  obtain ⟨m, hm, hq⟩ := h
  obtain ⟨k, hk, hr⟩ := hQ m hm hq
  exact ⟨k, Nat.le_trans hm hk, hr⟩

/-- A number that never falls grows if it cannot stand still. -/
theorem grows {v : σ → ℕ} (hmono : ∀ {m k}, m ≤ k → v (r.state m) ≤ v (r.state k))
    (h : (∀ m, n ≤ m → v (r.state m) ≤ v (r.state n)) →
      ∃ m, n ≤ m ∧ v (r.state m) < v (r.state (m + 1))) :
    ∃ k, n ≤ k ∧ v (r.state n) < v (r.state k) := by
  by_contra hno
  have hstays : ∀ m, n ≤ m → v (r.state m) ≤ v (r.state n) := fun m hm =>
    Nat.not_lt.mp fun hlt => hno ⟨m, hm, hlt⟩
  obtain ⟨m, hm, hlt⟩ := h hstays
  exact hno ⟨m + 1, Nat.le_succ_of_le hm, Nat.lt_of_le_of_lt (hmono hm) hlt⟩

/-- A number that grows whenever it is below `B` gets there. -/
theorem climbs {v : σ → ℕ} {B : ℕ} (h : ∀ m, n ≤ m → v (r.state m) < B →
    ∃ k, m ≤ k ∧ v (r.state m) < v (r.state k)) : r.Eventually n fun s => B ≤ v s := by
  have hfrom : ∀ d m, n ≤ m → B ≤ v (r.state m) + d → r.Eventually m fun s => B ≤ v s := by
    intro d
    induction d with
    | zero => exact fun m _ hd => ⟨m, Nat.le_refl _, hd⟩
    | succ d ih =>
        intro m hm hd
        by_cases hlt : v (r.state m) < B
        · obtain ⟨k, hk, hgrows⟩ := h m hm hlt
          obtain ⟨i, hi, hB⟩ := ih k (by omega) (by omega)
          exact ⟨i, by omega, hB⟩
        · exact ⟨m, Nat.le_refl _, Nat.not_lt.mp hlt⟩
  exact hfrom B n (Nat.le_refl _) (Nat.le_add_left _ _)

/-- A run with a step before it. -/
def cons {s : σ} {a : α} (hs : ReachIf M C s) (ha : C s a)
    (hstep : M.step s a = some (r.state 0)) : RunIf M C where
  state
    | 0 => s
    | n + 1 => r.state n
  label
    | 0 => a
    | n + 1 => r.label n
  init := hs
  meets
    | 0 => ha
    | n + 1 => r.meets n
  step
    | 0 => hstep
    | n + 1 => r.step n

/-- A run that goes on from where a schedule ends. -/
theorem exists_append [∀ s a, Decidable (C s a)] {as : List α} : ∀ {s : σ}, ReachIf M C s →
    M.runIf C s as = some (r.state 0) → ∃ (q : RunIf M C) (N : ℕ), q.state 0 = s ∧
      (∀ a ∈ as.head?, q.label 0 = a) ∧
        ∀ n, q.state (N + n) = r.state n ∧ q.label (N + n) = r.label n := by
  induction as with
  | nil =>
      intro s _ hrun
      rw [runIf, Option.some.injEq] at hrun
      exact ⟨r, 0, hrun.symm, by simp, fun n => by rw [Nat.zero_add]; exact ⟨rfl, rfl⟩⟩
  | cons a as ih =>
      intro s hs hrun
      rw [runIf] at hrun
      split at hrun
      · next ha =>
          obtain ⟨x, hx, hrun⟩ := Option.bind_eq_some_iff.mp hrun
          obtain ⟨q, N, hq, -, hsuffix⟩ := ih (hs.step ha hx) hrun
          refine ⟨q.cons hs ha (by rw [hq]; exact hx), N + 1, rfl, ?_, fun n => ?_⟩
          · rintro b ⟨⟩
            rfl
          rw [Nat.add_right_comm]
          exact hsuffix n
      · cases hrun

end RunIf

/-- A strategy that finds a step wherever `I` holds, and keeps `I`, never ends. -/
theorem exists_runIf {I : σ → Prop} (pick : σ → α)
    (hpick : ∀ s, I s → C s (pick s) ∧ ∃ s', M.step s (pick s) = some s' ∧ I s') {s : σ}
    (hr : ReachIf M C s) (hs : I s) :
    ∃ r : RunIf M C, r.state 0 = s ∧ (∀ n, I (r.state n)) ∧ ∀ n, r.label n = pick (r.state n) := by
  let next : {x // I x} → {x // I x} := fun x =>
    ⟨(hpick x.1 x.2).2.choose, (hpick x.1 x.2).2.choose_spec.2⟩
  let state : ℕ → {x // I x} := fun n => next^[n] ⟨s, hs⟩
  refine ⟨⟨fun n => (state n).1, fun n => pick (state n).1, hr,
    fun n => (hpick _ (state n).2).1, fun n => ?_⟩, rfl, fun n => (state n).2, fun _ => rfl⟩
  have hsucc : state (n + 1) = next (state n) := Function.iterate_succ_apply' next n _
  rw [hsucc]
  exact (hpick _ (state n).2).2.choose_spec.1

end Lts

namespace Threads

variable {ι F α σ : Type*} [DecidableEq ι] {C : Code ι F α σ} {init : Config ι F σ → Prop}
  {K : Config ι F σ → ι × α → Prop}

/-- What a step takes off a stack is the frame it ran. -/
theorem Code.ran_of_lost {s s' : Config ι F σ} {a : ι × α} {t : ι} {f : F}
    (hs : C.step s a = some s') (hf : f ∈ s.stack t) (hno : f ∉ s'.stack t) :
    a.1 = t ∧ ∃ rest, s.stack t = f :: rest := by
  obtain ⟨g, rest, x, next, hu, -, rfl⟩ := Code.step_eq_some.mp hs
  have heq : g = f ∧ a.1 = t := by
    by_contra hne
    refine hno (Config.mem_resume hu hf ?_)
    by_cases hfg : f = g
    · exact .inr fun ht => hne ⟨hfg.symm, ht.symm⟩
    · exact .inl hfg
  obtain ⟨rfl, ht⟩ := heq
  rw [ht] at hu
  exact ⟨ht, rest, hu⟩

/-- In step `n` thread `t` runs frame `f`. -/
def RunsAt (r : (C.lts init).RunIf K) (n : ℕ) (t : ι) (f : F) : Prop :=
  (r.label n).1 = t ∧ ∃ rest, (r.state n).stack t = f :: rest

/-- A frame that is gone from a stack was run. -/
theorem exists_runsAt (r : (C.lts init).RunIf K) {n m : ℕ} {t : ι} {f : F}
    (hf : f ∈ (r.state n).stack t) (hnm : n ≤ m) (hm : f ∉ (r.state m).stack t) :
    ∃ k, n ≤ k ∧ RunsAt r k t f := by
  obtain ⟨k, hk, hin, hout⟩ := r.exists_lost (I := fun s => f ∈ s.stack t) hf hnm hm
  exact ⟨k, hk, Code.ran_of_lost (r.step k) hin hout⟩

/-- What running a frame leaves. -/
theorem RunsAt.step {r : (C.lts init).RunIf K} {n : ℕ} {t : ι} {f : F} (h : RunsAt r n t f) :
    ∃ rest x next, (r.state n).stack t = f :: rest ∧
      C.exec t f (r.label n).2 (r.state n).shared = some (x, next) ∧
      r.state (n + 1) = (r.state n).resume t x next rest := by
  obtain ⟨ht, rest, hst⟩ := h
  obtain ⟨g, rest', x, next, hu, hx, hs⟩ := Code.step_eq_some.mp (r.step n)
  rw [ht] at hu hx hs
  rw [hst] at hu
  cases hu
  exact ⟨rest, x, next, hst, hx, hs⟩

end Threads
