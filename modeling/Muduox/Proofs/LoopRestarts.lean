import Muduox.Net.LoopOwner

/-!
# The loop that `startLoop` returns

The wait in `startLoop` is for `loop_` not to be null, and `stop` leaves the loop
of the thread it joins where it was. So only the first `startLoop` waits for the
thread it spawned; a later one may return the old loop, which the new thread
then destroys. It returns the running loop exactly when that thread has
assigned `loop_` by then (`Published`), and from there on nothing changes until
the next call.
-/

namespace Muduox.Net

namespace LoopOwner

/-- The loops that a spawned thread runs in its phase. -/
def runs : ThreadFunc → Option Nat
  | .clearQuit l | .whileNotQuit l => some l
  | _ => none

/-- What `startLoop` has returned is the loop of the spawned thread. -/
structure Running (s : LoopOwner) (loop : Option Nat) : Prop where
  nonnull : loop ≠ none
  /-- `getLoop()`. -/
  getLoop : s.loop_ = loop
  own : s.own = loop
  runs : ∀ x ∈ s.thread_, ∀ l ∈ runs x, loop = some l
  alive : ∀ l ∈ loop, l ∉ s.destroyed

/-- What the last `startLoop` returned, if it has, is running. -/
def Good (s : LoopOwner) : Prop := ∀ loop ∈ s.returned, s.Running loop

/-- Where `startLoop` returns, the spawned thread has assigned `loop_`. -/
def Published (s : LoopOwner) : OwnerCall → Prop
  | .owner => s.owner = .returnLoop → ∀ x ∈ s.thread_, x.unpublished = false
  | _ => True

instance (s : LoopOwner) (a : OwnerCall) : Decidable (s.Published a) := by
  cases a <;> unfold Published <;> infer_instance

/-- Whose loop `loop_` is, by the phase of the thread. -/
structure Kept (s : LoopOwner) : Prop where
  current : ∀ l ∈ s.loop_, l < s.constructed ∧ l ∉ s.destroyed
  destroyed : ∀ l ∈ s.destroyed, l < s.constructed
  construct : s.thread_ = some .construct → s.own = none
  publish : ∀ l, s.thread_ = some (.publish l) → s.own = some l ∧ s.loop_ ≠ some l ∧
    l < s.constructed ∧ l ∉ s.destroyed
  published : (∀ x ∈ s.thread_, x.unpublished = false) → s.own = s.loop_
  /-- A thread that is past the assignment found `loop_` set. -/
  runs : ∀ x ∈ s.thread_, x.unpublished = false → s.loop_ ≠ none ∧ ∀ l ∈ runs x, s.loop_ = some l
  /-- In `startLoop` there is a thread, and nothing returned yet. -/
  starting : s.owner = .wait ∨ s.owner = .blocked ∨ s.owner = .returnLoop →
    s.thread_ ≠ none ∧ s.returned = none

section Step

variable {s s' : LoopOwner}

/-- Only the owner's place changes, and it is not in `startLoop` unless it was. -/
theorem Kept.setOwner (h : Kept s) {o : OwnerCode}
    (ho : o = .wait ∨ o = .blocked ∨ o = .returnLoop → s.thread_ ≠ none ∧ s.returned = none) :
    Kept { s with owner := o } :=
  { h with starting := ho }

theorem kept_startLoop (h : Kept s) : Kept s.startLoop := by
  unfold startLoop
  split
  · next hsome =>
      exact { h with starting := fun _ => ⟨by simpa [Option.isSome_iff_ne_none] using hsome, rfl⟩ }
  · exact
      { h with
        construct := fun _ => rfl
        publish := fun l hl => by cases hl
        published := fun hno => absurd (hno .construct rfl) (by decide)
        runs := fun x hx hno => by cases hx; cases hno
        starting := fun _ => ⟨by simp, rfl⟩ }

theorem kept_owner (h : Kept s) (hs : s.runOwner = some s') : Kept s' := by
  unfold runOwner at hs
  cases ho : s.owner with
  | user | blocked => simp [ho] at hs
  | wait =>
      simp only [ho, Option.some.injEq] at hs
      subst hs
      exact h.setOwner fun _ => h.starting (.inl ho)
  | returnLoop =>
      simp only [ho, Option.some.injEq] at hs
      subst hs
      exact { h with starting := by simp }
  | quit =>
      simp only [ho] at hs
      split at hs
      · cases hs
        exact { h with starting := by simp }
      · cases hs
        exact h.setOwner (by simp)
  | join =>
      simp only [ho] at hs
      split at hs
      · cases hs
        exact h.setOwner (by simp)
      · next hthread =>
          cases hs
          have hown := h.published fun x hx => by
            rw [hthread] at hx
            cases hx
            rfl
          exact
            { h with
              construct := fun hno => by cases hno
              publish := fun l hno => by cases hno
              published := fun _ => hown
              runs := fun x hno => by cases hno
              starting := by simp }
      · cases hs

/-- The thread goes on from the assignment to `loop_`, with the loop it put there. -/
theorem Kept.setThread (h : Kept s) {x y : ThreadFunc} (hx : s.thread_ = some x)
    (hpast : x.unpublished = false) (hy : y.unpublished = false)
    (hruns : ∀ l ∈ LoopOwner.runs y, s.loop_ = some l) : Kept { s with thread_ := some y } := by
  have hown := h.published fun z hz => by
    rw [hx] at hz
    cases hz
    exact hpast
  refine
    { h with
      construct := fun hno => ?_
      publish := fun l hno => ?_
      published := fun _ => hown
      runs := fun z hz _ => ?_
      starting := fun ho => ⟨by simp, (h.starting ho).2⟩ }
  · cases hno
    cases hy
  · cases hno
    cases hy
  · cases hz
    exact ⟨(h.runs x (by rw [hx]; rfl) hpast).1, hruns⟩

theorem kept_thread {asked : Bool} (h : Kept s) (hs : s.runThread asked = some s') : Kept s' := by
  unfold runThread at hs
  split at hs
  · cases hs
  · cases hs
  · next hx =>
      cases hs
      have hfresh : ∀ l ∈ s.loop_, l ≠ s.constructed := fun l hl => Nat.ne_of_lt (h.current l hl).1
      refine
        { current := fun l hl => ?_
          destroyed := fun l hl => Nat.lt_succ_of_lt (h.destroyed l hl)
          construct := fun hno => by cases hno
          publish := fun l hl => ?_
          published := fun hno => absurd (hno _ rfl) (by simp [ThreadFunc.unpublished])
          runs := fun x hx hno => by cases hx; cases hno
          starting := fun ho => ⟨by simp, (h.starting ho).2⟩ }
      · exact ⟨Nat.lt_succ_of_lt (h.current l hl).1, (h.current l hl).2⟩
      · cases hl
        exact ⟨rfl, fun hno => hfresh _ hno rfl, Nat.lt_succ_self _,
          fun hno => Nat.lt_irrefl _ (h.destroyed _ hno)⟩
  · next l hx =>
      cases hs
      obtain ⟨hown, hne, hlt, halive⟩ := h.publish l hx
      refine
        { current := fun m hm => ?_
          destroyed := fun m hm => ?_
          construct := fun hno => by cases hno
          publish := fun l hno => by cases hno
          published := fun _ => hown
          runs := fun x hx _ => ?_
          starting := fun ho => ⟨by simp, (h.starting ho).2⟩ }
      · cases hm
        refine ⟨hlt, fun hmem => ?_⟩
        rcases List.mem_append.mp hmem with hmem | hmem
        · exact halive hmem
        · exact hne (Option.mem_toList.mp hmem)
      · rcases List.mem_append.mp hm with hm | hm
        · exact h.destroyed m hm
        · exact (h.current m (Option.mem_toList.mp hm)).1
      · cases hx
        exact ⟨by simp, fun l hl => by cases hl⟩
  · next hx =>
      cases hs
      have hkept := h.setThread hx rfl (y := .callLoop) rfl fun l hl => by cases hl
      refine hkept.setOwner fun ho => hkept.starting ?_
      show s.owner = .wait ∨ s.owner = .blocked ∨ s.owner = .returnLoop
      split at ho
      · next hb => exact .inr (.inl hb)
      · exact ho
  · next hx =>
      obtain ⟨l, hl, rfl⟩ := Option.map_eq_some_iff.mp hs
      exact h.setThread hx rfl rfl fun m hm => by cases hm; exact hl
  · next l hx =>
      cases hs
      have hl := (h.runs _ hx rfl).2 l rfl
      exact { h.setThread hx rfl (y := .whileNotQuit l) rfl fun m hm => by cases hm; exact hl with }
  · next l hx =>
      split at hs
      · cases hs
        exact h.setThread hx rfl rfl fun m hm => by cases hm
      · cases hs
        exact { h with }

theorem kept_step {a : OwnerCall} (h : Kept s) (hs : step s a = some s') : Kept s' := by
  cases a with
  | startLoop =>
      simp only [step] at hs
      split at hs
      · cases hs
        exact kept_startLoop h
      · cases hs
  | stop =>
      simp only [step] at hs
      split at hs
      · cases hs
        exact h.setOwner (by simp)
      · cases hs
  | owner => exact kept_owner h hs
  | spurious =>
      simp only [step] at hs
      split at hs
      · next hb =>
          cases hs
          exact h.setOwner fun _ => h.starting (.inr (.inl hb))
      · cases hs
  | thread asked => exact kept_thread h hs

/-! ## What is returned stays good -/

/-- The loop of a thread that has published is the one to return. -/
theorem Kept.running (h : Kept s) (hthread : s.thread_ ≠ none)
    (hpast : ∀ x ∈ s.thread_, x.unpublished = false) : s.Running s.loop_ := by
  obtain ⟨x, hx⟩ := Option.ne_none_iff_exists'.mp hthread
  obtain ⟨hsome, hruns⟩ := h.runs x hx (hpast x hx)
  refine ⟨hsome, rfl, h.published hpast, fun y hy => ?_, fun l hl => (h.current l hl).2⟩
  rw [hx] at hy
  cases hy
  exact hruns

/-- Before that, `loop_` is not the loop of the spawned thread. -/
theorem Kept.not_running (h : Kept s) {x : ThreadFunc} (hx : s.thread_ = some x)
    (hpast : x.unpublished = true) {loop : Option Nat} : ¬ s.Running loop := by
  intro hr
  cases x with
  | construct => exact hr.nonnull (hr.own.symm.trans (h.construct hx))
  | publish l =>
      obtain ⟨hown, hne, _⟩ := h.publish l hx
      exact hne (hr.getLoop.trans (hr.own.symm.trans hown))
  | _ => cases hpast

theorem good_owner (h : Kept s) (hgood : Good s) (hs : s.runOwner = some s') :
    Good s' ↔ s.Published .owner := by
  unfold runOwner at hs
  unfold Published
  cases ho : s.owner with
  | user | blocked => simp [ho] at hs
  | wait =>
      simp only [ho, Option.some.injEq] at hs
      subst hs
      exact ⟨fun _ hno => (by cases hno), fun _ loop hl => { hgood loop hl with }⟩
  | returnLoop =>
      simp only [ho, Option.some.injEq] at hs
      subst hs
      obtain ⟨hthread, _⟩ := h.starting (.inr (.inr ho))
      refine ⟨fun hg _ x hx => ?_, fun hp loop hl => ?_⟩
      · by_contra hno
        have hr : s.Running s.loop_ := { hg s.loop_ rfl with }
        exact h.not_running hx (by simpa using hno) hr
      · cases hl
        exact { h.running hthread (hp rfl) with }
  | quit =>
      simp only [ho] at hs
      refine ⟨fun _ hno => (by cases hno), fun _ => ?_⟩
      split at hs
      · cases hs
        exact fun loop hl => { hgood loop hl with }
      · cases hs
        exact fun loop hl => { hgood loop hl with }
  | join =>
      simp only [ho] at hs
      refine ⟨fun _ hno => (by cases hno), fun _ => ?_⟩
      split at hs
      · cases hs
        exact fun loop hl => { hgood loop hl with }
      · cases hs
        exact fun loop hl => { hgood loop hl with runs := fun x hno => by cases hno }
      · cases hs

/-- Once something is returned, the thread is past the assignment and destroys
nothing. -/
theorem good_thread {asked : Bool} (h : Kept s) (hgood : Good s)
    (hs : s.runThread asked = some s') : Good s' := by
  intro loop hl
  unfold runThread at hs
  split at hs
  · cases hs
  · cases hs
  · next hx =>
      cases hs
      exact absurd (hgood loop hl) (h.not_running hx rfl)
  · next l hx =>
      cases hs
      exact absurd (hgood loop hl) (h.not_running hx rfl)
  · next hx =>
      cases hs
      exact { hgood loop hl with runs := fun x hx _ hno => by cases hx; cases hno }
  · next hx =>
      obtain ⟨l, hloop, rfl⟩ := Option.map_eq_some_iff.mp hs
      have hr := hgood loop hl
      refine { hr with runs := fun x hx m hm => ?_ }
      cases hx
      cases hm
      exact hr.getLoop.symm.trans hloop
  · next l hx =>
      cases hs
      have hr := hgood loop hl
      refine { hr with runs := fun x hy m hm => ?_ }
      cases hy
      cases hm
      exact hr.runs _ hx l rfl
  · next l hx =>
      split at hs
      · cases hs
        exact { hgood loop hl with runs := fun x hx _ hno => by cases hx; cases hno }
      · cases hs
        exact { hgood loop hl with }

theorem good_step {a : OwnerCall} (h : Kept s) (hgood : Good s) (hs : step s a = some s') :
    Good s' ↔ s.Published a := by
  cases a with
  | startLoop =>
      simp only [step] at hs
      split at hs
      · cases hs
        refine ⟨fun _ => trivial, fun _ loop hl => ?_⟩
        unfold startLoop at hl
        split at hl <;> cases hl
      · cases hs
  | stop | spurious =>
      simp only [step] at hs
      split at hs
      · cases hs
        exact ⟨fun _ => trivial, fun _ loop hl => { hgood loop hl with }⟩
      · cases hs
  | owner => exact good_owner h hgood hs
  | thread asked => exact ⟨fun _ => trivial, fun _ => good_thread h hgood hs⟩

end Step

theorem kept_init : Kept {} :=
  ⟨by simp, by simp, fun _ => rfl, fun _ hno => (by cases hno), fun _ => rfl,
    fun _ hno => (by cases hno), by simp⟩

/-- In a run of calls, with the threads they spawn, whatever `startLoop` returned
is the running loop in every state up to the next call iff the thread has
assigned `loop_` wherever `startLoop` returns. -/
theorem running_iff_published {as : List OwnerCall} {s : LoopOwner}
    (h : lts.run {} as = some s) :
    (∀ x ∈ lts.trace {} as, Good x) ↔ (lts.runIf Published {} as).isSome = true :=
  Lts.forall_trace_iff (K := Kept) (fun _ _ _ hk hs => kept_step hk hs)
    (fun _ _ _ hk hg hs => good_step hk hg hs) kept_init (fun _ hno => by cases hno) h

/-- Started, its loop running, and stopped. -/
def once : List OwnerCall :=
  [.startLoop, .owner, .thread false, .thread false, .thread false, .owner, .owner, .thread false,
    .thread false, .stop, .owner, .thread false, .owner]

/-- Started again, with the new thread ahead of the owner. -/
theorem running_iff_published_ahead :
    ∃ s, lts.run {} (once ++ [.startLoop, .thread false, .thread false, .owner, .owner]) = some s ∧
      ∀ x ∈ lts.trace {} (once ++ [.startLoop, .thread false, .thread false, .owner, .owner]),
        Good x := by
  refine Exists.imp (fun s hs => ⟨hs, ?_⟩) (Option.isSome_iff_exists.mp (by decide))
  exact (running_iff_published hs).mpr (by decide)

/-- Started again, with the owner ahead: it has the old loop, which is destroyed. -/
theorem restart_returns_old : ¬ ∀ s, lts.Reach s → Good s := by
  intro h
  obtain ⟨s, hs, hp⟩ := Lts.exists_reach lts (x := {})
    (once ++ [.startLoop, .owner, .owner, .thread false, .thread false])
    (fun s => decide (s.returned = some (some 0) ∧ s.destroyed = [0])) rfl (by decide)
  obtain ⟨hret, hdest⟩ := of_decide_eq_true hp
  have hr := h s hs (some 0) (by rw [hret]; rfl)
  exact hr.alive 0 rfl (by rw [hdest]; exact List.mem_singleton.mpr rfl)

end LoopOwner

end Muduox.Net
