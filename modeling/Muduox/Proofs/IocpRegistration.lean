import Muduox.Proofs.EpollRegistration
import Muduox.Proofs.IocpContexts

/-!
# A registration that failed

When `CreateIoCompletionPort` refuses a socket, `updateChannel` returns early: the
channel keeps its index of -1, is in no map and has no context. Every later
call of `enableReading` and its siblings tolerates that and tries again.
`remove()` does not: its `any_cast` throws on the empty context before the test
for a null one is reached. So a run of calls is free of exceptions exactly when
each `remove()` finds its channel registered (`Removable`), whatever else fails;
`EpollPoller` needs no such condition.
-/

namespace Muduox.Net

/-- A poller and its channels. A call that throws ends the run. -/
structure IocpCalls (K : Type) where
  poller : IocpPoller K := {}
  channel : K → Channel
  thrown : Bool := false
  /-- The channels whose last call was `remove()`. -/
  removed : List K := []
  /-- The channels whose connection was in `connectDestroyed`. -/
  destroyed : List K := []
  /-- Those whose connection got as far as `socket_.reset()`. -/
  reset : List K := []

/-- A call, with what `CreateIoCompletionPort` and `getsockopt` would say in it. -/
inductive IocpRequest (K : Type) where
  | call (k : K) (o : ChannelOp) (bound acceptConn : Bool)
  | connectDestroyed (k : K) (bound acceptConn : Bool)

namespace IocpCalls

open IocpPoller

variable {K : Type} [DecidableEq K]

/-- A call on channel `k`; `none` is an exception. -/
def call (s : IocpCalls K) (k : K) (o : ChannelOp) (bound acceptConn : Bool) :
    Option (IocpCalls K) :=
  let x := o.apply (s.channel k)
  let channel := Function.update s.channel k x
  match o with
  | .remove =>
      (s.poller.removeChannel k x).map fun p =>
        { s with poller := p, channel := channel, removed := s.removed.insert k }
  | _ =>
      (s.poller.updateChannel k x bound acceptConn).map fun p =>
        { s with poller := p, channel := channel, removed := s.removed.filter (· != k) }

/-- `TcpConnection::connectDestroyed`, of the connection with channel `k`. -/
def connectDestroyed (s : IocpCalls K) (k : K) (bound acceptConn : Bool) :
    Option (IocpCalls K) := do
  let s ← s.call k .disableAll bound acceptConn
  let s ← s.call k .remove bound acceptConn
  some { s with reset := s.reset ++ [k] }

def step (s : IocpCalls K) (a : IocpRequest K) : Option (IocpCalls K) :=
  if s.thrown then none
  else
    match a with
    | .call k o bound acceptConn =>
        some ((s.call k o bound acceptConn).getD { s with thrown := true })
    | .connectDestroyed k bound acceptConn =>
        let s := { s with destroyed := s.destroyed ++ [k] }
        some ((s.connectDestroyed k bound acceptConn).getD { s with thrown := true })

/-- The runs over channels that were just constructed. -/
def lts (K : Type) [DecidableEq K] : Lts (IocpCalls K) (IocpRequest K) where
  init s := ∃ fd : K → Int, s = { channel := fun k => { fd_ := fd k } }
  step := step

/-- The poller has no trace of channel `k`. -/
structure Unlisted (s : IocpCalls K) (k : K) : Prop where
  channels : ∀ fd, s.poller.channels_ fd ≠ some k
  posts : k ∉ s.poller.pendingPosts_
  select : k ∉ s.poller.selectChannels_
  index : s.poller.index_ k = -1

/-- No call has thrown, what was removed is gone, and every `connectDestroyed`
has reached its end. -/
structure Recovered (s : IocpCalls K) : Prop where
  thrown : s.thrown = false
  removed : ∀ k ∈ s.removed, s.Unlisted k
  reset : s.reset = s.destroyed

/-- A `remove()` finds its channel registered; that of `connectDestroyed`, after
the update in `disableAll()`. -/
def Removable (s : IocpCalls K) : IocpRequest K → Prop
  | .call k .remove _ _ => 0 ≤ s.poller.index_ k
  | .connectDestroyed k bound _ => 0 ≤ s.poller.index_ k ∨ bound = true
  | _ => True

instance (s : IocpCalls K) (a : IocpRequest K) : Decidable (s.Removable a) := by
  unfold Removable
  split <;> infer_instance

/-! ## What is written down for a channel -/

/-- Only a channel with index 0 is in `channels_`, under its descriptor. -/
structure Listed (p : IocpPoller K) (xs : K → Channel) : Prop where
  sound : p.Sound
  index : ∀ k, p.index_ k = -1 ∨ p.index_ k = 0
  channels : ∀ fd k, p.channels_ fd = some k → p.index_ k = 0 ∧ (xs k).fd_ = fd

section Calls

variable {p q : IocpPoller K} {xs : K → Channel} {s : IocpCalls K} {k : K} {x : Channel}
  (bound acceptConn : Bool)

theorem fd_update (hx : x.fd_ = (xs k).fd_) (j : K) :
    (Function.update xs k x j).fd_ = (xs j).fd_ := by
  by_cases hj : j = k
  · rw [hj, Function.update_self, hx]
  · rw [Function.update_of_ne hj]

/-- A channel that is registered under its descriptor, in a poller with the old
entries. -/
theorem Listed.register {p' : IocpPoller K} (h : Listed p xs) (hx : x.fd_ = (xs k).fd_)
    (hindex : p'.index_ = p.index_) (hchannels : p'.channels_ = p.channels_)
    (hsound : (p'.register k x acceptConn).Sound) :
    Listed (p'.register k x acceptConn) (Function.update xs k x) := by
  refine ⟨hsound, fun j => ?_, fun fd j hj => ?_⟩
  · show Function.update p'.index_ k 0 j = -1 ∨ Function.update p'.index_ k 0 j = 0
    by_cases hjk : j = k
    · simp [hjk]
    · rw [Function.update_of_ne hjk, hindex]
      exact h.index j
  · have hj' : Function.update p'.channels_ x.fd_ (some k) fd = some j := hj
    rw [fd_update hx]
    show Function.update p'.index_ k 0 j = 0 ∧ _
    by_cases hfd : fd = x.fd_
    · rw [hfd, Function.update_self] at hj'
      cases hj'
      exact ⟨Function.update_self .., by rw [hfd, hx]⟩
    · rw [Function.update_of_ne hfd, hchannels] at hj'
      obtain ⟨hzero, hat⟩ := h.channels fd j hj'
      refine ⟨?_, hat⟩
      by_cases hjk : j = k
      · rw [hjk, Function.update_self]
      · rw [Function.update_of_ne hjk, hindex, hzero]

/-- `updateChannel` returns, and registers the channel unless the port refuses
its socket. -/
theorem Listed.updateChannel (h : Listed p xs) (hx : x.fd_ = (xs k).fd_) :
    ∃ q, p.updateChannel k x bound acceptConn = some q ∧ Listed q (Function.update xs k x) ∧
      (0 ≤ q.index_ k ↔ 0 ≤ p.index_ k ∨ bound = true) ∧ ∀ j, j ≠ k → q.index_ j = p.index_ j := by
  have hzero : ∀ p' : IocpPoller K, (p'.register k x acceptConn).index_ k = 0 :=
    fun p' => Function.update_self ..
  have hother : ∀ p' : IocpPoller K, ∀ j, j ≠ k →
      (p'.register k x acceptConn).index_ j = p'.index_ j := fun p' j hj => Function.update_of_ne hj ..
  by_cases hneg : p.index_ k < 0
  · cases bound with
    | false =>
        refine ⟨p, by simp [IocpPoller.updateChannel, hneg], ⟨h.sound, h.index, fun fd j hj => ?_⟩,
          by simp, fun _ _ => rfl⟩
        rw [fd_update hx]
        exact h.channels fd j hj
    | true =>
        have hsome : p.updateChannel k x true acceptConn =
            some ((p.newContext k).register k x acceptConn) := by
          simp [IocpPoller.updateChannel, hneg]
        exact ⟨_, hsome, h.register acceptConn hx rfl rfl (h.sound.updateChannel hsome),
          by simp [hzero], hother _⟩
  · have hctx : (p.context_ k).isSome = true := by
      rw [Option.isSome_iff_ne_none]
      exact fun hno => hneg ((h.sound.index k).mpr hno)
    have hsome : p.updateChannel k x bound acceptConn = some (p.register k x acceptConn) := by
      simp [IocpPoller.updateChannel, hneg, hctx]
    refine ⟨_, hsome, h.register acceptConn hx rfl rfl (h.sound.updateChannel hsome), ?_, hother _⟩
    rw [hzero]
    exact ⟨fun _ => .inl (by omega), fun _ => Int.le_refl 0⟩

theorem Listed.removeChannel (h : Listed p xs) (hx : x.fd_ = (xs k).fd_) (hk : 0 ≤ p.index_ k) :
    ∃ q, p.removeChannel k x = some q ∧ Listed q (Function.update xs k x) ∧ q.index_ k = -1 ∧
      ∀ j, j ≠ k → q.index_ j = p.index_ j := by
  obtain ⟨i, hi⟩ : ∃ i, p.context_ k = some i := by
    refine Option.ne_none_iff_exists'.mp fun hno => ?_
    have := (h.sound.index k).mpr hno
    omega
  obtain ⟨q, hq⟩ : ∃ q, p.removeChannel k x = some q := ⟨_, by rw [IocpPoller.removeChannel, hi]; rfl⟩
  obtain ⟨_, _, heq⟩ := Option.map_eq_some_iff.mp hq
  have hself : q.index_ k = -1 := by
    rw [← heq]
    exact Function.update_self ..
  have hother : ∀ j, j ≠ k → q.index_ j = p.index_ j := by
    intro j hj
    rw [← heq]
    exact Function.update_of_ne hj ..
  refine ⟨q, hq, ⟨h.sound.removeChannel hq, fun j => ?_, fun fd j hj => ?_⟩, hself, hother⟩
  · by_cases hjk : j = k
    · exact .inl (by rw [hjk, hself])
    · rw [hother j hjk]
      exact h.index j
  · have hj' : Function.update p.channels_ x.fd_ none fd = some j := by
      rw [← heq] at hj
      exact hj
    by_cases hfd : fd = x.fd_
    · rw [hfd, Function.update_self] at hj'
      cases hj'
    · rw [Function.update_of_ne hfd] at hj'
      obtain ⟨hzero, hat⟩ := h.channels fd j hj'
      -- The entry of `k` was the one erased.
      have hjk : j ≠ k := by
        rintro rfl
        exact hfd (hat.symm.trans hx.symm)
      rw [hother j hjk, fd_update hx]
      exact ⟨hzero, hat⟩

/-- `removeChannel` on a channel without a context. -/
theorem Listed.removeChannel_throws (h : Listed p xs) (hk : ¬ 0 ≤ p.index_ k) :
    p.removeChannel k x = none := by
  rw [IocpPoller.removeChannel, (h.sound.index k).mp (by omega)]
  rfl

/-! ## Along a run -/

/-- What holds after every call. -/
structure Kept (s : IocpCalls K) : Prop where
  listed : Listed s.poller s.channel
  removed : ∀ k ∈ s.removed, s.poller.index_ k = -1

omit [DecidableEq K] in
theorem Kept.unlisted (h : Kept s) (hk : s.poller.index_ k = -1) : s.Unlisted k := by
  have hnone : s.poller.context_ k = none := (h.listed.sound.index k).mp (by omega)
  refine ⟨fun fd hfd => ?_, fun hp => h.listed.sound.posts k hp hnone,
    fun hs => h.listed.sound.select k hs hnone, hk⟩
  have := (h.listed.channels fd k hfd).1
  omega

/-- The calls leave these alone. -/
structure Frame (s s' : IocpCalls K) : Prop where
  thrown : s'.thrown = s.thrown
  destroyed : s'.destroyed = s.destroyed
  reset : s'.reset = s.reset

theorem call_update (h : Kept s) {o : ChannelOp} (ho : o ≠ .remove) :
    ∃ s', s.call k o bound acceptConn = some s' ∧ Kept s' ∧ Frame s s' ∧
      (0 ≤ s'.poller.index_ k ↔ 0 ≤ s.poller.index_ k ∨ bound = true) := by
  obtain ⟨q, hq, hlisted, hindex, hother⟩ :=
    h.listed.updateChannel bound acceptConn (EpollChannels.apply_fd o (s.channel k))
  refine ⟨{ s with
    poller := q
    channel := Function.update s.channel k (o.apply (s.channel k))
    removed := s.removed.filter (· != k) }, ?_, ⟨hlisted, fun j hj => ?_⟩, ⟨rfl, rfl, rfl⟩, hindex⟩
  · cases o with
    | remove => exact absurd rfl ho
    | _ => simp only [call, hq, Option.map_some]
  · obtain ⟨hj, hjk⟩ := List.mem_filter.mp hj
    show q.index_ j = -1
    rw [hother j (by simpa using hjk)]
    exact h.removed j hj

theorem call_remove (h : Kept s) (hk : 0 ≤ s.poller.index_ k) :
    ∃ s', s.call k .remove bound acceptConn = some s' ∧ Kept s' ∧ Frame s s' := by
  obtain ⟨q, hq, hlisted, hindex, hother⟩ := h.listed.removeChannel
    (EpollChannels.apply_fd .remove (s.channel k)) hk
  refine ⟨{ s with
    poller := q
    channel := Function.update s.channel k (ChannelOp.remove.apply (s.channel k))
    removed := s.removed.insert k }, ?_, ⟨hlisted, fun j hj => ?_⟩, ⟨rfl, rfl, rfl⟩⟩
  · simp only [call, hq, Option.map_some]
  · show q.index_ j = -1
    by_cases hjk : j = k
    · rw [hjk, hindex]
    · rw [hother j hjk]
      exact h.removed j ((List.mem_insert_iff.mp hj).resolve_left hjk)

theorem call_remove_throws (h : Kept s) (hk : ¬ 0 ≤ s.poller.index_ k) :
    s.call k .remove bound acceptConn = none := by
  simp only [call, h.listed.removeChannel_throws hk, Option.map_none]

theorem connectDestroyed_resets (h : Kept s) (hk : 0 ≤ s.poller.index_ k ∨ bound = true) :
    ∃ s', s.connectDestroyed k bound acceptConn = some s' ∧ Kept s' ∧
      s'.thrown = s.thrown ∧ s'.destroyed = s.destroyed ∧ s'.reset = s.reset ++ [k] := by
  obtain ⟨s₁, hs₁, hkept, hframe, hindex⟩ :=
    call_update (k := k) bound acceptConn h (o := .disableAll) (by simp)
  obtain ⟨s₂, hs₂, hkept₂, hframe₂⟩ :=
    call_remove bound acceptConn hkept (hindex.mpr hk)
  refine ⟨{ s₂ with reset := s₂.reset ++ [k] }, ?_, ⟨hkept₂.listed, hkept₂.removed⟩,
    hframe₂.thrown.trans hframe.thrown, hframe₂.destroyed.trans hframe.destroyed, ?_⟩
  · simp [connectDestroyed, hs₁, hs₂]
  · show s₂.reset ++ [k] = _
    rw [hframe₂.reset, hframe.reset]

theorem connectDestroyed_throws (h : Kept s) (hk : ¬ (0 ≤ s.poller.index_ k ∨ bound = true)) :
    s.connectDestroyed k bound acceptConn = none := by
  obtain ⟨s₁, hs₁, hkept, _, hindex⟩ :=
    call_update (k := k) bound acceptConn h (o := .disableAll) (by simp)
  simp [connectDestroyed, hs₁,
    call_remove_throws bound acceptConn hkept (fun hpos => hk (hindex.mp hpos))]

omit [DecidableEq K] in
theorem Kept.recovered_iff (h : Kept s) :
    s.Recovered ↔ s.thrown = false ∧ s.reset = s.destroyed :=
  ⟨fun hr => ⟨hr.thrown, hr.reset⟩,
    fun ⟨hthrown, hreset⟩ => ⟨hthrown, fun _ hk => h.unlisted (h.removed _ hk), hreset⟩⟩

theorem kept_call {s' : IocpCalls K} {o : ChannelOp} (h : Kept s)
    (hs : (s.call k o bound acceptConn).getD { s with thrown := true } = s') :
    Kept s' ∧ (s'.Recovered ↔ s.Recovered ∧ s.Removable (.call k o bound acceptConn)) := by
  by_cases ho : o = .remove
  · subst ho
    by_cases hk : 0 ≤ s.poller.index_ k
    · obtain ⟨s₁, hs₁, hkept, hframe⟩ := call_remove bound acceptConn h hk
      rw [hs₁, Option.getD_some] at hs
      subst hs
      refine ⟨hkept, ?_⟩
      rw [hkept.recovered_iff, h.recovered_iff, hframe.thrown, hframe.reset, hframe.destroyed]
      exact ⟨fun hr => ⟨hr, hk⟩, And.left⟩
    · rw [call_remove_throws bound acceptConn h hk, Option.getD_none] at hs
      subst hs
      exact ⟨⟨h.listed, h.removed⟩, fun hr => absurd hr.thrown (by simp), fun hr => absurd hr.2 hk⟩
  · obtain ⟨s₁, hs₁, hkept, hframe, _⟩ :=
      call_update (k := k) bound acceptConn h ho
    rw [hs₁, Option.getD_some] at hs
    subst hs
    refine ⟨hkept, ?_⟩
    rw [hkept.recovered_iff, h.recovered_iff, hframe.thrown, hframe.reset, hframe.destroyed]
    refine ⟨fun hr => ⟨hr, ?_⟩, And.left⟩
    cases o with
    | remove => exact absurd rfl ho
    | _ => trivial

/-- A call throws iff it is not `Removable`, and else keeps everything. -/
theorem kept_step {s' : IocpCalls K} {a : IocpRequest K} (h : Kept s) (hs : step s a = some s') :
    Kept s' ∧ (s'.Recovered ↔ s.Recovered ∧ s.Removable a) := by
  unfold step at hs
  split at hs
  · cases hs
  · cases a with
    | call k o bound acceptConn =>
        cases hs
        exact kept_call bound acceptConn h rfl
    | connectDestroyed k bound acceptConn =>
        have hstart : Kept { s with destroyed := s.destroyed ++ [k] } := ⟨h.listed, h.removed⟩
        cases hs
        by_cases hk : 0 ≤ s.poller.index_ k ∨ bound = true
        · obtain ⟨s₁, hs₁, hkept, hthrown, hdestroyed, hreset⟩ :=
            connectDestroyed_resets bound acceptConn hstart hk
          rw [hs₁, Option.getD_some]
          refine ⟨hkept, ?_⟩
          rw [hkept.recovered_iff, h.recovered_iff, hthrown, hdestroyed, hreset]
          simp only [List.append_cancel_right_eq]
          exact ⟨fun hr => ⟨hr, hk⟩, And.left⟩
        · rw [connectDestroyed_throws bound acceptConn hstart hk, Option.getD_none]
          exact ⟨⟨h.listed, h.removed⟩, fun hr => absurd hr.thrown (by simp),
            fun hr => absurd hr.2 hk⟩

end Calls

theorem kept_init {s : IocpCalls K} (h : (lts K).init s) : Kept s ∧ s.Recovered := by
  obtain ⟨fd, rfl⟩ := h
  have hkept : Kept ({ channel := fun k => { fd_ := fd k } } : IocpCalls K) :=
    ⟨⟨sound_new, fun _ => .inl rfl, fun _ _ hno => absurd hno (by simp)⟩, by simp⟩
  exact ⟨hkept, hkept.recovered_iff.mpr ⟨rfl, rfl⟩⟩

/-- A run of calls, with any registrations failing, throws nothing, leaves no
trace of what was removed and resets every destroyed connection's socket iff
each `remove()` of it finds its channel registered. -/
theorem recovered_iff_removable {s₀ s : IocpCalls K} {as : List (IocpRequest K)}
    (h : (lts K).init s₀) (hs : (lts K).run s₀ as = some s) :
    s.Recovered ↔ ((lts K).runIf Removable s₀ as).isSome = true := by
  obtain ⟨hkept, hrecovered⟩ := kept_init h
  rw [Lts.runIf_iff (K := Kept) (Q := Recovered) (C := Removable) (D := fun _ _ => True)
    (fun _ _ _ hk _ hs => (kept_step hk hs).1) (fun _ _ _ hk _ hs => (kept_step hk hs).2) hkept hs]
  exact ⟨And.right, fun hr => ⟨hrecovered, hr⟩⟩

/-- Two registrations fail, and each is made up for before the `remove()`. -/
theorem recovered_iff_removable_later :
    ∃ s : IocpCalls Nat, (lts Nat).run { channel := fun k => { fd_ := k } }
      [.call 0 .enableReading false false, .call 0 .enableWriting true false,
        .call 0 .remove true false, .call 1 .enableReading false false,
        .connectDestroyed 1 true false] = some s ∧ s.Recovered := by
  refine Exists.imp (fun s hs => ⟨hs, ?_⟩) (Option.isSome_iff_exists.mp (by decide +kernel))
  exact (recovered_iff_removable ⟨_, rfl⟩ hs).mpr (by decide +kernel)

/-- The registration in `connectEstablished` fails, and that in
`connectDestroyed` does. -/
theorem failed_registration_throws :
    ¬ ∀ s : IocpCalls Nat, (lts Nat).Reach s → s.Recovered := by
  intro h
  obtain ⟨s, hs, hp⟩ := Lts.exists_reach (lts Nat) (x := { channel := fun k => { fd_ := k } })
    [.call 0 .enableReading false false, .connectDestroyed 0 false false]
    (fun s => decide (s.thrown = true ∧ s.destroyed = [0] ∧ s.reset = [])) ⟨_, rfl⟩
    (by decide +kernel)
  obtain ⟨hthrown, _⟩ := of_decide_eq_true hp
  have := (h s hs).thrown
  rw [hthrown] at this
  cases this

end IocpCalls

end Muduox.Net
