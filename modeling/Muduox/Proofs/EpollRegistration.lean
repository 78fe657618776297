import Muduox.Lib.Lts
import Muduox.Net.EpollPoller

/-!
# What an `EpollPoller` has registered

Whether a channel is registered is written down four times: in the channel's
`index_`, in `channels_`, in the kernel's interest list, and, as the mask there,
in `events_`. A call on one channel leaves alone what is written down for the
others, because descriptors are distinct, and on the channel itself the
operation chosen from `index_` is one the kernel accepts. A `remove` that the
kernel refuses finds nothing written down.
-/

namespace Muduox.Net

/-- The calls of `Channel` that reach its poller. -/
inductive ChannelOp where
  | enableReading
  | disableReading
  | enableWriting
  | disableWriting
  | disableAll
  | remove
  deriving DecidableEq, Repr

/-- What a call does to `events_`. -/
def ChannelOp.apply : ChannelOp → Channel → Channel
  | .enableReading => Channel.enableReading
  | .disableReading => Channel.disableReading
  | .enableWriting => Channel.enableWriting
  | .disableWriting => Channel.disableWriting
  | .disableAll => Channel.disableAll
  | .remove => id

/-- A poller and its channels, with every call of `epoll_ctl` so far and whether
it succeeded. -/
structure EpollChannels (K : Type) where
  poller : EpollPoller K := {}
  channel : K → Channel
  calls : List (CtlOp × Bool) := []

namespace EpollChannels

variable {K : Type} [DecidableEq K]

/-- A call on channel `k`. -/
def call (s : EpollChannels K) (k : K) (o : ChannelOp) : EpollChannels K :=
  let x := o.apply (s.channel k)
  let channel := Function.update s.channel k x
  match o with
  | .remove =>
      let (p, ok) := s.poller.removeChannel k x
      ⟨p, channel, s.calls ++ [(.del, ok)]⟩
  | _ =>
      let (p, ok) := s.poller.updateChannel k x
      ⟨p, channel, s.calls ++ [(s.poller.operation k, ok)]⟩

/-- The runs over channels that were just constructed, each on a descriptor of
its own. -/
def lts (K : Type) [DecidableEq K] : Lts (EpollChannels K) (K × ChannelOp) where
  init s := ∃ fd : K → Int, Function.Injective fd ∧ s = { channel := fun k => { fd_ := fd k } }
  step s a := some (s.call a.1 a.2)

/-- The four notes of each channel agree. -/
structure Registered (s : EpollChannels K) : Prop where
  /-- Descriptors are distinct. -/
  fds : Function.Injective fun k => (s.channel k).fd_
  channels : ∀ k, 0 ≤ s.poller.index_ k ↔ s.poller.channels_ (s.channel k).fd_ = some k
  interest : ∀ k, 0 ≤ s.poller.index_ k ↔ (s.poller.interest (s.channel k).fd_).isSome = true
  /-- The entry is the channel's, with the mask of its `events_`. -/
  entry : ∀ k, 0 ≤ s.poller.index_ k →
    s.poller.interest (s.channel k).fd_ = some ⟨EpollPoller.mask (s.channel k), k⟩
  /-- Only a `DEL` ever failed. -/
  accepted : ∀ r ∈ s.calls, r.1 ≠ .del → r.2 = true

section Calls

variable {s : EpollChannels K} {k : K} {x : Channel}

theorem apply_fd (o : ChannelOp) (x : Channel) : (o.apply x).fd_ = x.fd_ := by
  cases o <;> rfl

/-- An operation chosen from `index_` is accepted and writes the entry. -/
theorem updateChannel_eq (h : Registered s) (hx : x.fd_ = (s.channel k).fd_) :
    s.poller.updateChannel k x =
      ({ interest := Function.update s.poller.interest x.fd_ (some ⟨EpollPoller.mask x, k⟩)
         index_ := Function.update s.poller.index_ k 0
         channels_ := Function.update s.poller.channels_ x.fd_ (some k) }, true) := by
  have hkernel := h.interest k
  rw [← hx] at hkernel
  unfold EpollPoller.updateChannel EpollPoller.operation EpollPoller.update epollCtl
  cases he : s.poller.interest x.fd_ with
  | none =>
      rw [he] at hkernel
      have hneg : s.poller.index_ k < 0 := by
        simpa using hkernel
      simp only [if_pos hneg]
      rfl
  | some e =>
      rw [he] at hkernel
      have hpos : ¬ s.poller.index_ k < 0 := by
        simpa using hkernel
      simp only [if_neg hpos]
      rfl

/-- `remove` clears the notes, whatever the kernel answers. -/
theorem removeChannel_eq (h : Registered s) (hx : x.fd_ = (s.channel k).fd_) :
    ∃ i ok, s.poller.removeChannel k x =
      ({ interest := Function.update s.poller.interest x.fd_ none
         index_ := Function.update s.poller.index_ k i
         channels_ := Function.update s.poller.channels_ x.fd_ none }, ok) ∧ i < 0 := by
  have hkernel := h.interest k
  rw [← hx] at hkernel
  unfold EpollPoller.removeChannel EpollPoller.update epollCtl
  cases he : s.poller.interest x.fd_ with
  | none =>
      rw [he] at hkernel
      have hsame : Function.update s.poller.interest x.fd_ none = s.poller.interest :=
        Function.update_eq_self_iff.mpr he.symm
      refine ⟨s.poller.index_ k, false, ?_, by simpa using hkernel⟩
      rw [Function.update_eq_self, hsame]
  | some e =>
      exact ⟨-1, true, rfl, by decide⟩

omit [DecidableEq K] in
/-- The notes of a channel that is not the one called. -/
theorem update_fd_of_ne {β : Type} {f : Int → β} {b : β} {j : K}
    (h : Function.Injective fun k => (s.channel k).fd_) (hx : x.fd_ = (s.channel k).fd_)
    (hj : j ≠ k) : Function.update f x.fd_ b (s.channel j).fd_ = f (s.channel j).fd_ :=
  Function.update_of_ne (fun he => hj (h (he.trans hx))) ..

theorem fds_call (hx : x.fd_ = (s.channel k).fd_) :
    (fun j => (Function.update s.channel k x j).fd_) = fun j => (s.channel j).fd_ := by
  funext j
  by_cases hj : j = k
  · subst hj
    rw [Function.update_self, hx]
  · rw [Function.update_of_ne hj]

/-- A call that registers `k` under its mask. -/
theorem Registered.update (h : Registered s) (hx : x.fd_ = (s.channel k).fd_) :
    Registered
      ⟨(s.poller.updateChannel k x).1, Function.update s.channel k x,
        s.calls ++ [(s.poller.operation k, (s.poller.updateChannel k x).2)]⟩ := by
  rw [updateChannel_eq h hx]
  refine ⟨?_, fun j => ?_, fun j => ?_, fun j hj => ?_, fun r hr hdel => ?_⟩
  · show Function.Injective fun j => (Function.update s.channel k x j).fd_
    rw [fds_call hx]
    exact h.fds
  · by_cases hj : j = k
    · subst hj
      simp
    · simp only [Function.update_of_ne hj, update_fd_of_ne h.fds hx hj]
      exact h.channels j
  · by_cases hj : j = k
    · subst hj
      simp
    · simp only [Function.update_of_ne hj, update_fd_of_ne h.fds hx hj]
      exact h.interest j
  · by_cases hjk : j = k
    · subst hjk
      simp
    · simp only [Function.update_of_ne hjk, update_fd_of_ne h.fds hx hjk] at hj ⊢
      exact h.entry j hj
  · rcases List.mem_append.mp hr with hr | hr
    · exact h.accepted r hr hdel
    · rw [List.mem_singleton.mp hr]

theorem Registered.remove (h : Registered s) (hx : x.fd_ = (s.channel k).fd_) :
    Registered
      ⟨(s.poller.removeChannel k x).1, Function.update s.channel k x,
        s.calls ++ [(.del, (s.poller.removeChannel k x).2)]⟩ := by
  obtain ⟨i, ok, heq, hi⟩ := removeChannel_eq h hx
  rw [heq]
  refine ⟨?_, fun j => ?_, fun j => ?_, fun j hj => ?_, fun r hr hdel => ?_⟩
  · show Function.Injective fun j => (Function.update s.channel k x j).fd_
    rw [fds_call hx]
    exact h.fds
  · by_cases hj : j = k
    · subst hj
      simpa using hi
    · simp only [Function.update_of_ne hj, update_fd_of_ne h.fds hx hj]
      exact h.channels j
  · by_cases hj : j = k
    · subst hj
      simpa using hi
    · simp only [Function.update_of_ne hj, update_fd_of_ne h.fds hx hj]
      exact h.interest j
  · by_cases hjk : j = k
    · subst hjk
      simp only [Function.update_self] at hj
      omega
    · simp only [Function.update_of_ne hjk, update_fd_of_ne h.fds hx hjk] at hj ⊢
      exact h.entry j hj
  · rcases List.mem_append.mp hr with hr | hr
    · exact h.accepted r hr hdel
    · rw [List.mem_singleton.mp hr] at hdel
      exact absurd rfl hdel

theorem Registered.call (h : Registered s) (k : K) (o : ChannelOp) : Registered (s.call k o) := by
  have hx := apply_fd o (s.channel k)
  cases o with
  | remove => exact h.remove hx
  | _ => exact h.update hx

end Calls

/-- After every call, in any order on any channels, the notes of each channel
agree, and no `ADD` and no `MOD` has failed. -/
theorem epoll_registered {s : EpollChannels K} (h : (lts K).Reach s) : Registered s := by
  refine h.inv (fun s hs => ?_) fun s a s' hI hs => ?_
  · obtain ⟨fd, hfd, rfl⟩ := hs
    exact ⟨hfd, fun k => by simp, fun k => by simp, fun k hk => absurd hk (by simp), by simp⟩
  · cases hs
    exact hI.call a.1 a.2

/-- A channel is removed twice, and read again; another was never enabled. -/
theorem epoll_registered_reenabled :
    ∃ s : EpollChannels Nat, Registered s ∧
      s.calls = [(.add, true), (.del, true), (.del, false), (.add, true), (.add, true)] := by
  obtain ⟨s, hs, hp⟩ := Lts.exists_reach (lts Nat)
    (x := { channel := fun k => { fd_ := k } })
    [(0, .enableReading), (0, .remove), (0, .remove), (0, .enableReading), (1, .disableWriting)]
    (fun s => decide (s.calls =
      [(.add, true), (.del, true), (.del, false), (.add, true), (.add, true)]))
    ⟨fun k => (k : Int), fun _ _ h => Int.ofNat.inj h, rfl⟩ (by decide +kernel)
  exact ⟨s, epoll_registered hs, of_decide_eq_true hp⟩

end EpollChannels

end Muduox.Net
