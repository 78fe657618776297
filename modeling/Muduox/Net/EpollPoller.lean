import Muduox.Net.Channel

/-!
# `EpollPoller`

`muduox/net/poller/EpollPoller.cpp`, for channels of any type `K`. The interest
list of `epollFd_` is the kernel's: `epollCtl` is what `epoll_ctl` does to it
when every descriptor is open, and `epollWait` says which answers of
`epoll_wait` the list allows. `index_` is a member of `Channel` that only its
poller writes, so it is kept here.

`epollPoller` is the poller of a server's loop: the same, with the size of
`events_`, and with the descriptor of each channel it was called on. `fd_` is
const, so a channel is called on under one descriptor only.
-/

namespace Muduox.Net

/-- The flags of an `epoll_event`. -/
structure EpollMask where
  epollin : Bool := false
  epollpri : Bool := false
  epollout : Bool := false
  epollerr : Bool := false
  epollhup : Bool := false
  epollrdhup : Bool := false
  deriving DecidableEq, Repr

/-- `EPOLL_CTL_ADD`, `EPOLL_CTL_MOD` and `EPOLL_CTL_DEL`. -/
inductive CtlOp where
  | add
  | mod
  | del
  deriving DecidableEq, Repr

structure EpollEvent (K : Type) where
  events : EpollMask
  /-- `data.ptr`. -/
  data : K
  deriving DecidableEq

/-- `epoll_ctl` on an interest list; `none` is an error. It fails for a
descriptor that is there already or, to be changed or deleted, is not; the kernel
has memory and watches enough. -/
def epollCtl {K : Type} (interest : Int → Option (EpollEvent K)) (op : CtlOp) (fd : Int)
    (event : EpollEvent K) : Option (Int → Option (EpollEvent K)) :=
  match op, interest fd with
  | .add, none => some (Function.update interest fd (some event))
  | .mod, some _ => some (Function.update interest fd (some event))
  | .del, some _ => some (Function.update interest fd none)
  | _, _ => none

/-- What may be reported to who asked for `asked`: hang-ups and errors need not
be asked for. -/
def EpollMask.allows (asked ready : EpollMask) : Bool :=
  (!ready.epollin || asked.epollin) && (!ready.epollpri || asked.epollpri) &&
    (!ready.epollout || asked.epollout) && (!ready.epollrdhup || asked.epollrdhup)

/-- `epoll_wait` with room for `maxevents` events, when the kernel picks the
descriptors `ready`: some of the list's, each once. -/
def epollWait {K : Type} (interest : Int → Option (EpollEvent K)) (maxevents : Nat)
    (ready : List (Int × EpollMask)) : Option (List (EpollEvent K)) :=
  if ready.length ≤ maxevents ∧ (ready.map Prod.fst).Nodup ∧
      ready.all (fun r => (interest r.1).any fun e => e.events.allows r.2) then
    some (ready.filterMap fun r => (interest r.1).map fun e => ⟨r.2, e.data⟩)
  else none

structure EpollPoller (K : Type) where
  interest : Int → Option (EpollEvent K) := fun _ => none
  index_ : K → Int := fun _ => -1
  channels_ : Int → Option K := fun _ => none

namespace EpollPoller

variable {K : Type} [DecidableEq K]

/-- `event.events` in `update`. -/
def mask (x : Channel) : EpollMask :=
  { epollin := x.isReading, epollpri := x.isReading, epollout := x.isWriting }

/-- `update`, and whether `epoll_ctl` succeeded. -/
def update (p : EpollPoller K) (operation : CtlOp) (k : K) (x : Channel) : EpollPoller K × Bool :=
  match epollCtl p.interest operation x.fd_ ⟨mask x, k⟩ with
  | none => (p, false)
  | some interest =>
      ({ interest
         index_ := Function.update p.index_ k (if operation = .del then -1 else 0)
         channels_ := if operation ≠ .del then Function.update p.channels_ x.fd_ (some k)
           else p.channels_ }, true)

/-- What `updateChannel` asks of `epoll_ctl`. -/
def operation (p : EpollPoller K) (k : K) : CtlOp := if p.index_ k < 0 then .add else .mod

def updateChannel (p : EpollPoller K) (k : K) (x : Channel) : EpollPoller K × Bool :=
  p.update (p.operation k) k x

def removeChannel (p : EpollPoller K) (k : K) (x : Channel) : EpollPoller K × Bool :=
  let (q, ok) := p.update .del k x
  ({ q with channels_ := Function.update q.channels_ x.fd_ none }, ok)

/-- `revents` in `poll`. -/
def revents (m : EpollMask) : Events :=
  { read := m.epollin || m.epollpri || m.epollrdhup
    write := m.epollout
    error := m.epollerr
    close := m.epollhup }

/-- The active channels `poll` finds, with `events_` of size `n`. -/
def poll (p : EpollPoller K) (n : Nat) (ready : List (Int × EpollMask)) :
    Option (List (K × Events)) :=
  (epollWait p.interest n ready).map fun es => es.map fun e => (e.data, revents e.events)

end EpollPoller

def kInitEventListSize : Nat := 16

structure LoopPoller where
  poller : EpollPoller ChannelId := {}
  /-- `events_.size()`. -/
  events_ : Nat := kInitEventListSize
  fd_ : ChannelId → Option Int := fun _ => none
  /-- Every entry is under its channel's descriptor. -/
  entries : ∀ f e, poller.interest f = some e → fd_ e.data = some f

namespace LoopPoller

/-- Channel `k` was not called on under another descriptor. -/
def known (p : LoopPoller) (k : ChannelId) (x : Channel) : Prop :=
  p.fd_ k = none ∨ p.fd_ k = some x.fd_

instance (p : LoopPoller) (k : ChannelId) (x : Channel) : Decidable (p.known k x) := by
  unfold known
  infer_instance

theorem update_interest {K : Type} [DecidableEq K] (p : EpollPoller K) (op : CtlOp) (k : K)
    (x : Channel) {f : Int} {e : EpollEvent K} (h : (p.update op k x).1.interest f = some e) :
    p.interest f = some e ∨ f = x.fd_ ∧ e.data = k := by
  unfold EpollPoller.update at h
  split at h
  · exact .inl h
  · next i hi =>
      have hupd : ∀ {v : Option (EpollEvent K)}, (∀ e', v = some e' → e'.data = k) →
          Function.update p.interest x.fd_ v f = some e →
          p.interest f = some e ∨ f = x.fd_ ∧ e.data = k := by
        intro v hv hf
        by_cases hfd : f = x.fd_
        · rw [hfd, Function.update_self] at hf
          exact .inr ⟨hfd, hv e hf⟩
        · rw [Function.update_of_ne hfd] at hf
          exact .inl hf
      unfold epollCtl at hi
      split at hi <;> cases hi
      · exact hupd (by rintro e' ⟨⟩; rfl) h
      · exact hupd (by rintro e' ⟨⟩; rfl) h
      · exact hupd (by rintro e' ⟨⟩) h

theorem delete_interest {K : Type} [DecidableEq K] (p : EpollPoller K) (k : K) (x : Channel)
    {f : Int} {e : EpollEvent K} (h : (p.update .del k x).1.interest f = some e) :
    p.interest f = some e ∧ f ≠ x.fd_ := by
  unfold EpollPoller.update epollCtl at h
  cases hx : p.interest x.fd_ with
  | none =>
      rw [hx] at h
      refine ⟨h, ?_⟩
      rintro rfl
      rw [hx] at h
      cases h
  | some e' =>
      rw [hx] at h
      have hf : Function.update p.interest x.fd_ none f = some e := h
      by_cases hfd : f = x.fd_
      · rw [hfd, Function.update_self] at hf
        cases hf
      · rw [Function.update_of_ne hfd] at hf
        exact ⟨hf, hfd⟩

theorem update_entries (p : LoopPoller) {k : ChannelId} {x : Channel} (op : CtlOp)
    (h : p.known k x) (f : Int) (e : EpollEvent ChannelId)
    (he : (p.poller.update op k x).1.interest f = some e) :
    Function.update p.fd_ k (some x.fd_) e.data = some f := by
  rcases update_interest p.poller op k x he with hold | ⟨rfl, hd⟩
  · have hfd := p.entries f e hold
    by_cases hk : e.data = k
    · rw [hk] at hfd ⊢
      rw [Function.update_self]
      rcases h with hno | hsame
      · rw [hno] at hfd
        cases hfd
      · rw [← hsame, hfd]
    · rw [Function.update_of_ne hk]
      exact hfd
  · rw [hd, Function.update_self]

def updateChannel (p : LoopPoller) (k : ChannelId) (x : Channel) : Option LoopPoller :=
  if h : p.known k x then
    some
      { p with
        poller := (p.poller.updateChannel k x).1
        fd_ := Function.update p.fd_ k (some x.fd_)
        entries := p.update_entries _ h }
  else none

def removeChannel (p : LoopPoller) (k : ChannelId) (x : Channel) : Option LoopPoller :=
  if h : p.known k x then
    some
      { p with
        poller := (p.poller.removeChannel k x).1
        fd_ := Function.update p.fd_ k (some x.fd_)
        entries := p.update_entries .del h }
  else none

def poll (p : LoopPoller) (ready : List (Int × EpollMask)) :
    Option (LoopPoller × List (ChannelId × Events)) :=
  (p.poller.poll p.events_ ready).map fun active =>
    ({ p with events_ := if active.length = p.events_ then p.events_ * 2 else p.events_ }, active)

/-- The interest list has an entry for the channel. -/
def registered (p : LoopPoller) (k : ChannelId) : Prop :=
  ∃ f e, p.poller.interest f = some e ∧ e.data = k

end LoopPoller

/-- What `epoll_wait` reports is on the interest list. -/
theorem epollWait_mem {K : Type} {interest : Int → Option (EpollEvent K)} {n : Nat}
    {ready : List (Int × EpollMask)} {es : List (EpollEvent K)} {e : EpollEvent K}
    (h : epollWait interest n ready = some es) (he : e ∈ es) :
    ∃ r ∈ ready, ∃ e', interest r.1 = some e' ∧ e = ⟨r.2, e'.data⟩ := by
  unfold epollWait at h
  split at h
  · cases h
    obtain ⟨r, hr, hmap⟩ := List.mem_filterMap.mp he
    obtain ⟨e', he', rfl⟩ := Option.map_eq_some_iff.mp hmap
    exact ⟨r, hr, e', he', rfl⟩
  · cases h

namespace LoopPoller

/-- What `poll` reports of a channel is what the kernel found under its
descriptor. -/
theorem poll_mem {p : LoopPoller} {ready : List (Int × EpollMask)}
    {q : LoopPoller × List (ChannelId × Events)} {k : ChannelId} {rev : Events}
    (h : p.poll ready = some q) (hk : (k, rev) ∈ q.2) :
    ∃ r ∈ ready, ∃ e, p.poller.interest r.1 = some e ∧ e.data = k ∧
      rev = EpollPoller.revents r.2 := by
  obtain ⟨es, hes, heq⟩ := Option.map_eq_some_iff.mp h
  cases heq
  obtain ⟨ws, hws, rfl⟩ := Option.map_eq_some_iff.mp hes
  obtain ⟨e, he, heq⟩ := List.mem_map.mp hk
  obtain ⟨r, hr, e', he', rfl⟩ := epollWait_mem hws he
  cases heq
  exact ⟨r, hr, e', he', rfl, rfl⟩

/-- No channel is reported twice, for each has one descriptor. -/
theorem poll_nodup {p q : LoopPoller} {ready : List (Int × EpollMask)}
    {active : List (ChannelId × Events)} (h : p.poll ready = some (q, active)) :
    (active.map Prod.fst).Nodup := by
  obtain ⟨es, hes, heq⟩ := Option.map_eq_some_iff.mp h
  cases heq
  obtain ⟨ws, hws, rfl⟩ := Option.map_eq_some_iff.mp hes
  unfold epollWait at hws
  split at hws
  · next hok =>
      cases hws
      rw [List.map_map, List.map_filterMap]
      have hfds : ready.Pairwise fun r r' => r.1 ≠ r'.1 := List.pairwise_map.mp hok.2.1
      refine List.pairwise_filterMap.mpr (hfds.imp fun {r r'} hne k hk k' hk' hkk => hne ?_)
      simp only [Option.map_map, Option.map_eq_some_iff, Function.comp_apply] at hk hk'
      obtain ⟨e, he, rfl⟩ := hk
      obtain ⟨e', he', rfl⟩ := hk'
      have h1 := p.entries _ e he
      rw [show e.data = e'.data from hkk, p.entries _ e' he'] at h1
      exact (Option.some.inj h1).symm
  · cases hws

end LoopPoller

/-- The poller of a loop. `none` is a channel under a second descriptor. -/
def epollPoller : Poller LoopPoller (List (Int × EpollMask)) where
  new := { entries := fun _ _ h => by cases h }
  updateChannel p k x _ := p.updateChannel k x
  removeChannel := LoopPoller.removeChannel
  poll p _ ready := (p.poll ready).map fun r => (r.1, some r.2)
  registered := LoopPoller.registered
  not_registered_new := by
    rintro k ⟨f, e, he, _⟩
    cases he
  registered_update {p k x _ p' j} h hj := by
    obtain ⟨f, e, he, rfl⟩ := hj
    unfold LoopPoller.updateChannel at h
    split at h
    · cases h
      rcases LoopPoller.update_interest p.poller _ k x he with hold | ⟨_, hd⟩
      · exact .inl ⟨f, e, hold, rfl⟩
      · exact .inr hd
    · cases h
  registered_remove {p k x p' j} h hj := by
    obtain ⟨f, e, he, rfl⟩ := hj
    unfold LoopPoller.removeChannel at h
    split at h
    · next hknown =>
        cases h
        obtain ⟨hold, hfd⟩ := LoopPoller.delete_interest p.poller k x he
        refine ⟨⟨f, e, hold, rfl⟩, ?_⟩
        rintro rfl
        have hk := p.entries f e hold
        rcases hknown with hno | hsame
        · rw [hno] at hk
          cases hk
        · rw [hsame] at hk
          exact hfd (Option.some.inj hk).symm
    · cases h
  registered_poll {p xs ready r j} h hj := by
    obtain ⟨q, hq, rfl⟩ := Option.map_eq_some_iff.mp h
    obtain ⟨active, _, rfl⟩ := Option.map_eq_some_iff.mp hq
    exact hj
  poll_registered {p xs ready p' active j rev} h hj := by
    obtain ⟨q, hq, heq⟩ := Option.map_eq_some_iff.mp h
    cases heq
    obtain ⟨r, _, e, he, hd, _⟩ := LoopPoller.poll_mem hq hj
    exact ⟨r.1, e, he, hd⟩

end Muduox.Net
