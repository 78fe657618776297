import Muduox.Net.EpollPoller
import Muduox.Proofs.ClosedSockets

/-!
# The descriptors of a server on epoll

`epoll_ctl` fails for a descriptor that is not open, that is on the list already
or is not (and when the kernel runs out of memory or watches, which is left out),
and the kernel gives the number of a closed descriptor to the next connection. The
server never has a call fail, whichever numbers `accept` gives it, as long as they
are not those of open descriptors (`AcceptsClosed`).

Open sockets then have descriptors of their own (`Apart`). What is on a list is
a channel that was not removed, so its socket is open (`closed_untouched`), and
an entry under the descriptor of a channel is the channel's. A call of the
poller is the first thing on its thread's stack, so between the change of
`events_` and the call nothing of the connection runs.
-/

namespace Muduox.Net

namespace LoopPoller

variable {p : LoopPoller} {k : ChannelId} {x : Channel}

/-- `index_` says whether a channel is on the list. -/
def Indexed (p : LoopPoller) : Prop := ∀ k, 0 ≤ p.poller.index_ k ↔ p.registered k

/-- A registered channel is on the list under its own descriptor. -/
theorem interest_of_registered (h : p.known k x) (hk : p.registered k) :
    ∃ m, p.poller.interest x.fd_ = some ⟨m, k⟩ := by
  obtain ⟨f, ⟨m, _⟩, he, rfl⟩ := hk
  have hfd := p.entries f _ he
  rcases h with hno | hsome
  · rw [hno] at hfd
    cases hfd
  · rw [hsome] at hfd
    cases hfd
    exact ⟨m, he⟩

/-- `updateChannel` succeeds where the entry under the descriptor, if there is
one, is the channel's. -/
theorem updateChannel_ok (hi : p.Indexed) (h : p.known k x)
    (hown : ∀ e, p.poller.interest x.fd_ = some e → e.data = k) :
    p.poller.updateChannel k x =
      ({ interest :=
          Function.update p.poller.interest x.fd_ (some ⟨EpollPoller.mask x, k⟩)
         index_ := Function.update p.poller.index_ k 0
         channels_ := Function.update p.poller.channels_ x.fd_ (some k) }, true) := by
  unfold EpollPoller.updateChannel EpollPoller.operation EpollPoller.update epollCtl
  by_cases hk : p.registered k
  · obtain ⟨m, hm⟩ := interest_of_registered h hk
    have hpos : ¬ p.poller.index_ k < 0 := by
      have hindex := (hi k).mpr hk
      omega
    simp only [if_neg hpos, hm]
    rfl
  · have hneg : p.poller.index_ k < 0 := by
      have hindex := mt (hi k).mp hk
      omega
    have hnone : p.poller.interest x.fd_ = none := by
      cases he : p.poller.interest x.fd_ with
      | none => rfl
      | some e => exact absurd ⟨x.fd_, e, he, hown e he⟩ hk
    simp only [if_pos hneg, hnone]
    rfl

/-- A call on channel `k` that wrote `v` under its descriptor, and nothing else. -/
structure Wrote (p : LoopPoller) (k : ChannelId) (x : Channel) (v : Option (EpollEvent ChannelId))
    (p' : LoopPoller) : Prop where
  known : p.known k x
  own : ∀ e, p.poller.interest x.fd_ = some e → e.data = k
  entry : ∀ e, v = some e → e = ⟨EpollPoller.mask x, k⟩
  interest : p'.poller.interest = Function.update p.poller.interest x.fd_ v
  index : ∃ i, p'.poller.index_ = Function.update p.poller.index_ k i ∧ (0 ≤ i ↔ v.isSome = true)
  fds : p'.fd_ = Function.update p.fd_ k (some x.fd_)

/-- What is registered then. -/
theorem Wrote.registered {p' : LoopPoller} {v : Option (EpollEvent ChannelId)}
    (h : p.Wrote k x v p') (j : ChannelId) :
    p'.registered j ↔ if j = k then v.isSome = true else p.registered j := by
  unfold LoopPoller.registered
  rw [h.interest]
  by_cases hj : j = k
  · subst hj
    rw [if_pos rfl]
    constructor
    · rintro ⟨f, e, he, hd⟩
      by_cases hf : f = x.fd_
      · rw [hf, Function.update_self] at he
        rw [he]
        rfl
      · rw [Function.update_of_ne hf] at he
        have hfd := p.entries f e he
        rw [hd] at hfd
        rcases h.known with hno | hsome
        · rw [hno] at hfd
          cases hfd
        · rw [hsome] at hfd
          exact absurd (Option.some.inj hfd).symm hf
    · intro hs
      obtain ⟨e, he⟩ := Option.isSome_iff_exists.mp hs
      exact ⟨x.fd_, e, by rw [Function.update_self]; exact he, by rw [h.entry e he]⟩
  · rw [if_neg hj]
    constructor
    · rintro ⟨f, e, he, hd⟩
      by_cases hf : f = x.fd_
      · rw [hf, Function.update_self] at he
        rw [h.entry e he] at hd
        exact absurd hd.symm hj
      · rw [Function.update_of_ne hf] at he
        exact ⟨f, e, he, hd⟩
    · rintro ⟨f, e, he, hd⟩
      have hf : f ≠ x.fd_ := by
        rintro rfl
        exact hj (hd.symm.trans (h.own e he))
      exact ⟨f, e, by rw [Function.update_of_ne hf]; exact he, hd⟩

/-- `removeChannel` of a registered channel succeeds. -/
theorem removeChannel_ok (h : p.known k x) (hk : p.registered k) :
    p.poller.removeChannel k x =
      ({ interest := Function.update p.poller.interest x.fd_ none
         index_ := Function.update p.poller.index_ k (-1)
         channels_ := Function.update p.poller.channels_ x.fd_ none }, true) := by
  obtain ⟨m, hm⟩ := interest_of_registered h hk
  unfold EpollPoller.removeChannel EpollPoller.update epollCtl
  rw [hm]
  rfl

theorem updateChannel_wrote {p' : LoopPoller} (hp : p.updateChannel k x = some p')
    (hi : p.Indexed) (hown : ∀ e, p.poller.interest x.fd_ = some e → e.data = k) :
    p.Wrote k x (some ⟨EpollPoller.mask x, k⟩) p' := by
  unfold LoopPoller.updateChannel at hp
  split at hp
  · next h =>
      cases hp
      have hok := updateChannel_ok hi h hown
      exact ⟨h, hown, fun e he => (Option.some.inj he).symm, congrArg (fun q => q.1.interest) hok,
        ⟨0, congrArg (fun q => q.1.index_) hok, by simp⟩, rfl⟩
  · cases hp

theorem removeChannel_wrote {p' : LoopPoller} (hp : p.removeChannel k x = some p')
    (hk : p.registered k) (hown : ∀ e, p.poller.interest x.fd_ = some e → e.data = k) :
    p.Wrote k x none p' := by
  unfold LoopPoller.removeChannel at hp
  split at hp
  · next h =>
      cases hp
      have hok := removeChannel_ok h hk
      exact ⟨h, hown, fun e he => (by cases he), congrArg (fun q => q.1.interest) hok,
        ⟨-1, congrArg (fun q => q.1.index_) hok, by simp⟩, rfl⟩
  · cases hp

end LoopPoller

namespace TcpServer

open Threads Reactor TcpConnection

variable {P E : Type} {cfg : ServerConfig} {poller : Poller P E}
  {C : State P → ThreadId × Choice Code (Io E) → Prop} {s s' : State P} {c : ConnId}
  {t : ThreadId} {ch : Choice Code (Io E)}

/-! ## Calls of the poller come first -/

/-- `Channel::update`. -/
def updates : Frame Code → Bool
  | .code (.update _) => true
  | _ => false

/-- Nothing lies on top of a call of the poller, but the `update` that comes
before a `remove`. -/
def Foremost (g b : Frame Code) : Prop :=
  pollerCall b = true → updates b = false ∧ updates g = true

theorem pairwise_foremost {fs : List (Frame Code)} (h : ∀ g ∈ fs, pollerCall g = false) :
    fs.Pairwise Foremost := by
  refine List.pairwise_of_forall_mem_list fun _ _ b hb hp => ?_
  rw [h b hb] at hp
  cases hp

theorem runs_foremost {a : Code} {io : Io E} {x x' : TcpServer P} {next : List (Frame Code)}
    (h : Runs cfg poller t x a io x' next) : next.Pairwise Foremost := by
  cases h with
  | @conn d _ _ _ _ _ h =>
      have hupd : ((x.conn d).updateUnlessWriting d).Pairwise Foremost := by
        unfold updateUnlessWriting
        split <;> simp
      cases h with
      | sendBufferHere | sentPart | queued => exact hupd
      | _ => simp [Foremost, updates, pollerCall]
  | handleEvent =>
      refine pairwise_foremost fun g hg => ?_
      rcases mem_handleEvent hg with
        ⟨_, rfl⟩ | ⟨_, _, _, rfl, ⟨_, rfl⟩ | ⟨_, rfl⟩ | ⟨_, rfl⟩ | ⟨_, rfl⟩⟩ <;>
          rfl
  | removeConnectionInLoop =>
      refine pairwise_foremost fun g hg => ?_
      rw [mem_removeConnectionInLoop hg]
      rfl
  | _ => simp [TcpServer.listen, TcpServer.newConnection]

theorem foremost_step {b : ThreadId × Choice Code (Io E)}
    (hs : (lts cfg poller).step s b = some s') (h : Ordered Foremost s) : Ordered Foremost s' := by
  obtain ⟨t, ch⟩ := b
  obtain ⟨f, rest, x, next, ht, hr, rfl⟩ := step_runs hs
  -- What an `update` leaves on top of a `remove` is nothing.
  have hover : (updates f = true → next = []) →
      ∀ b ∈ rest, Foremost f b → ∀ g ∈ next, Foremost g b := by
    intro hn b _ hfb g hg hp
    rw [hn (hfb hp).2] at hg
    cases hg
  cases hr with
  | code hx =>
      have hserver := exec_runs hx
      refine h.resume ht (runs_foremost hserver) (hover fun hu => ?_)
      cases hserver <;> first | rfl | cases hu
  | polled hx =>
      refine h.resume ht (pairwise_foremost fun g hg => ?_) (hover fun hu => by cases hu)
      rcases mem_iteration hg with ⟨b, hb, rfl⟩ | rfl | rfl | rfl
      · obtain ⟨ch, rfl⟩ := polled_handleEvent hx hb
        rfl
      all_goals rfl
  | doPendingFunctors =>
      refine h.resume ht (pairwise_foremost fun g hg => ?_) (hover fun hu => by cases hu)
      obtain ⟨_, _, rfl⟩ := List.mem_map.mp hg
      rfl
  | _ => exact h.resume ht (by simp [Foremost, pollerCall]) (hover fun hu => by cases hu)

theorem foremost (h : (lts cfg poller).ReachIf C s) : Ordered Foremost s := by
  refine run_inv h (fun t => pairwise_foremost fun f hf => ?_) fun _ hI _ hs => foremost_step hs hI
  rcases started_cases hf with ⟨l, rfl⟩ | rfl | rfl <;> rfl

/-- So an `update` is the next thing its thread runs. -/
theorem update_top (h : (lts cfg poller).ReachIf C s) {k : ChannelId}
    (hmem : .code (.update k) ∈ s.stack t) : ∃ rest, s.stack t = .code (.update k) :: rest := by
  have hpair := foremost h t
  cases hst : s.stack t with
  | nil =>
      rw [hst] at hmem
      cases hmem
  | cons f rest =>
      rw [hst] at hmem hpair
      rcases List.mem_cons.mp hmem with rfl | hrest
      · exact ⟨rest, rfl⟩
      · have hno := ((List.pairwise_cons.mp hpair).1 _ hrest rfl).1
        cases hno

/-- Under a `remove` that runs there is no call of the poller. -/
theorem remove_top (h : (lts cfg poller).ReachIf C s) {k : ChannelId} {rest : List (Frame Code)}
    (ht : s.stack t = .code (.remove k) :: rest) : ∀ f ∈ rest, pollerCall f = false := by
  intro f hf
  refine Bool.eq_false_iff.mpr fun hp => ?_
  have hpair := foremost h t
  rw [ht] at hpair
  have hno := ((List.pairwise_cons.mp hpair).1 f hf hp).2
  cases hno

/-! ## Open sockets -/

/-- The channel's socket is open. -/
def IsOpen (x : TcpServer P) : ChannelId → Prop
  | .acceptor => True
  | .conn c => c < x.accepted ∧ (x.conn c).socket_ = true

/-- A descriptor that was accepted, of which no connection was made yet. -/
def arrived : Frame Code → Option Int
  | .code (.newConnection fd) => some fd
  | _ => none

def arriving (s : State P) : List Int := (s.stack (.loop acceptLoop)).filterMap arrived

/-- The descriptor is open: the acceptor's, a connection's, or one that just
arrived. -/
def OpenFd (s : State P) (fd : Int) : Prop :=
  fd = s.shared.app.acceptor_.acceptChannel_.fd_ ∨
    (∃ c < s.shared.app.accepted, (s.shared.app.conn c).socket_ = true ∧
      (s.shared.app.conn c).channel_.fd_ = fd) ∨
    fd ∈ arriving s

instance (s : State P) (fd : Int) : Decidable (OpenFd s fd) :=
  inferInstanceAs (Decidable (_ ∨ _ ∨ _))

/-- `accept` returns no descriptor that is open. -/
def AcceptsClosed (s : State P) (b : ThreadId × Choice Code (Io E)) : Prop :=
  match b.2 with
  | .app (.accepted (some fd)) => ¬ OpenFd s fd
  | _ => True

instance (s : State P) (b : ThreadId × Choice Code (Io E)) : Decidable (AcceptsClosed s b) :=
  match b with
  | (_, .app (.accepted (some fd))) => inferInstanceAs (Decidable (¬ OpenFd s fd))
  | (_, .app (.accepted none)) | (_, .app .none) | (_, .app (.sent _)) | (_, .app (.received _))
  | (_, .app (.poller _)) | (_, .go) | (_, .ret) | (_, .call _) | (_, .callRunInLoop _)
  | (_, .callQueueInLoop _) | (_, .callQuit _) | (_, .moved _) | (_, .poll _ _) => .isTrue trivial

theorem openFd_iff {fd : Int} :
    OpenFd s fd ↔ (∃ k, IsOpen s.shared.app k ∧ (s.shared.app.channel k).fd_ = fd) ∨
      fd ∈ arriving s := by
  constructor
  · rintro (rfl | ⟨c, hc, ho, rfl⟩ | h)
    · exact .inl ⟨.acceptor, trivial, rfl⟩
    · exact .inl ⟨.conn c, ⟨hc, ho⟩, rfl⟩
    · exact .inr h
  · rintro (⟨k, ho, rfl⟩ | h)
    · cases k with
      | acceptor => exact .inl rfl
      | conn c => exact .inr (.inl ⟨c, ho.1, ho.2, rfl⟩)
    · exact .inr (.inr h)

/-- No two open sockets have one descriptor. -/
structure Apart (s : State P) : Prop where
  channels : ∀ j k, IsOpen s.shared.app j → IsOpen s.shared.app k →
    (s.shared.app.channel j).fd_ = (s.shared.app.channel k).fd_ → j = k
  incoming : ∀ k, IsOpen s.shared.app k → (s.shared.app.channel k).fd_ ∉ arriving s
  nodup : (arriving s).Nodup

theorem connRuns_fd {x x' : TcpConnection} {k : ConnCode} {io : Io E} {evs : List Event}
    {next : List (Frame Code)} (h : x.Runs c t k io x' evs next) :
    x'.channel_.fd_ = x.channel_.fd_ := by
  cases h with
  | sendBufferHere _ _ hx | sentPart _ _ _ _ _ hx | queued _ _ hx =>
      rw [hx.rest]
      dsimp only
      split <;> rfl
  | _ => rfl

/-- A socket that is open was open before, or has just been accepted. -/
theorem runs_open {a : Code} {io : Io E} {x x' : TcpServer P} {next : List (Frame Code)}
    (h : Runs cfg poller t x a io x' next) {k : ChannelId} (ho : IsOpen x' k) :
    IsOpen x k ∧ (x'.channel k).fd_ = (x.channel k).fd_ ∨
      a = .newConnection (x'.channel k).fd_ ∧ k = .conn x.accepted := by
  cases k with
  | acceptor =>
      refine .inl ⟨trivial, ?_⟩
      cases h with
      | @handleEvent ch =>
          obtain ⟨r, hr⟩ := (setChannel_revents x ch kNoneEvent).acceptor
          show (x.setChannel ch _).acceptor_.acceptChannel_.fd_ = _
          rw [hr]
          rfl
      | _ => rfl
  | conn c =>
      have hother : (∀ fd, a ≠ .newConnection fd) → x'.accepted = x.accepted →
          IsOpen x (.conn c) ∧ (x'.channel (.conn c)).fd_ = (x.channel (.conn c)).fd_ := by
        intro ha hacc
        have hlt : c < x.accepted := hacc ▸ ho.1
        have hsocket := ho.2
        show (c < _ ∧ (x.conn c).socket_ = true) ∧
          (x'.conn c).channel_.fd_ = (x.conn c).channel_.fd_
        cases runs_touches h c with
        | @piece k _ _ _ hr =>
            have hk : k ≠ .resetSocket := by
              rintro rfl
              generalize x'.conn c = y at hr hsocket
              cases hr
              cases hsocket
            rw [(connRuns_socket hr).2 hk] at hsocket
            exact ⟨⟨hlt, hsocket⟩, connRuns_fd hr⟩
        | idle _ hi =>
            obtain ⟨r, hx⟩ := hi.conn
            rw [hx] at hsocket ⊢
            exact ⟨⟨hlt, hsocket⟩, rfl⟩
        | new => exact absurd rfl (ha _)
      cases h with
      | @newConnection fd =>
          by_cases hc : c = x.accepted
          · subst hc
            refine .inr ⟨congrArg Code.newConnection ?_, rfl⟩
            show fd = (Function.update x.conn x.accepted _ x.accepted).channel_.fd_
            rw [Function.update_self]
          · have hconn : (TcpServer.newConnection cfg x fd).1.conn c = x.conn c :=
              Function.update_of_ne hc ..
            have hsocket := ho.2
            rw [hconn] at hsocket
            refine .inl ⟨⟨?_, hsocket⟩, ?_⟩
            · exact (Nat.lt_succ_iff_lt_or_eq.mp ho.1).resolve_right hc
            · show ((TcpServer.newConnection cfg x fd).1.conn c).channel_.fd_ = _
              rw [hconn]
              rfl
      | @handleEvent ch =>
          exact .inl (hother (by simp) (setChannel_revents x ch kNoneEvent).accepted)
      | _ => exact .inl (hother (by simp) rfl)

theorem poll_open {l : LoopId} {io : Io E} {x : TcpServer P}
    {r : TcpServer P × Option (List Code)} (h : poll poller l io x = some r) (k : ChannelId)
    (ho : IsOpen r.1 k) : IsOpen x k ∧ (r.1.channel k).fd_ = (x.channel k).fd_ := by
  obtain ⟨_, q, _, _, hrev, _⟩ := poll_revents h
  cases k with
  | acceptor =>
      obtain ⟨r', hacc⟩ := hrev.acceptor
      refine ⟨trivial, ?_⟩
      show r.1.acceptor_.acceptChannel_.fd_ = _
      rw [hacc]
      rfl
  | conn c =>
      obtain ⟨r', hconn⟩ := hrev.conn c
      have hsocket := ho.2
      have hlt := ho.1
      rw [hrev.accepted] at hlt
      rw [hconn] at hsocket
      refine ⟨⟨hlt, hsocket⟩, ?_⟩
      show (r.1.conn c).channel_.fd_ = _
      rw [hconn]
      rfl

/-- A descriptor arrives from `accept`. -/
theorem runs_arrived {a : Code} {io : Io E} {x x' : TcpServer P} {next : List (Frame Code)}
    (h : Runs cfg poller t x a io x' next) :
    next.filterMap arrived = [] ∨
      ∃ fd, a = .acceptorHandleRead ∧ io = .accepted (some fd) ∧ next.filterMap arrived = [fd] := by
  have hnone : (∀ g ∈ next, arrived g = none) → next.filterMap arrived = [] :=
    List.filterMap_eq_nil_iff.mpr
  cases h with
  | accept => exact .inr ⟨_, rfl, rfl, rfl⟩
  | conn h =>
      refine .inl (hnone fun g hg => ?_)
      cases h.leaves g hg <;> rfl
  | handleEvent =>
      refine .inl (hnone fun g hg => ?_)
      rcases mem_handleEvent hg with
        ⟨_, rfl⟩ | ⟨_, _, _, rfl, ⟨_, rfl⟩ | ⟨_, rfl⟩ | ⟨_, rfl⟩ | ⟨_, rfl⟩⟩ <;>
          rfl
  | removeConnectionInLoop =>
      refine .inl (hnone fun g hg => ?_)
      rw [mem_removeConnectionInLoop hg]
      rfl
  | _ => exact .inl rfl

/-- What a step does to the open descriptors. -/
inductive FdStep (ch : Choice Code (Io E)) (s s' : State P) : Prop
  | quiet (hopen : ∀ k, IsOpen s'.shared.app k →
        IsOpen s.shared.app k ∧ (s'.shared.app.channel k).fd_ = (s.shared.app.channel k).fd_)
      (harr : arriving s' = arriving s)
  | accepted {fd : Int} (hch : ch = .app (.accepted (some fd)))
      (hopen : ∀ k, IsOpen s'.shared.app k →
        IsOpen s.shared.app k ∧ (s'.shared.app.channel k).fd_ = (s.shared.app.channel k).fd_)
      (harr : arriving s' = fd :: arriving s)
  | made {fd : Int} (hopen : ∀ k, IsOpen s'.shared.app k →
        IsOpen s.shared.app k ∧ (s'.shared.app.channel k).fd_ = (s.shared.app.channel k).fd_ ∨
          fd = (s'.shared.app.channel k).fd_ ∧ k = .conn s.shared.app.accepted)
      (harr : arriving s = fd :: arriving s')

theorem fd_step (hr : (lts cfg poller).ReachIf C s)
    (hs : (lts cfg poller).step s (t, ch) = some s') : FdStep ch s s' := by
  obtain ⟨f, rest, x, next, ht, hruns, rfl⟩ := step_runs hs
  -- The descriptors on the accept loop's stack, and what this step makes of them.
  have hother : t ≠ .loop acceptLoop →
      arriving (s.resume t x next rest) = arriving s := fun hne => by
    unfold arriving
    rw [Config.resume_stack_of_ne _ (Ne.symm hne)]
  have hown : t = .loop acceptLoop → arriving (s.resume t x next rest) =
        next.filterMap arrived ++ rest.filterMap arrived ∧
      arriving s = (arrived f).toList ++ rest.filterMap arrived := by
    rintro rfl
    unfold arriving
    rw [Config.resume_stack_self, List.filterMap_append, ht, List.filterMap_cons]
    exact ⟨rfl, by cases arrived f <;> rfl⟩
  have hsame : arrived f = none → next.filterMap arrived = [] →
      arriving (s.resume t x next rest) = arriving s := by
    intro hf hn
    by_cases htl : t = .loop acceptLoop
    · obtain ⟨h1, h2⟩ := hown htl
      rw [h1, h2, hf, hn]
      rfl
    · exact hother htl
  have hwf : Wrapped f := (wrapped hr).stack t f (by rw [ht]; exact List.mem_cons_self)
  have hjob : ∀ {cb : Frame Code}, (cb = .user ∨ ∃ a, cb = .code a ∧ Job a) →
      ∀ g ∈ [cb], arrived g = none := by
    rintro cb hcb g hg
    rw [List.mem_singleton.mp hg]
    rcases hcb with rfl | ⟨a, rfl, ha⟩
    · rfl
    · cases a <;> first | rfl | cases ha
  have hquiet : (∀ k, IsOpen x.app k → IsOpen s.shared.app k ∧
      (x.app.channel k).fd_ = (s.shared.app.channel k).fd_) → arrived f = none →
      (∀ g ∈ next, arrived g = none) → FdStep ch s (s.resume t x next rest) :=
    fun hopen hf hn => .quiet hopen (hsame hf (List.filterMap_eq_nil_iff.mpr hn))
  cases hruns with
  | @code a io y _ hx =>
      have hserver := exec_runs hx
      have hbound : Bound t a s.shared.app :=
        (base hr).all.stack t _ (by rw [ht]; exact List.mem_cons_self) _ rfl
      have hopen : ∀ k, IsOpen y k → _ := fun k ho => runs_open hserver ho
      by_cases hnew : ∃ fd, a = .newConnection fd
      · obtain ⟨fd, rfl⟩ := hnew
        obtain ⟨h1, h2⟩ := hown hbound
        have harr : arriving s = fd ::
            arriving (s.resume t { s.shared with app := y } next rest) := by
          rw [h1, h2]
          cases hserver
          rfl
        exact .made (fun k ho => (hopen k ho).imp id fun h =>
          ⟨Code.newConnection.inj h.1, h.2⟩) harr
      · have hopen' : ∀ k, IsOpen y k → IsOpen s.shared.app k ∧
            (y.channel k).fd_ = (s.shared.app.channel k).fd_ := fun k ho =>
          (hopen k ho).resolve_right fun h => hnew ⟨_, h.1⟩
        have hf : arrived (.code a) = none := by
          cases a <;> first | rfl | exact absurd ⟨_, rfl⟩ hnew
        rcases runs_arrived hserver with hn | ⟨fd, rfl, rfl, hn⟩
        · exact .quiet hopen' (hsame hf hn)
        · obtain ⟨h1, h2⟩ := hown hbound
          refine .accepted rfl hopen' ?_
          rw [h1, h2, hn]
          rfl
  | polling hx => exact hquiet (poll_open hx) rfl (by simp [arrived])
  | polled hx =>
      refine hquiet (poll_open hx) rfl fun g hg => ?_
      rcases mem_iteration hg with ⟨b, hb, rfl⟩ | rfl | rfl | rfl
      · obtain ⟨ch, rfl⟩ := polled_handleEvent hx hb
        rfl
      all_goals rfl
  | @call a ha =>
      refine hquiet (fun _ ho => ⟨ho, rfl⟩) rfl fun g hg => ?_
      rcases List.mem_cons.mp hg with rfl | hg
      · have ha : api t s.shared.app a = true := ha
        unfold api at ha
        split at ha <;> first | rfl | cases ha
      · rw [List.mem_singleton.mp hg]
        rfl
  | doPendingFunctors =>
      refine hquiet (fun _ ho => ⟨ho, rfl⟩) rfl fun g hg => ?_
      obtain ⟨_, _, rfl⟩ := List.mem_map.mp hg
      rfl
  | runHere => exact hquiet (fun _ ho => ⟨ho, rfl⟩) rfl (hjob (wrapped_closed.run hwf).2)
  | functor => exact hquiet (fun _ ho => ⟨ho, rfl⟩) rfl (hjob hwf)
  | _ => exact hquiet (fun _ ho => ⟨ho, rfl⟩) rfl (by simp [arrived])

theorem apart_step (h : Apart s) (hc : AcceptsClosed s (t, ch)) (hs : FdStep ch s s') :
    Apart s' := by
  cases hs with
  | quiet hopen harr =>
      refine ⟨fun j k hj hk hfd => ?_, fun k hk => ?_, harr ▸ h.nodup⟩
      · rw [(hopen j hj).2, (hopen k hk).2] at hfd
        exact h.channels j k (hopen j hj).1 (hopen k hk).1 hfd
      · rw [harr, (hopen k hk).2]
        exact h.incoming k (hopen k hk).1
  | @accepted fd hch hopen harr =>
      have hfresh : ¬ OpenFd s fd := by
        rw [hch] at hc
        exact hc
      rw [openFd_iff] at hfresh
      refine ⟨fun j k hj hk hfd => ?_, fun k hk hmem => ?_, ?_⟩
      · rw [(hopen j hj).2, (hopen k hk).2] at hfd
        exact h.channels j k (hopen j hj).1 (hopen k hk).1 hfd
      · rw [harr, (hopen k hk).2] at hmem
        rcases List.mem_cons.mp hmem with he | hmem
        · exact hfresh (.inl ⟨k, (hopen k hk).1, he⟩)
        · exact h.incoming k (hopen k hk).1 hmem
      · rw [harr]
        exact List.nodup_cons.mpr ⟨fun hmem => hfresh (.inr hmem), h.nodup⟩
  | @made fd hopen harr =>
      have hnodup := h.nodup
      rw [harr, List.nodup_cons] at hnodup
      -- No socket that was open before has the descriptor of the new one.
      have hold : ∀ k, IsOpen s.shared.app k → (s.shared.app.channel k).fd_ ≠ fd ∧
          (s.shared.app.channel k).fd_ ∉ arriving s' := by
        intro k hk
        have hno := h.incoming k hk
        rw [harr] at hno
        exact ⟨fun he => hno (he ▸ List.mem_cons_self),
          fun hmem => hno (List.mem_cons_of_mem _ hmem)⟩
      refine ⟨fun j k hj hk hfd => ?_, fun k hk => ?_, hnodup.2⟩
      · rcases hopen j hj with ⟨hj', hfj⟩ | ⟨hfj, rfl⟩ <;>
          rcases hopen k hk with ⟨hk', hfk⟩ | ⟨hfk, rfl⟩
        · rw [hfj, hfk] at hfd
          exact h.channels j k hj' hk' hfd
        · rw [hfj, ← hfk] at hfd
          exact absurd hfd (hold j hj').1
        · rw [← hfj, hfk] at hfd
          exact absurd hfd.symm (hold k hk').1
        · rfl
      · rcases hopen k hk with ⟨hk', hfk⟩ | ⟨hfk, _⟩
        · rw [hfk]
          exact (hold k hk').2
        · rw [← hfk]
          exact hnodup.1

theorem apart (h : (lts cfg poller).ReachIf AcceptsClosed s) : Apart s := by
  refine run_inv h ⟨fun j k hj hk _ => ?_, fun k hk hmem => ?_, ?_⟩ fun {_ b _} hr hI hc hs =>
    apart_step (t := b.1) hI hc (fd_step hr hs)
  · cases j with
    | acceptor =>
        cases k with
        | acceptor => rfl
        | conn c => exact absurd hk.1 (Nat.not_lt_zero _)
    | conn c => exact absurd hj.1 (Nat.not_lt_zero _)
  · cases hmem
  · exact List.nodup_nil

/-! ## What a step changes beside the poller -/

theorem connRuns_asks {x x' : TcpConnection} {k : ConnCode} {io : Io E} {evs : List Event}
    {next : List (Frame Code)} (h : x.Runs c t k io x' evs next) :
    x'.channel_.events_ = x.channel_.events_ ∨ update c ∈ next := by
  have hupd : ∀ {y : TcpConnection} {d : List UInt8}, Appended x y d →
      y.channel_.events_ = x.channel_.events_ ∨ update c ∈ x.updateUnlessWriting c := by
    intro y d hy
    unfold updateUnlessWriting
    by_cases hw : x.channel_.isWriting = true
    · left
      rw [hy.rest]
      dsimp only
      rw [if_pos hw]
    · right
      rw [if_neg hw]
      exact List.mem_cons_self
  cases h with
  | sendBufferHere _ _ hx | sentPart _ _ _ _ _ hx | queued _ _ hx => exact hupd hx
  | connectEstablished | connectDestroyed | writeAll => exact .inr List.mem_cons_self
  | _ => exact .inl rfl

/-- A channel keeps its descriptor, and its `events_` unless the call of the
poller comes next. -/
theorem step_channel (hr : (lts cfg poller).ReachIf C s) (hc : C s (t, ch))
    (hs : (lts cfg poller).step s (t, ch) = some s') {k : ChannelId}
    (hk : ∀ c, k = .conn c → c < s.shared.app.accepted) :
    (s'.shared.app.channel k).fd_ = (s.shared.app.channel k).fd_ ∧
      ((s'.shared.app.channel k).events_ = (s.shared.app.channel k).events_ ∨
        .code (.update k) ∈ s'.stack (.loop (s'.shared.app.ownerLoop k))) := by
  have hr' := hr.step hc hs
  cases k with
  | acceptor =>
      obtain ⟨f, rest, x, next, ht, hruns, rfl⟩ := step_runs hs
      have hrev : ∀ {y y' : TcpServer P}, ReventsOnly y y' →
          (y'.channel .acceptor).fd_ = (y.channel .acceptor).fd_ ∧
            (y'.channel .acceptor).events_ = (y.channel .acceptor).events_ := by
        intro y y' h
        obtain ⟨r, hacc⟩ := h.acceptor
        show y'.acceptor_.acceptChannel_.fd_ = _ ∧ y'.acceptor_.acceptChannel_.events_ = _
        rw [hacc]
        exact ⟨rfl, rfl⟩
      cases hruns with
      | code hx =>
          have hserver := exec_runs hx
          cases hserver with
          | @handleEvent ch =>
              have h := hrev (setChannel_revents s.shared.app ch kNoneEvent)
              exact ⟨h.1, .inl h.2⟩
          | listen hl =>
              refine ⟨rfl, .inr ?_⟩
              subst hl
              show _ ∈ (s.resume (.loop acceptLoop) _ _ rest).stack (.loop acceptLoop)
              rw [Config.resume_stack_self]
              exact List.mem_append_left _ List.mem_cons_self
          | _ => exact ⟨rfl, .inl rfl⟩
      | polling hx | polled hx =>
          obtain ⟨_, q, _, _, hq, _⟩ := poll_revents hx
          have h := hrev hq
          exact ⟨h.1, .inl h.2⟩
      | _ => exact ⟨rfl, .inl rfl⟩
  | conn c =>
      show (s'.shared.app.conn c).channel_.fd_ = (s.shared.app.conn c).channel_.fd_ ∧
        ((s'.shared.app.conn c).channel_.events_ = (s.shared.app.conn c).channel_.events_ ∨
          update c ∈ s'.stack (.loop (s'.shared.app.conn c).loop_))
      cases step_conn hs (base hr) (wrapped hr) c with
      | @piece k io evs next rest ht hch hx hlog hs' =>
          refine ⟨connRuns_fd hx, (connRuns_asks hx).imp id fun hmem => ?_⟩
          have hstack : update c ∈ s'.stack t := by
            rw [hs', Config.resume_stack_self]
            exact List.mem_append_left _ hmem
          rwa [← (uses_mem hr' hstack uses_update).1]
      | idle hi =>
          obtain ⟨r, hx⟩ := hi.conn
          rw [hx]
          exact ⟨rfl, .inl rfl⟩
      | new hnew => exact absurd (hk c rfl) (by rw [hnew]; exact Nat.lt_irrefl _)

/-- A connection is established on the way to the poller. -/
theorem step_established (hr : (lts cfg poller).ReachIf C s) (hc : C s (t, ch))
    (hs : (lts cfg poller).step s (t, ch) = some s') (he : Established s'.shared.app c) :
    Established s.shared.app c ∨ update c ∈ s'.stack (.loop (s'.shared.app.conn c).loop_) := by
  have hr' := hr.step hc hs
  by_cases hlog : .ran .connectEstablished ∈ s.shared.app.log c
  · refine .inl ⟨?_, hlog⟩
    by_contra hlt
    rw [(base hr).app.fresh c (Nat.not_lt.mp hlt)] at hlog
    cases hlog
  · have hconn := step_conn hs (base hr) (wrapped hr) c
    obtain ⟨rest, ht⟩ := (conn_ran hconn he.2).resolve_left hlog
    obtain ⟨f, rest', x, next, ht', hruns, rfl⟩ := step_runs hs
    obtain ⟨rfl, rfl⟩ := List.cons.inj (ht.symm.trans ht')
    obtain ⟨_, y, rfl, hserver⟩ := code_runs hruns
    have hmem : update c ∈ next := by
      cases hserver with
      | conn h =>
          cases h with
          | connectEstablished => exact List.mem_cons_self
    have hstack : update c ∈ (s.resume t { s.shared with app := y } next rest).stack t := by
      rw [Config.resume_stack_self]
      exact List.mem_append_left _ hmem
    exact .inr ((uses_mem hr' hstack uses_update).1 ▸ hstack)

/-- A `remove` is `connectDestroyed`'s, right behind its `update`. -/
theorem step_removes (hr : (lts cfg poller).ReachIf C s)
    (hs : (lts cfg poller).step s (t, ch) = some s') {k : ChannelId} {u : ThreadId}
    (hmem : .code (.remove k) ∈ s'.stack u) :
    .code (.remove k) ∈ s.stack u ∨ ∃ c, k = .conn c ∧
      .ran .connectDestroyed ∈ s'.shared.app.log c ∧ .code (.update k) ∈ s'.stack u := by
  obtain ⟨f, rest, x, next, ht, hruns, rfl⟩ := step_runs hs
  have hwf : Wrapped f := (wrapped hr).stack t f (by rw [ht]; exact List.mem_cons_self)
  have hjob : ∀ {cb : Frame Code}, (cb = .user ∨ ∃ a, cb = .code a ∧ Job a) →
      .code (.remove k) ∉ [cb] := by
    rintro cb hcb hg
    rw [← List.mem_singleton.mp hg] at hcb
    rcases hcb with he | ⟨a, he, ha⟩
    · cases he
    · cases he
      cases ha
  rcases Config.mem_of_mem_resume ht hmem with ⟨rfl, hnext⟩ | hold
  · right
    cases hruns with
    | code hx =>
        have hserver := exec_runs hx
        cases hserver with
        | @conn d _ _ _ _ _ h =>
            cases h with
            | connectDestroyed =>
                simp only [List.mem_cons, List.not_mem_nil, or_false] at hnext
                rcases hnext with he | he | he
                · cases he
                · cases he
                  refine ⟨d, rfl, ?_, ?_⟩
                  · show _ ∈ (s.shared.app.setConn d .connectDestroyed _).log d
                    rw [setConn_log_self]
                    exact List.mem_append_right _ List.mem_cons_self
                  · rw [Config.resume_stack_self]
                    exact List.mem_append_left _ List.mem_cons_self
                · cases he
            | sendBufferHere | sentPart | queued => cases mem_updateUnlessWriting hnext
            | _ => simp at hnext
        | handleEvent =>
            rcases mem_handleEvent hnext with ⟨_, he⟩ | ⟨_, _, _, he, _⟩ <;> cases he
        | removeConnectionInLoop => cases mem_removeConnectionInLoop hnext
        | _ => simp [TcpServer.listen, TcpServer.newConnection] at hnext
    | @call a ha =>
        rcases List.mem_cons.mp hnext with he | he
        · cases he
          cases ha
        · cases List.mem_singleton.mp he
    | polled hx =>
        rcases mem_iteration hnext with ⟨b, hb, he⟩ | he | he | he
        · obtain ⟨ch, rfl⟩ := polled_handleEvent hx hb
          cases he
        all_goals cases he
    | doPendingFunctors =>
        obtain ⟨_, _, he⟩ := List.mem_map.mp hnext
        cases he
    | runHere => exact absurd hnext (hjob (wrapped_closed.run hwf).2)
    | functor => exact absurd hnext (hjob hwf)
    | _ => simp at hnext
  · exact .inl hold

/-! ## What is on the lists -/

section Epoll

variable {C : State LoopPoller → ThreadId × Choice Code (Io (List (Int × EpollMask))) → Prop}
  {s s' : State LoopPoller} {ch : Choice Code (Io (List (Int × EpollMask)))}

/-- What the poller of loop `l` has written down, beside what its channels are
and what is still to run. -/
structure Noted (s : State LoopPoller) : Prop where
  fds : ∀ l k f, (s.shared.app.poller l).fd_ k = some f →
    f = (s.shared.app.channel k).fd_ ∧ ∀ c, k = .conn c → c < s.shared.app.accepted
  indexed : ∀ l, (s.shared.app.poller l).Indexed
  masks : ∀ l f e, (s.shared.app.poller l).poller.interest f = some e →
    e.events = EpollPoller.mask (s.shared.app.channel e.data) ∨
      .code (.update e.data) ∈ s.stack (.loop l)
  listed : ∀ c, Established s.shared.app c → .ran .connectDestroyed ∉ s.shared.app.log c →
    (s.shared.app.poller (s.shared.app.conn c).loop_).registered (.conn c) ∨
      update c ∈ s.stack (.loop (s.shared.app.conn c).loop_)
  removing : ∀ l k, .code (.remove k) ∈ s.stack (.loop l) →
    (∃ c, k = .conn c ∧ .ran .connectDestroyed ∈ s.shared.app.log c) ∧
      ((s.shared.app.poller l).registered k ∨ .code (.update k) ∈ s.stack (.loop l))

/-- Steps that call no poller leave the lists alone. -/
theorem step_lists (hs : (lts cfg epollPoller).step s (t, ch) = some s')
    (hf : ∀ f rest, s.stack t = f :: rest → pollerCall f = false) (l : LoopId) :
    (s'.shared.app.poller l).poller = (s.shared.app.poller l).poller ∧
      (s'.shared.app.poller l).fd_ = (s.shared.app.poller l).fd_ := by
  obtain ⟨f, rest, x, next, ht, hruns, rfl⟩ := step_runs hs
  have hno := hf f rest ht
  have hpoll : ∀ {k : LoopId} {io : Io (List (Int × EpollMask))}
      {r : TcpServer LoopPoller × Option (List Code)},
      poll epollPoller k io s.shared.app = some r →
      (r.1.poller l).poller = (s.shared.app.poller l).poller ∧
        (r.1.poller l).fd_ = (s.shared.app.poller l).fd_ := by
    intro k io r hx
    obtain ⟨e, q, _, hq, hrev, _⟩ := poll_revents hx
    rw [hrev.pollers]
    by_cases hl : l = k
    · subst hl
      rw [show (s.shared.app.setPoller l q.1).poller l = q.1 from Function.update_self ..]
      obtain ⟨r', hr', rfl⟩ := Option.map_eq_some_iff.mp hq
      obtain ⟨_, _, rfl⟩ := Option.map_eq_some_iff.mp hr'
      exact ⟨rfl, rfl⟩
    · rw [show (s.shared.app.setPoller k q.1).poller l = s.shared.app.poller l
        from Function.update_of_ne hl ..]
      exact ⟨rfl, rfl⟩
  cases hruns with
  | code hx =>
      have hserver := exec_runs hx
      cases hserver with
      | update | remove => cases hno
      | @handleEvent ch =>
          show ((s.shared.app.setChannel ch _).poller l).poller = _ ∧
            ((s.shared.app.setChannel ch _).poller l).fd_ = _
          rw [(setChannel_revents s.shared.app ch kNoneEvent).pollers]
          exact ⟨rfl, rfl⟩
      | _ => exact ⟨rfl, rfl⟩
  | polling hx | polled hx => exact hpoll hx
  | _ => exact ⟨rfl, rfl⟩

theorem noted_aside (hr : (lts cfg epollPoller).ReachIf C s) (hc : C s (t, ch)) (h : Noted s)
    (hs : (lts cfg epollPoller).step s (t, ch) = some s')
    (hf : ∀ f rest, s.stack t = f :: rest → pollerCall f = false) : Noted s' := by
  have hlists := step_lists hs hf
  have hext := step_extends hs (base hr)
  have hreg : ∀ l k, (s'.shared.app.poller l).registered k ↔
      (s.shared.app.poller l).registered k := by
    intro l k
    unfold LoopPoller.registered
    rw [(hlists l).1]
  have hkeep : ∀ l k, .code (.update k) ∈ s.stack (.loop l) →
      .code (.update k) ∈ s'.stack (.loop l) := by
    intro l k hmem
    obtain ⟨f, rest, x, next, ht, _, rfl⟩ := step_runs hs
    refine Config.mem_resume ht hmem (.inl ?_)
    rintro rfl
    have hno := hf _ _ ht
    cases hno
  refine ⟨fun l k f hk => ?_, fun l k => ?_, fun l f e he => ?_, fun c hest hd => ?_,
    fun l k hmem => ?_⟩
  · rw [(hlists l).2] at hk
    obtain ⟨hfd, hlt⟩ := h.fds l k f hk
    exact ⟨hfd.trans (step_channel hr hc hs hlt).1.symm,
      fun c hkc => Nat.lt_of_lt_of_le (hlt c hkc) hext.accepted⟩
  · rw [hreg, (hlists l).1]
    exact h.indexed l k
  · rw [(hlists l).1] at he
    obtain ⟨rfl, hest⟩ := (base hr).app.registered l e.data ⟨f, e, he, rfl⟩
    rcases (step_channel hr hc hs fun c hk => (hest c hk).1).2 with hev | hmem
    · refine (h.masks _ f e he).imp (fun hm => ?_) (hkeep _ _)
      rw [hm]
      unfold EpollPoller.mask Channel.isReading Channel.isWriting
      rw [hev]
    · rw [hext.ownerLoop hest] at hmem
      exact .inr hmem
  · rcases step_established hr hc hs hest with hold | hmem
    · rw [hext.loop c hold.1]
      refine (h.listed c hold fun hd' => hd ((hext.log c).subset hd')).imp (hreg _ _).mpr
        (hkeep _ _)
    · exact .inr hmem
  · rcases step_removes hr hs hmem with hold | ⟨c, rfl, hd, hupd⟩
    · obtain ⟨⟨c, hk, hd⟩, hwhere⟩ := h.removing l k hold
      exact ⟨⟨c, hk, (hext.log c).subset hd⟩, hwhere.imp (hreg _ _).mpr (hkeep _ _)⟩
    · exact ⟨⟨c, rfl, hd⟩, .inr hupd⟩

/-- A call of the poller. When it deletes the entry, it is the last one of
`connectDestroyed`. -/
theorem noted_call (hr : (lts cfg epollPoller).ReachIf C s) (h : Noted s) {k : ChannelId}
    {f : Frame Code} {rest : List (Frame Code)} {p' : LoopPoller}
    {v : Option (EpollEvent ChannelId)}
    (ht : s.stack (.loop (s.shared.app.ownerLoop k)) = f :: rest)
    (hf : f = .code (.update k) ∨ f = .code (.remove k))
    (hk : ∀ c, k = .conn c → c < s.shared.app.accepted)
    (hw : (s.shared.app.poller (s.shared.app.ownerLoop k)).Wrote k (s.shared.app.channel k) v p')
    (hgone : v = none → (∃ c, k = .conn c ∧ .ran .connectDestroyed ∈ s.shared.app.log c) ∧
      .code (.remove k) ∉ rest) :
    Noted (s.resume (.loop (s.shared.app.ownerLoop k))
      { s.shared with app := s.shared.app.setPoller (s.shared.app.ownerLoop k) p' } [] rest) := by
  have hcalled := hw.registered
  have hpoller : ∀ l, (s.shared.app.setPoller (s.shared.app.ownerLoop k) p').poller l =
      if l = s.shared.app.ownerLoop k then p' else s.shared.app.poller l := fun l =>
    Function.update_apply ..
  have hreg : ∀ l j, j ≠ k → (s.shared.app.poller l).registered j →
      ((s.shared.app.setPoller (s.shared.app.ownerLoop k) p').poller l).registered j := by
    intro l j hj hreg
    rw [hpoller]
    split
    · next hl =>
        subst hl
        rwa [hcalled, if_neg hj]
    · exact hreg
  have hkeep : ∀ l j, j ≠ k → .code (.update j) ∈ s.stack (.loop l) →
      .code (.update j) ∈ (s.resume (.loop (s.shared.app.ownerLoop k))
        { s.shared with app := s.shared.app.setPoller (s.shared.app.ownerLoop k) p' }
        [] rest).stack (.loop l) := by
    intro l j hj hmem
    refine Config.mem_resume ht hmem (.inl ?_)
    rintro rfl
    rcases hf with he | he
    · exact hj (Code.update.inj (Frame.code.inj he))
    · cases he
  have hsome : v ≠ none → p'.registered k := fun hne => by
    rw [hcalled, if_pos rfl]
    exact Option.isSome_iff_ne_none.mpr hne
  refine ⟨fun l j g hj => ?_, fun l j => ?_, fun l g e he => ?_, fun c hest hd => ?_,
    fun l j hmem => ?_⟩
  · have hj' : ((s.shared.app.setPoller (s.shared.app.ownerLoop k) p').poller l).fd_ j =
        some g := hj
    rw [hpoller] at hj'
    split at hj'
    · rw [hw.fds] at hj'
      by_cases hjk : j = k
      · subst hjk
        rw [Function.update_self] at hj'
        exact ⟨(Option.some.inj hj').symm, hk⟩
      · rw [Function.update_of_ne hjk] at hj'
        exact h.fds _ j g hj'
    · exact h.fds l j g hj'
  · show 0 ≤ ((s.shared.app.setPoller _ p').poller l).poller.index_ j ↔
      ((s.shared.app.setPoller _ p').poller l).registered j
    rw [hpoller]
    split
    · obtain ⟨i, hidx, hi⟩ := hw.index
      rw [hcalled, hidx]
      by_cases hjk : j = k
      · rw [hjk, Function.update_self, if_pos rfl]
        exact hi
      · rw [Function.update_of_ne hjk, if_neg hjk]
        exact h.indexed _ j
    · exact h.indexed l j
  · have he' : ((s.shared.app.setPoller (s.shared.app.ownerLoop k) p').poller l).poller.interest g =
      some e := he
    rw [hpoller] at he'
    split at he'
    · next hl =>
        subst hl
        rw [hw.interest] at he'
        by_cases hg : g = (s.shared.app.channel k).fd_
        · rw [hg, Function.update_self] at he'
          rw [hw.entry e he']
          exact .inl rfl
        · rw [Function.update_of_ne hg] at he'
          refine (h.masks _ g e he').imp id (hkeep _ _ fun hd => hg ?_)
          have hfd := (s.shared.app.poller _).entries g e he'
          rw [hd] at hfd
          exact (h.fds _ k g hfd).1
    · next hl =>
        refine (h.masks l g e he').imp id fun hmem => ?_
        rwa [Config.resume_stack_of_ne _ fun he => hl (ThreadId.loop.inj he)]
  · by_cases hck : .conn c = k
    · subst hck
      refine .inl ?_
      show ((s.shared.app.setPoller _ p').poller (s.shared.app.ownerLoop (.conn c))).registered _
      rw [hpoller, if_pos rfl]
      refine hsome fun hnone => ?_
      obtain ⟨⟨d, hd', hdestroyed⟩, _⟩ := hgone hnone
      cases hd'
      exact hd hdestroyed
    · exact (h.listed c hest hd).imp (hreg _ _ hck) (hkeep _ _ hck)
  · have hmem' : .code (.remove j) ∈ s.stack (.loop l) := by
      rcases Config.mem_of_mem_resume ht hmem with ⟨_, hnext⟩ | hold
      · cases hnext
      · exact hold
    obtain ⟨hdestroyed, hwhere⟩ := h.removing l j hmem'
    refine ⟨hdestroyed, ?_⟩
    by_cases hjk : j = k
    · subst hjk
      have hbound : Bound (.loop l) (.remove j) s.shared.app :=
        (base hr).all.stack _ _ hmem' _ rfl
      obtain rfl : l = s.shared.app.ownerLoop j := ThreadId.loop.inj hbound.1
      refine .inl ?_
      show ((s.shared.app.setPoller _ p').poller _).registered _
      rw [hpoller, if_pos rfl]
      refine hsome fun hnone => (hgone hnone).2 ?_
      rw [Config.resume_stack_self] at hmem
      exact hmem
    · exact hwhere.imp (hreg _ _ hjk) (hkeep _ _ hjk)

/-- The poller is called for open sockets. -/
theorem open_called (hr : (lts cfg epollPoller).ReachIf C s)
    (hacc : s.shared.app.accepted < 2 ^ 31) {k : ChannelId}
    (hmem : .code (.update k) ∈ s.stack t ∨ .code (.remove k) ∈ s.stack t) :
    IsOpen s.shared.app k := by
  cases k with
  | acceptor => trivial
  | conn c =>
      obtain ⟨f, hf, hu, hest⟩ : ∃ f ∈ s.stack t, f.uses c = true ∧ Established s.shared.app c := by
        have hbound := (base hr).all.stack t
        rcases hmem with hmem | hmem
        · have hb : Bound t (.update (.conn c)) s.shared.app := hbound _ hmem _ rfl
          exact ⟨_, hmem, beq_self_eq_true c, hb.2 c rfl⟩
        · have hb : Bound t (.remove (.conn c)) s.shared.app := hbound _ hmem _ rfl
          exact ⟨_, hmem, beq_self_eq_true c, hb.2 c rfl⟩
      refine ⟨hest.1, ?_⟩
      by_contra hsocket
      have hreset := (socket_reset hr.reach c).mpr (Bool.eq_false_iff.mpr hsocket)
      rw [(closed_quiet hr hacc hreset).2 t f hf] at hu
      cases hu

/-- What is on a list is open. -/
theorem open_listed (hr : (lts cfg epollPoller).ReachIf C s)
    (hacc : s.shared.app.accepted < 2 ^ 31) {l : LoopId} {f : Int} {e : EpollEvent ChannelId}
    (he : (s.shared.app.poller l).poller.interest f = some e) : IsOpen s.shared.app e.data := by
  have hreg : (s.shared.app.poller l).registered e.data := ⟨f, e, he, rfl⟩
  obtain ⟨_, hest⟩ := (base hr).app.registered l _ hreg
  cases hd : e.data with
  | acceptor => trivial
  | conn c =>
      rw [hd] at hest hreg
      refine ⟨(hest c rfl).1, ?_⟩
      by_contra hsocket
      have hreset := (socket_reset hr.reach c).mpr (Bool.eq_false_iff.mpr hsocket)
      exact (closed_quiet hr hacc hreset).1 l hreg

/-- A channel is known under its descriptor, and what is there is its own. -/
theorem Noted.own (h : Noted s) (hr : (lts cfg epollPoller).ReachIf AcceptsClosed s)
    (hacc : s.shared.app.accepted < 2 ^ 31) {k : ChannelId} (ho : IsOpen s.shared.app k)
    (l : LoopId) :
    (s.shared.app.poller l).known k (s.shared.app.channel k) ∧
      ∀ e, (s.shared.app.poller l).poller.interest (s.shared.app.channel k).fd_ = some e →
        e.data = k := by
  refine ⟨?_, fun e he => ?_⟩
  · cases hfd : (s.shared.app.poller l).fd_ k with
    | none => exact .inl hfd
    | some f =>
        rw [(h.fds l k f hfd).1] at hfd
        exact .inr hfd
  · have hfd := (h.fds l e.data _ ((s.shared.app.poller l).entries _ e he)).1
    exact (apart hr).channels _ _ (open_listed hr hacc he) ho hfd.symm

theorem noted (h : (lts cfg epollPoller).ReachIf AcceptsClosed s) :
    s.shared.app.accepted < 2 ^ 31 → Noted s := by
  refine run_inv (I := fun s => s.shared.app.accepted < 2 ^ 31 → Noted s) h (fun _ => ?_)
    fun {s b s'} hr hI hc hs hacc => ?_
  · refine ⟨fun l k f hk => (by cases hk), fun l k => ?_, fun l f e he => (by cases he),
      fun c hest => absurd hest.1 (Nat.not_lt_zero _), fun l k hmem => ?_⟩
    · refine ⟨fun hk => absurd (show (0 : Int) ≤ -1 from hk) (by decide), ?_⟩
      rintro ⟨_, _, he, _⟩
      cases he
    · rcases started_cases hmem with ⟨_, he⟩ | he | he <;> cases he
  · obtain ⟨t, ch⟩ := b
    have hold : s.shared.app.accepted < 2 ^ 31 :=
      Nat.lt_of_le_of_lt (step_extends hs (base hr)).accepted hacc
    have hn := hI hold
    obtain ⟨f, rest, x, next, ht, hruns, hs'⟩ := step_runs hs
    by_cases hcall : pollerCall f = true
    · have hmem : f ∈ s.stack t := by rw [ht]; exact List.mem_cons_self
      unfold pollerCall at hcall
      split at hcall
      · next k =>
          obtain ⟨_, y, rfl, hserver⟩ := code_runs hruns
          have hbound : Bound t (.update k) s.shared.app := (base hr).all.stack t _ hmem _ rfl
          obtain ⟨rfl, hest⟩ := hbound
          cases hserver with
          | update hp =>
              have ho := open_called hr hold (.inl hmem)
              have hw := LoopPoller.updateChannel_wrote hp (hn.indexed _) (hn.own hr hold ho _).2
              rw [hs']
              exact noted_call hr hn ht (.inl rfl) (fun c hk => (hest c hk).1) hw
                fun hnone => by cases hnone
      · next k =>
          obtain ⟨_, y, rfl, hserver⟩ := code_runs hruns
          have hbound : Bound t (.remove k) s.shared.app := (base hr).all.stack t _ hmem _ rfl
          obtain ⟨rfl, hest⟩ := hbound
          cases hserver with
          | remove hp =>
              have ho := open_called hr hold (.inr hmem)
              obtain ⟨hdestroyed, hwhere⟩ := hn.removing _ k hmem
              have hreg := hwhere.resolve_right fun hupd => by
                obtain ⟨rest', htop⟩ := update_top hr hupd
                rw [ht] at htop
                cases (List.cons.inj htop).1
              have hw := LoopPoller.removeChannel_wrote hp hreg (hn.own hr hold ho _).2
              rw [hs']
              exact noted_call hr hn ht (.inr rfl) (fun c hk => (hest c hk).1) hw fun _ =>
                ⟨hdestroyed, fun hrem => by
                  have hno := remove_top hr ht _ hrem
                  cases hno⟩
      · cases hcall
    · refine noted_aside hr hc hn hs fun g rest' ht' => ?_
      obtain ⟨rfl, _⟩ := List.cons.inj (ht.symm.trans ht')
      exact Bool.eq_false_iff.mpr hcall

/-- A connection in use is watched under its descriptor, unless the call that
tells the kernel comes next. -/
theorem Noted.watched (h : Noted s) (hr : (lts cfg epollPoller).ReachIf AcceptsClosed s)
    (hacc : s.shared.app.accepted < 2 ^ 31) (hest : Established s.shared.app c)
    (hd : .ran .connectDestroyed ∉ s.shared.app.log c) :
    (∃ m, (s.shared.app.poller (s.shared.app.conn c).loop_).poller.interest
      (s.shared.app.conn c).channel_.fd_ = some ⟨m, .conn c⟩) ∨
      ∃ rest, s.stack (.loop (s.shared.app.conn c).loop_) = update c :: rest := by
  refine (h.listed c hest hd).imp (fun hreg => ?_) (update_top hr)
  obtain ⟨f, e, he, hdata⟩ := hreg
  have hknown := (h.own hr hacc (open_listed hr hacc he) (s.shared.app.conn c).loop_).1
  rw [hdata] at hknown
  exact LoopPoller.interest_of_registered hknown ⟨f, e, he, hdata⟩

/-- The interest lists agree with the sockets. -/
structure Agrees (s : State LoopPoller) : Prop where
  /-- Open connections have descriptors of their own. -/
  distinct : ∀ c d, c < s.shared.app.accepted → d < s.shared.app.accepted →
    (s.shared.app.conn c).socket_ = true → (s.shared.app.conn d).socket_ = true →
    (s.shared.app.conn c).channel_.fd_ = (s.shared.app.conn d).channel_.fd_ → c = d
  /-- An entry is an open channel of the list's loop, under its descriptor and
  with the mask of its `events_`, unless the call that tells comes next. -/
  entry : ∀ l f e, (s.shared.app.poller l).poller.interest f = some e →
    l = s.shared.app.ownerLoop e.data ∧ f = (s.shared.app.channel e.data).fd_ ∧
      IsOpen s.shared.app e.data ∧
      (e.events = EpollPoller.mask (s.shared.app.channel e.data) ∨
        ∃ rest, s.stack (.loop l) = .code (.update e.data) :: rest)
  /-- A connection in use is on its loop's list, or will be by the next call. -/
  listed : ∀ c, Established s.shared.app c → .ran .connectDestroyed ∉ s.shared.app.log c →
    (∃ m, (s.shared.app.poller (s.shared.app.conn c).loop_).poller.interest
      (s.shared.app.conn c).channel_.fd_ = some ⟨m, .conn c⟩) ∨
      ∃ rest, s.stack (.loop (s.shared.app.conn c).loop_) = update c :: rest
  /-- The calls of `epoll_ctl` succeed, for descriptors that are open, and a
  channel is called on under one descriptor only. -/
  update : ∀ t k rest, s.stack t = .code (.update k) :: rest → IsOpen s.shared.app k ∧
    (s.shared.app.poller (s.shared.app.ownerLoop k)).known k (s.shared.app.channel k) ∧
    ((s.shared.app.poller (s.shared.app.ownerLoop k)).poller.updateChannel k
      (s.shared.app.channel k)).2 = true
  remove : ∀ t k rest, s.stack t = .code (.remove k) :: rest → IsOpen s.shared.app k ∧
    (s.shared.app.poller (s.shared.app.ownerLoop k)).known k (s.shared.app.channel k) ∧
    ((s.shared.app.poller (s.shared.app.ownerLoop k)).poller.removeChannel k
      (s.shared.app.channel k)).2 = true

/-- Along every run in which `accept` returns no open descriptor, every call of
`epoll_ctl` succeeds and the kernel watches what the connections ask for. -/
theorem lists_agree (h : (lts cfg epollPoller).ReachIf AcceptsClosed s)
    (hacc : s.shared.app.accepted < 2 ^ 31) : Agrees s := by
  have hn := noted h hacc
  refine ⟨fun c d hc hd hsc hsd hfd => ?_, fun l f e he => ?_,
    fun c hest hd => hn.watched h hacc hest hd, fun t k rest ht => ?_, fun t k rest ht => ?_⟩
  · exact ChannelId.conn.inj ((apart h).channels (.conn c) (.conn d) ⟨hc, hsc⟩ ⟨hd, hsd⟩ hfd)
  · obtain ⟨hl, _⟩ := (base h).app.registered l e.data ⟨f, e, he, rfl⟩
    refine ⟨hl, (hn.fds l e.data f ((s.shared.app.poller l).entries f e he)).1,
      open_listed h hacc he, (hn.masks l f e he).imp id (update_top h)⟩
  · have hmem : .code (.update k) ∈ s.stack t := by rw [ht]; exact List.mem_cons_self
    have ho := open_called h hacc (.inl hmem)
    obtain ⟨hknown, hown⟩ := hn.own h hacc ho (s.shared.app.ownerLoop k)
    rw [LoopPoller.updateChannel_ok (hn.indexed _) hknown hown]
    exact ⟨ho, hknown, rfl⟩
  · have hmem : .code (.remove k) ∈ s.stack t := by rw [ht]; exact List.mem_cons_self
    have ho := open_called h hacc (.inr hmem)
    have hbound : Bound t (.remove k) s.shared.app := (base h).all.stack t _ hmem _ rfl
    obtain ⟨rfl, _⟩ := hbound
    obtain ⟨_, hwhere⟩ := hn.removing _ k hmem
    have hreg := hwhere.resolve_right fun hupd => by
      obtain ⟨rest', htop⟩ := update_top h hupd
      rw [ht] at htop
      cases (List.cons.inj htop).1
    have hknown := (hn.own h hacc ho (s.shared.app.ownerLoop k)).1
    rw [LoopPoller.removeChannel_ok hknown hreg]
    exact ⟨ho, hknown, rfl⟩

/-- A second connection gets the descriptor of one that was closed. -/
theorem lists_agree_reused :
    ∃ s : State LoopPoller, (s.shared.app.conn 0).channel_.fd_ = 7 ∧
      (s.shared.app.conn 1).channel_.fd_ = 7 ∧ (s.shared.app.conn 1).state_ = .kConnected ∧
      Agrees s := by
  obtain ⟨s, hs, hp⟩ := Lts.exists_reachIf (lts echoConfig epollPoller) AcceptsClosed
    ((listening [] ++ accepting [] [(-1, { epollin := true })]) ++ [(.loop 0, .ret),
      (.loop 0, .go), (.loop 0, .go), (.loop 0, .poll (.poller [(7, { epollin := true })]) 0),
      (.loop 0, .app .none), (.loop 0, .app (.received (.bytes []))), (.loop 0, .app .none),
      (.loop 0, .app .none), (.loop 0, .app .none), (.loop 0, .go), (.loop 0, .app .none),
      (.loop 0, .go), (.loop 0, .ret), (.loop 0, .go), (.loop 0, .go), (.loop 0, .app .none),
      (.loop 0, .app (.poller [])), (.loop 0, .app .none), (.loop 0, .app .none),
      (.loop 0, .go)] ++ accepting [] [(-1, { epollin := true })])
    (fun s => decide (s.shared.app.accepted < 2 ^ 31 ∧ (s.shared.app.conn 0).channel_.fd_ = 7 ∧
      (s.shared.app.conn 1).channel_.fd_ = 7 ∧ (s.shared.app.conn 1).state_ = .kConnected))
    rfl (by decide +kernel)
  obtain ⟨hacc, hfd, hfd', hup⟩ := of_decide_eq_true hp
  exact ⟨s, hfd, hfd', hup, lists_agree hs hacc⟩

end Epoll

end TcpServer

end Muduox.Net
