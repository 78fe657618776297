import Muduox.Proofs.Descriptors
import Muduox.Proofs.EchoUptime
import Muduox.Proofs.ReactorLiveness

/-!
# All of it comes back

As long as the peer holds the connection and its loop takes its turns, what the
peer sends goes around: it is read, for `epoll_wait` reports a descriptor that
stays readable; it is sent or put into the output buffer before the callback
ends; and while the output buffer has something the descriptor is on the list
for output. Two numbers only grow, the bytes read and the bytes sent back. If
one of them stood still below what the peer sent, every call of `epoll_wait`
from then on would find the same reason to report, and a report is served
(`report_runs`).
-/

namespace Muduox.Net

namespace LoopPoller

/-- What the kernel found under a descriptor is reported of its channel. -/
theorem mem_poll {p : LoopPoller} {ready : List (Int × EpollMask)}
    {q : LoopPoller × List (ChannelId × Events)} {fd : Int} {m : EpollMask}
    {e : EpollEvent ChannelId} (h : p.poll ready = some q) (hr : (fd, m) ∈ ready)
    (he : p.poller.interest fd = some e) : (e.data, EpollPoller.revents m) ∈ q.2 := by
  obtain ⟨es, hes, rfl⟩ := Option.map_eq_some_iff.mp h
  obtain ⟨ws, hws, rfl⟩ := Option.map_eq_some_iff.mp hes
  refine List.mem_map.mpr ⟨⟨m, e.data⟩, ?_, rfl⟩
  unfold epollWait at hws
  split at hws
  · cases hws
    exact List.mem_filterMap.mpr ⟨(fd, m), hr, by rw [he]; rfl⟩
  · cases hws

theorem poll_nil (p : LoopPoller) : p.poll [] = some (p, []) := by
  have hsize : (if 0 = p.events_ then p.events_ * 2 else p.events_) = p.events_ := by
    split <;> omega
  have hnone : p.poller.poll p.events_ [] = some [] := by
    simp [EpollPoller.poll, epollWait]
  rw [LoopPoller.poll, hnone, Option.map_some, List.length_nil, hsize]

end LoopPoller

namespace TcpServer

open Threads Reactor TcpConnection

section Revents

variable {P E : Type} {cfg : ServerConfig} {poller : Poller P E} {t : ThreadId} {c : ConnId}

theorem runs_revents_of_ne {a : Code} {io : Io E} {x x' : TcpServer P} {next : List (Frame Code)}
    (h : Runs cfg poller t x a io x' next) (ha : a ≠ .handleEvent (.conn c))
    (hc : c < x.accepted) :
    (x'.conn c).channel_.revents_ = (x.conn c).channel_.revents_ := by
  cases h with
  | @conn d k io y evs next h =>
      by_cases hcd : c = d
      · subst hcd
        rw [setConn_conn_self]
        exact connRuns_revents h
      · rw [setConn_conn_of_ne _ _ _ _ hcd]
  | @handleEvent ch =>
      have hch : ch ≠ .conn c := fun hch => ha (by rw [hch])
      rw [show (x.handleEvent ch).1 = x.setChannel ch _ from rfl, setChannel_conn_of_ne hch]
  | newConnection =>
      show (Function.update x.conn x.accepted _ c).channel_.revents_ = _
      rw [Function.update_of_ne (Nat.ne_of_lt hc)]
  | _ => rfl

/-- What `poll` found of a connection stays until the dispatch comes to it. -/
theorem revents_step {s s' : State P} {ch : Choice Code (Io E)} {l : LoopId}
    (hr : (lts cfg poller).Reach s) (hs : (lts cfg poller).step s (t, ch) = some s')
    (hmem : .code (.handleEvent (.conn c)) ∈ s.stack (.loop l))
    (hnot : ∀ rest, s.stack t ≠ .code (.handleEvent (.conn c)) :: rest) :
    (s'.shared.app.conn c).channel_.revents_ = (s.shared.app.conn c).channel_.revents_ := by
  obtain ⟨f, rest, x, next, ht, hruns, rfl⟩ := step_runs hs
  have hbound : Bound (.loop l) (.handleEvent (.conn c)) s.shared.app :=
    (base hr).all.stack _ _ hmem _ rfl
  have hpoll : ∀ {k : LoopId} {io : Io E} {q : TcpServer P × Option (List Code)},
      s.stack t = .poll k :: rest → poll poller k io s.shared.app = some q →
      (q.1.conn c).channel_.revents_ = (s.shared.app.conn c).channel_.revents_ := by
    intro k io q ht hx
    obtain ⟨e, ⟨p, active⟩, -, hq, -, ⟨-, hsame⟩ | ⟨rev, hactive, -⟩⟩ := poll_conn hx c
    · exact hsame
    · cases active with
      | none => cases hactive
      | some active =>
          -- A loop that polls has nothing to dispatch.
          have hown := ((base hr).app.registered k (.conn c) (poller.poll_registered hq hactive)).1
          have hl : l = k := (ThreadId.loop.inj hbound.1).trans hown.symm
          rw [hl, ← (sound hr).poll_thread ht, ht] at hmem
          rcases List.mem_cons.mp hmem with he | hrest
          · cases he
          · cases poll_rest hr ht _ hrest
  cases hruns with
  | @code a io y next hx =>
      exact runs_revents_of_ne (exec_runs hx) (fun ha => hnot rest (by rw [ht, ha]))
        (hbound.2 c rfl).1
  | polled hx | polling hx => exact hpoll ht hx
  | _ => rfl

theorem connRuns_reading {x x' : TcpConnection} {k : ConnCode} {io : Io E} {evs : List Event}
    {next : List (Frame Code)} (h : x.Runs c t k io x' evs next) (hk : k ≠ .connectDestroyed)
    (hx : k = .connectEstablished ∨ x.channel_.isReading = true) :
    x'.channel_.isReading = true := by
  have hold : k ≠ .connectEstablished → x.channel_.isReading = true := hx.resolve_left
  cases h with
  | connectEstablished => rfl
  | connectDestroyed => exact absurd rfl hk
  | sendBufferHere _ _ hy | sentPart _ _ _ _ _ hy | queued _ _ hy =>
      rw [hy.rest]
      dsimp only
      split <;> exact hold (by simp)
  | _ => exact hold (by simp)

/-- A connection in use is watched for input. -/
theorem established_reads {s : State P} (h : (lts cfg poller).Reach s) (c : ConnId) :
    .ran .connectEstablished ∈ s.shared.app.log c →
      .ran .connectDestroyed ∉ s.shared.app.log c →
        (s.shared.app.conn c).channel_.isReading = true := by
  refine conn_inv (Φ := fun y log => .ran .connectEstablished ∈ log →
      .ran .connectDestroyed ∉ log → y.channel_.isReading = true)
    h (fun _ hmem => by cases hmem) (fun {_ _ log _} hold hi hmem hno => ?_)
    (fun {_ _ _ _ k _ evs _ log} hold hr hmem hno => ?_) c
  · obtain ⟨r, hr⟩ := hi.conn
    rw [hr]
    refine hold ?_ fun hd => hno ?_
    · rcases hi.log with hlog | ⟨b, hlog⟩ <;> rw [hlog] at hmem
      · exact hmem
      · exact (List.mem_append.mp hmem).elim id fun h => by cases List.mem_singleton.mp h
    · rcases hi.log with hlog | ⟨b, hlog⟩ <;> rw [hlog]
      · exact hd
      · exact List.mem_append_left _ hd
  · refine connRuns_reading hr (fun hk => hno ?_) ?_
    · rw [hk]
      exact List.mem_append_right _ List.mem_cons_self
    · rcases List.mem_append.mp hmem with hmem | hmem
      · exact .inr (hold hmem fun hd => hno (List.mem_append_left _ hd))
      · rcases List.mem_cons.mp hmem with he | hmem
        · exact .inl (Event.ran.inj he).symm
        · exact absurd hmem ((connRuns_events hr).1 _)

end Revents

end TcpServer

namespace EchoServer

open Threads Reactor TcpServer TcpConnection

/-! ## Runs of the echo server -/

/-- `accept` returns no descriptor that is open. -/
def Accepts (s : EchoServer) : PeerStep → Prop
  | .run t ch => AcceptsClosed s.net.server (t, ch)
  | _ => True

instance (s : EchoServer) (a : PeerStep) : Decidable (s.Accepts a) :=
  match a with
  | .run _ _ => inferInstanceAs (Decidable (AcceptsClosed _ _))
  | .send _ _ | .urge _ | .close _ | .fail _ => .isTrue trivial

theorem accepts_reach {s : EchoServer} (h : lts.ReachIf Accepts s) :
    (TcpServer.lts config epollPoller).ReachIf AcceptsClosed s.net.server := by
  refine Lts.ReachIf.inv_of
    (K := fun s => (TcpServer.lts config epollPoller).Reach s.net.server)
    (I := fun s => (TcpServer.lts config epollPoller).ReachIf AcceptsClosed s.net.server)
    (fun _ hr => (echoing hr.reach).1) (fun s hs => ?_) (fun s a s' hr hI hc hs => ?_) h
  · subst hs
    exact .init rfl
  · rcases step_cases hr hs with ⟨t, ch, rfl, hstep⟩ | ⟨-, d, k, -, rfl⟩
    · exact hI.step hc hstep.ran
    · exact hI

variable {r : lts.RunIf Accepts} {c : ConnId} {l : LoopId} {n m : ℕ} {f : Frame Code}

/-- In step `n` loop `l` runs frame `f`. -/
def RunsOn (r : lts.RunIf Accepts) (n : ℕ) (l : LoopId) (f : Frame Code) : Prop :=
  ∃ ch, r.label n = .run (.loop l) ch ∧
    ∃ rest, (r.state n).net.server.stack (.loop l) = f :: rest

/-- Loop `l` comes to its functors again and again. -/
def Turns (r : lts.RunIf Accepts) (l : LoopId) : Prop :=
  ∀ n, ∃ m, n ≤ m ∧ RunsOn r m l (.doPendingFunctors l)

theorem run_reach (r : lts.RunIf Accepts) (n : ℕ) : lts.Reach (r.state n) := (r.reachIf n).reach

theorem run_step (r : lts.RunIf Accepts) (n : ℕ) :
    (∃ t ch, r.label n = .run t ch ∧ Step (r.state n) (r.state (n + 1)) t ch) ∨
      (∀ t ch, r.label n ≠ .run t ch) ∧ ∃ d k, ((r.state n).net.socket d).Acts k ∧
        r.state (n + 1) = { r.state n with net := (r.state n).net.setSocket d k } :=
  step_cases (echoing (run_reach r n)).1 (r.step n)

theorem RunsOn.step (h : RunsOn r n l f) : ∃ ch rest,
    Step (r.state n) (r.state (n + 1)) (.loop l) ch ∧
      (r.state n).net.server.stack (.loop l) = f :: rest := by
  obtain ⟨ch, hlabel, rest, ht⟩ := h
  rcases run_step r n with ⟨t, ch', hlabel', hstep⟩ | ⟨hno, -⟩
  · rw [hlabel] at hlabel'
    cases hlabel'
    exact ⟨ch, rest, hstep, ht⟩
  · exact absurd hlabel (hno _ _)

/-- A frame stays on its stack until it is run. -/
theorem stack_keeps (hf : f ∈ (r.state n).net.server.stack (.loop l)) (hno : ¬ RunsOn r n l f) :
    f ∈ (r.state (n + 1)).net.server.stack (.loop l) := by
  by_contra hlost
  rcases run_step r n with ⟨t, ch, hlabel, hstep⟩ | ⟨-, d, k, -, he⟩
  · obtain ⟨ht, hrest⟩ := Code.ran_of_lost hstep.ran hf hlost
    exact hno ⟨ch, by rw [hlabel, show t = .loop l from ht], hrest⟩
  · rw [he] at hlost
    exact hlost hf

/-- Code on the stack of a loop is run, and finds what lasts until it is. -/
theorem exists_turn {a : Code} {Q : EchoServer → Prop} (hturns : Turns r l)
    (hf : .code a ∈ (r.state n).net.server.stack (.loop l)) (hQ : Q (r.state n))
    (hkeep : ∀ k, n ≤ k → .code a ∈ (r.state k).net.server.stack (.loop l) → Q (r.state k) →
      ¬ RunsOn r k l (.code a) → Q (r.state (k + 1))) :
    ∃ k, n ≤ k ∧ RunsOn r k l (.code a) ∧ Q (r.state k) := by
  obtain ⟨m, hnm, -, -, rest, ht⟩ := hturns n
  -- At that point nothing is left above the frames of `loop`.
  have hgone : .code a ∉ (r.state m).net.server.stack (.loop l) := by
    intro hmem
    have hord := bottom (echoing (run_reach r m)).1 (.loop l)
    rw [ht, List.pairwise_cons] at hord
    rw [ht] at hmem
    rcases List.mem_cons.mp hmem with he | hmem
    · cases he
    · cases hord.1 _ hmem rfl
  by_contra hno
  refine hgone (r.keeps (I := fun s => .code a ∈ s.net.server.stack (.loop l) ∧ Q s)
    (fun k hk hI => ?_) ⟨hf, hQ⟩ hnm).1
  have hrun : ¬ RunsOn r k l (.code a) := fun hrun => hno ⟨k, hk, hrun, hI.2⟩
  exact ⟨stack_keeps hI.1 hrun, hkeep k hk hI.1 hI.2 hrun⟩

/-! ## What only grows -/

/-- What the server and the peers do to a connection. -/
structure Onward (s s' : EchoServer) (c : ConnId) : Prop where
  accepted : s.app.accepted ≤ s'.app.accepted
  held : Held (s'.net.socket c) → Held (s.net.socket c)
  log : s.app.log c <+: s'.app.log c
  sent : (s.net.socket c).sent <+: (s'.net.socket c).sent
  appended : (s.net.socket c).appended <+: (s'.net.socket c).appended
  established : Established s.app c → Established s'.app c ∧
    (s'.app.conn c).loop_ = (s.app.conn c).loop_

theorem Onward.refl (s : EchoServer) (c : ConnId) : Onward s s c :=
  ⟨Nat.le_refl _, id, List.prefix_rfl, List.prefix_rfl, List.prefix_rfl, fun h => ⟨h, rfl⟩⟩

theorem Onward.trans {s₁ s₂ s₃ : EchoServer} (h : Onward s₁ s₂ c) (h' : Onward s₂ s₃ c) :
    Onward s₁ s₃ c := by
  refine ⟨Nat.le_trans h.accepted h'.accepted, fun hk => h.held (h'.held hk), h.log.trans h'.log,
    h.sent.trans h'.sent, h.appended.trans h'.appended, fun he => ?_⟩
  obtain ⟨he₂, hl₂⟩ := h.established he
  obtain ⟨he₃, hl₃⟩ := h'.established he₂
  exact ⟨he₃, hl₃.trans hl₂⟩

theorem Step.onward {s s' : EchoServer} {t : ThreadId}
    {ch : Choice Code (Io (List (Int × EpollMask)))} (h : Step s s' t ch) : Onward s s' c := by
  have hsocket : (s.net.socket c).sent <+: (s'.net.socket c).sent ∧
      (s.net.socket c).appended <+: (s'.net.socket c).appended := by
    rw [h.socket]
    rcases Peered.sockets_eq s.net s'.net.server t ch with he | ⟨d, _, b, _, _, he⟩
    · rw [he]
      exact ⟨List.prefix_rfl, List.prefix_rfl⟩
    · rw [he]
      by_cases hcd : c = d
      · subst hcd
        rw [Function.update_self]
        exact ⟨List.prefix_rfl, List.prefix_append _ _⟩
      · rw [Function.update_of_ne hcd]
        exact ⟨List.prefix_rfl, List.prefix_rfl⟩
  exact ⟨h.extends.accepted, h.held, h.extends.log c, hsocket.1, hsocket.2,
    fun he => ⟨h.extends.established he, h.extends.loop c he.1⟩⟩

theorem run_onward (r : lts.RunIf Accepts) (c : ConnId) (h : n ≤ m) :
    Onward (r.state n) (r.state m) c := by
  refine r.keeps (I := fun s => Onward (r.state n) s c) (fun k _ hI => hI.trans ?_)
    (Onward.refl _ c) h
  rcases run_step r k with ⟨t, ch, -, hstep⟩ | ⟨-, d, j, hacts, he⟩
  · exact hstep.onward
  · rw [he]
    have hsocket := Peered.forall_socket (w := (r.state k).net.socket) (c := d) (k := j)
      (R := fun b y => (Held y → Held ((r.state k).net.socket b)) ∧
        ((r.state k).net.socket b).sent <+: y.sent ∧
          ((r.state k).net.socket b).appended <+: y.appended)
      ⟨.of_acts hacts, hacts.sent, by rw [hacts.appended]⟩
      (fun _ => ⟨id, List.prefix_rfl, List.prefix_rfl⟩) c
    exact ⟨Nat.le_refl _, hsocket.1, List.prefix_rfl, hsocket.2.1, hsocket.2.2,
      fun he => ⟨he, rfl⟩⟩

/-! ## A loop with nothing to do -/

theorem quiet_poll (x : TcpServer LoopPoller) (l : LoopId) :
    TcpServer.poll epollPoller l (.poller []) x = some (x, some []) := by
  have hp : epollPoller.poll (x.poller l) x.channel [] = some (x.poller l, some []) := by
    simp [epollPoller, LoopPoller.poll_nil]
  simp only [TcpServer.poll, hp, Option.map_some, setActive, List.foldl_nil, List.map_nil,
    setPoller, Function.update_eq_self]

/-- A step of `loop` itself, with nothing found, is one of the echo server's. -/
theorem quiet_step {s : EchoServer} {rest : List (Frame Code)} {y : State LoopPoller}
    {ch : Choice Code (Io (List (Int × EpollMask)))}
    (ht : s.net.server.stack (.loop l) = f :: rest) (hf : turns f = true)
    (hch : ch = .go ∨ ch = .poll (.poller []) 0)
    (hs : (TcpServer.lts config epollPoller).step s.net.server (.loop l, ch) = some y) :
    lts.step s (.run (.loop l) ch) = some ⟨⟨y, s.net.socket⟩, s.callback⟩ := by
  have hallow : s.allows (.loop l) ch = true := by
    unfold allows
    rw [ht]
    cases f <;> first | rfl | cases hf
  have hag : s.net.agrees (.loop l) ch = true := by
    unfold Peered.agrees
    rw [ht]
    rcases hch with rfl | rfl <;> cases f <;> first | rfl | cases hf
  have hsocket : s.net.sockets (.loop l) ch y = s.net.socket := by
    unfold Peered.sockets
    rw [ht]
    cases f <;> first | rfl | cases hf
  have hcallback : ∀ net, s.callbacks (.loop l) net = s.callback := by
    intro net
    unfold callbacks
    rw [ht]
    cases f <;> first | rfl | cases hf
  show (if s.allows (.loop l) ch = true then
    ((if s.net.agrees (.loop l) ch = true then _ else none : Option Peered)).map _ else none) = _
  rw [if_pos hallow, if_pos hag, hs, Option.map_some, Option.map_some, hsocket, hcallback]

/-- A run in which only loop `l` moves, and finds nothing. -/
theorem exists_quiet_run {s : EchoServer} (hr : lts.ReachIf Accepts s)
    (h : Idles l [.poll l] s.net.server) :
    ∃ r : lts.RunIf Accepts, r.state 0 = s ∧ Turns r l ∧
      (∀ n, (r.state n).app = s.app ∧ (r.state n).net.socket = s.net.socket) ∧
      ∀ n, ∃ m, n ≤ m ∧ Idles l [.poll l] (r.state m).net.server := by
  obtain ⟨q, hstart, hlabel, hI, hturns, hpolls⟩ :=
    exists_idle_run (P := TcpServer.app config epollPoller) (c := .poller []) (J := (· = s.app))
      (fun x hx => ⟨x, quiet_poll x l, hx⟩)
      (echoing hr.reach).1 h rfl
  have htop : ∀ n, ∃ f rest, (q.state n).stack (.loop l) = f :: rest ∧ turns f = true ∧
      ((q.label n).2 = .go ∨ (q.label n).2 = .poll (.poller []) 0) := by
    intro n
    rw [hlabel]
    rcases (hI n).1 with hs | hs | hs
    · exact ⟨_, _, hs.stack, rfl, .inr (by rw [idleStep, hs.stack])⟩
    · exact ⟨_, _, hs.stack, rfl, .inl (by rw [idleStep, hs.stack])⟩
    · exact ⟨_, _, hs.stack, rfl, .inl (by rw [idleStep, hs.stack])⟩
  have hthread : ∀ n, (q.label n).1 = .loop l := fun n => by
    rw [hlabel]
    rfl
  refine ⟨⟨fun n => ⟨⟨q.state n, s.net.socket⟩, s.callback⟩, fun n => .run (.loop l) (q.label n).2,
    ?_, fun n => ?_, fun n => ?_⟩, ?_, fun n => ?_, fun n => ⟨(hI n).2, rfl⟩, hpolls⟩
  · rw [hstart]
    exact hr
  · obtain ⟨f, rest, -, -, hch | hch⟩ := htop n <;>
      · show AcceptsClosed _ (_, _)
        rw [hch]
        trivial
  · obtain ⟨f, rest, ht, hf, hch⟩ := htop n
    have hs := q.step n
    rw [show q.label n = (.loop l, (q.label n).2) from Prod.ext (hthread n) rfl] at hs
    exact quiet_step (s := ⟨⟨q.state n, s.net.socket⟩, s.callback⟩) ht hf hch hs
  · exact congrArg (fun y => (⟨⟨y, s.net.socket⟩, s.callback⟩ : EchoServer)) hstart
  · obtain ⟨m, hm, -, hrest⟩ := hturns n
    exact ⟨m, hm, _, rfl, hrest⟩

/-! ## What is found is served -/

/-- The loop of connection `c` is about to wait. -/
def Polls (s : EchoServer) (c : ConnId) : Prop :=
  (s.net.server.stack (.loop (s.app.conn c).loop_)).head? = some (.poll (s.app.conn c).loop_)

/-- The kernel is asked to watch connection `c` for `flag`. -/
def Asks (s : EchoServer) (c : ConnId) (flag : EpollMask → Bool) : Prop :=
  ∃ e, (s.app.poller (s.app.conn c).loop_).poller.interest (s.app.conn c).channel_.fd_ = some e ∧
    flag e.events = true

/-- In step `n` the kernel reports it. -/
def Reports (r : lts.RunIf Accepts) (n : ℕ) (c : ConnId) (flag : EpollMask → Bool) : Prop :=
  ∃ ready place e, r.label n =
      .run (.loop ((r.state n).app.conn c).loop_) (.poll (.poller ready) place) ∧
    (((r.state n).app.conn c).channel_.fd_, e) ∈ ready ∧ flag e = true

/-- What every call of `epoll_wait` finds asked for, and the socket ready for, is
reported by one. -/
def LevelTriggered (r : lts.RunIf Accepts) (c : ConnId) (flag : EpollMask → Bool)
    (Ready : PeerSocket → Prop) : Prop :=
  ∀ n, (∀ m, n ≤ m → Polls (r.state m) c →
      Asks (r.state m) c flag ∧ Ready ((r.state m).net.socket c)) →
    ∃ m, n ≤ m ∧ Reports r m c flag

/-- A loop that waits watches its connections for what their channels ask. -/
theorem Polls.interest {s : EchoServer} (h : Polls s c) (hr : lts.ReachIf Accepts s)
    (hacc : s.app.accepted < 2 ^ 31) (hest : Established s.app c)
    (hd : .ran .connectDestroyed ∉ s.app.log c) :
    (s.app.poller (s.app.conn c).loop_).poller.interest (s.app.conn c).channel_.fd_ =
      some ⟨EpollPoller.mask (s.app.conn c).channel_, .conn c⟩ := by
  have hserver := accepts_reach hr
  have hn := noted hserver hacc
  obtain ⟨rest, ht⟩ := List.head?_eq_some_iff.mp h
  have hno : ∀ k, .code (.update k) ∉ s.net.server.stack (.loop (s.app.conn c).loop_) := by
    intro k hmem
    obtain ⟨rest', htop⟩ := update_top hserver hmem
    rw [ht] at htop
    cases (List.cons.inj htop).1
  obtain ⟨m, hm⟩ | ⟨rest', htop⟩ := hn.watched hserver hacc hest hd
  · have hmask : m = EpollPoller.mask (s.app.conn c).channel_ :=
      (hn.masks _ _ _ hm).resolve_right (hno _)
    rw [hm, hmask]
  · rw [ht] at htop
    cases (List.cons.inj htop).1

/-- A report puts the dispatch on the stack. -/
theorem Reports.dispatched {flag : EpollMask → Bool} (h : Reports r n c flag)
    (hacc : (r.state n).app.accepted < 2 ^ 31) (hest : Established (r.state n).app c)
    (hd : .ran .connectDestroyed ∉ (r.state n).app.log c) :
    ∃ e, flag e = true ∧
      .code (.handleEvent (.conn c)) ∈
        (r.state (n + 1)).net.server.stack (.loop ((r.state n).app.conn c).loop_) ∧
      ((r.state (n + 1)).app.conn c).channel_.revents_ = EpollPoller.revents e := by
  obtain ⟨ready, place, e, hlabel, hmem, hflag⟩ := h
  refine ⟨e, hflag, ?_⟩
  rcases run_step r n with ⟨t, ch, hlabel', hstep⟩ | ⟨hno, -⟩
  · rw [hlabel] at hlabel'
    cases hlabel'
    obtain ⟨f, rest, x, next, ht, hruns, hs'⟩ := step_runs hstep.ran
    cases hruns with
    | @polling l _ y _ hx =>
        have hx' : TcpServer.poll epollPoller l (.poller ready) (r.state n).app =
          some (y, none) := hx
        obtain ⟨_, _, _, hq, hact, _⟩ := poll_conn hx' c
        obtain ⟨_, _, rfl⟩ := Option.map_eq_some_iff.mp hq
        cases hact
    | @polled l _ y codes _ hx =>
        cases (sound hstep.reach).poll_thread ht
        have hpolls : Polls (r.state n) c := by
          rw [Polls, ht]
          rfl
        have hin := hpolls.interest (r.reachIf n) hacc hest hd
        have hx' : TcpServer.poll epollPoller ((r.state n).app.conn c).loop_ (.poller ready)
          (r.state n).app = some (y, some codes) := hx
        obtain ⟨ready', q, hio, hq, hact, hrev⟩ := poll_conn hx' c
        cases hio
        obtain ⟨q', hq', rfl⟩ := Option.map_eq_some_iff.mp hq
        have hactive := LoopPoller.mem_poll hq' hmem hin
        have happ : (r.state (n + 1)).app = y := congrArg (fun s => s.shared.app) hs'
        rw [hs', Config.resume_stack_self, happ]
        refine ⟨List.mem_append_left _ (code_mem_iteration ?_), ?_⟩
        · rw [Option.some.inj hact]
          exact List.mem_map.mpr ⟨_, hactive, rfl⟩
        · rcases hrev with ⟨hno, -⟩ | ⟨rev, hrev, hset⟩
          · exact absurd hactive (hno _)
          · have hone := List.inj_on_of_nodup_map (LoopPoller.poll_nodup hq') hrev hactive rfl
            exact hset.trans (congrArg Prod.snd hone)
  · exact absurd hlabel (hno _ _)

/-- The dispatch calls the handlers of the events it finds. -/
theorem dispatch_calls {k : ConnCode} (h : RunsOn r n l (.code (.handleEvent (.conn c))))
    (hk : k.calledFor ((r.state n).app.conn c).channel_.revents_ = true) :
    piece c k ∈ (r.state (n + 1)).net.server.stack (.loop l) := by
  obtain ⟨ch, rest, hstep, ht⟩ := h.step
  obtain ⟨f, rest', x, next, ht', hruns, hs'⟩ := step_runs hstep.ran
  rw [ht] at ht'
  cases ht'
  obtain ⟨io, y, -, hserver⟩ := code_runs hruns
  rw [hs', Config.resume_stack_self]
  refine List.mem_append_left _ ?_
  cases hserver
  refine List.mem_map_of_mem (mem_handlers.mpr ?_)
  unfold ConnCode.calledFor at hk
  split at hk
  · exact .inr (.inr (.inl ⟨hk, rfl⟩))
  · exact .inr (.inr (.inr ⟨hk, rfl⟩))
  · exact .inr (.inl ⟨hk, rfl⟩)
  · exact .inl ⟨hk, rfl⟩
  · cases hk

section Served

variable {s s' : EchoServer} {ch : Choice Code (Io (List (Int × EpollMask)))} {t : ThreadId}
  {rest : List (Frame Code)}

/-- A `handleRead` takes something from the socket. -/
theorem Step.reads (h : Step s s' t ch) (hk : Held (s.net.socket c))
    (hdue : Peered.Due s.net.server c → (s.net.socket c).readable = true)
    (ht : s.net.server.stack t = piece c .handleRead :: rest) :
    ∃ d, d ≠ [] ∧ (s'.net.socket c).appended = (s.net.socket c).appended ++ d := by
  obtain ⟨y, rfl⟩ : ∃ y, ch = .app (.received y) := by
    cases h.conn c with
    | piece ht' hch hr =>
        cases (List.cons.inj (ht.symm.trans ht')).1
        generalize s'.app.conn c = y at hr
        cases hr <;> exact ⟨_, hch⟩
    | idle _ _ hcode => exact absurd ht (hcode _ _)
    | new hc => exact absurd (h.thread ht rfl).2.1 (hc ▸ Nat.lt_irrefl _)
  obtain ⟨d, rfl, hd⟩ := h.received hk hdue ht rfl
  exact ⟨d, hd, (h.read ht).1⟩

/-- A `handleWrite` sends some of what waits. -/
theorem Step.writes (h : Step s s' t ch) (hk : Held (s.net.socket c))
    (ht : s.net.server.stack t = piece c .handleWrite :: rest)
    (hout : (s.app.conn c).outputBuffer_.bytes ≠ [])
    (hw : (s.app.conn c).channel_.isWriting = true) :
    ∃ d, d ≠ [] ∧ sentBytes (s'.app.log c) = sentBytes (s.app.log c) ++ d := by
  cases h.conn c with
  | @piece k io evs next _ ht' hch hr hlog =>
      cases (List.cons.inj (ht.symm.trans ht')).1
      rw [hlog, sentBytes_append]
      refine ⟨_, ?_, rfl⟩
      generalize s'.app.conn c = y at hr
      cases hr with
      | writeFailed _ hr =>
          obtain ⟨n, hn, hpos⟩ := h.sent_some hk ht hout hch
          rcases hr with rfl | rfl
          · cases hn
          · cases hn
            exact absurd rfl hpos
      | @writePart _ n _ hpos _ _ =>
          show (s.app.conn c).outputBuffer_.bytes.take n ++ [] ≠ []
          rw [List.append_nil]
          exact fun hnil => (List.take_eq_nil_iff.mp hnil).elim (by omega) hout
      | writeAll =>
          show (s.app.conn c).outputBuffer_.bytes ++ [] ≠ []
          rw [List.append_nil]
          exact hout
      | notWriting hno =>
          rw [hw] at hno
          cases hno
  | idle _ _ hcode => exact absurd ht (hcode _ _)
  | new hc => exact absurd (h.thread ht rfl).2.1 (hc ▸ Nat.lt_irrefl _)

end Served

section Liveness

variable (hest : Established (r.state 0).app c) (hacc : ∀ n, (r.state n).app.accepted < 2 ^ 31)
  (hheld : ∀ n, Held ((r.state n).net.socket c))
  (hturns : Turns r ((r.state 0).app.conn c).loop_)

include hest in
theorem in_use (n : ℕ) : Established (r.state n).app c ∧
    ((r.state n).app.conn c).loop_ = ((r.state 0).app.conn c).loop_ :=
  (run_onward r c (Nat.zero_le n)).established hest

include hest hheld in
theorem connected (n : ℕ) : ((r.state n).app.conn c).state_ = .kConnected :=
  (up (run_reach r n) (hheld n)).state (echoing (run_reach r n)).2
    (established_state (echoing (run_reach r n)).1 c (in_use hest n).1.2)

include hest hheld hturns in
/-- What was read is passed on to `sendInLoop`. -/
theorem passed_on (n : ℕ) : ∃ m, n ≤ m ∧ ∀ k, m ≤ k →
    ((r.state n).net.socket c).appended.length ≤
      (acceptedBytes ((r.state k).app.log c)).length := by
  obtain ⟨m, hm, -, -, rest, ht⟩ := hturns n
  refine ⟨m, hm, fun k hk => ?_⟩
  rw [← (in_use hest m).2] at ht
  obtain ⟨-, hstream⟩ := (echoing (run_reach r m)).2.between ht rfl
  have happended : ((r.state m).net.socket c).appended = acceptedBytes ((r.state m).app.log c) :=
    hstream fun hd => by
      have hup := connected hest hheld m
      rw [hd] at hup
      cases hup
  have hread := (run_onward r c hm).appended.length_le
  obtain ⟨evs, hevs⟩ := (run_onward r c hk).log
  rw [happended] at hread
  rw [← hevs, acceptedBytes_append, List.length_append]
  omega

include hest hacc hheld hturns

/-- What is reported is served. -/
theorem report_runs {flag : EpollMask → Bool} {k : ConnCode} (h : Reports r n c flag)
    (hflag : ∀ e, flag e = true → k.calledFor (EpollPoller.revents e) = true) :
    ∃ m, n ≤ m ∧ RunsOn r m ((r.state 0).app.conn c).loop_ (piece c k) := by
  obtain ⟨e, he, hmem, hrev⟩ :=
    h.dispatched (hacc n) (in_use hest n).1 (up (run_reach r n) (hheld n)).used
  rw [(in_use hest n).2] at hmem
  obtain ⟨i, hi, hrun, hi'⟩ := exists_turn
    (Q := fun s => (s.app.conn c).channel_.revents_ = EpollPoller.revents e) hturns hmem hrev
    fun j hj hin hQ hno => by
      rcases run_step r j with ⟨t, ch, hlabel, hstep⟩ | ⟨-, d, y, -, hs⟩
      · rw [← hQ]
        refine revents_step hstep.reach hstep.ran hin fun rest ht => hno ⟨ch, ?_, rest, ?_⟩
        all_goals
          have hbound : Bound t (.handleEvent (.conn c)) (r.state j).app :=
            (base hstep.reach).all.stack t _ (by rw [ht]; exact List.mem_cons_self) _ rfl
          have hl : t = .loop ((r.state 0).app.conn c).loop_ := by
            rw [← (in_use hest j).2]
            exact hbound.1
        · rw [hlabel, hl]
        · rw [← hl, ht]
      · rw [hs]
        exact hQ
  have hcalled : piece c k ∈ (r.state (i + 1)).net.server.stack
      (.loop ((r.state 0).app.conn c).loop_) := dispatch_calls hrun (by rw [hi']; exact hflag e he)
  obtain ⟨m, hm, hrun, -⟩ := exists_turn (Q := fun _ => True) hturns hcalled trivial
    fun _ _ _ _ _ => trivial
  exact ⟨m, by omega, hrun⟩

/-- While something is unread, more is read. -/
theorem read_grows (hin : LevelTriggered r c EpollMask.epollin fun k => k.unread ≠ []) {B : ℕ}
    (hB : ∀ m, n ≤ m → B ≤ ((r.state m).net.socket c).sent.length)
    (hlt : ((r.state n).net.socket c).appended.length < B) :
    ∃ k, n ≤ k ∧ ((r.state n).net.socket c).appended.length <
      ((r.state k).net.socket c).appended.length := by
  refine r.grows (v := fun s => (s.net.socket c).appended.length)
    (fun hmk => (run_onward r c hmk).appended.length_le) fun hstays => ?_
  obtain ⟨i, hi, hrep⟩ := hin n fun m hm hpolls => by
    have hU := up (run_reach r m) (hheld m)
    refine ⟨⟨_, hpolls.interest (r.reachIf m) (hacc m) (in_use hest m).1 hU.used, ?_⟩, ?_⟩
    · exact established_reads (echoing (run_reach r m)).1 c (in_use hest m).1.2 hU.used
    · intro hnil
      have hsent := (echoing (run_reach r m)).2.sent c
      rw [hnil, List.append_nil] at hsent
      have hlen := hB m hm
      rw [hsent] at hlen
      exact absurd (hstays m hm) (by omega)
  obtain ⟨j, hj, hrun⟩ := report_runs hest hacc hheld hturns (k := .handleRead) hrep
    fun e he => by
      show (e.epollin || e.epollpri || e.epollrdhup) = true
      rw [he]
      rfl
  obtain ⟨ch, rest, hstep, ht⟩ := hrun.step
  obtain ⟨d, hd, hread⟩ := hstep.reads (hheld j) (up (run_reach r j) (hheld j)).due ht
  refine ⟨j, by omega, ?_⟩
  rw [hread, List.length_append]
  exact Nat.lt_add_of_pos_right (List.length_pos_of_ne_nil hd)

/-- While something waits in the output buffer, more is sent. -/
theorem sent_grows (hout : LevelTriggered r c EpollMask.epollout fun _ => True) {B : ℕ}
    (hB : ∀ m, n ≤ m → B ≤ (acceptedBytes ((r.state m).app.log c)).length)
    (hlt : (sentBytes ((r.state n).app.log c)).length < B) :
    ∃ k, n ≤ k ∧ (sentBytes ((r.state n).app.log c)).length <
      (sentBytes ((r.state k).app.log c)).length := by
  refine r.grows (v := fun s => (sentBytes (s.app.log c)).length) (fun hmk => ?_) fun hstays => ?_
  · obtain ⟨evs, hevs⟩ := (run_onward r c hmk).log
    rw [← hevs, sentBytes_append, List.length_append]
    exact Nat.le_add_right _ _
  have hwaits : ∀ m, n ≤ m → ((r.state m).app.conn c).outputBuffer_.bytes ≠ [] := by
    intro m hm hnil
    have hout : sentBytes ((r.state m).app.log c) ++ _ = acceptedBytes ((r.state m).app.log c) :=
      conserved (echoing (run_reach r m)).1 c
    rw [hnil, List.append_nil] at hout
    have hlen := hB m hm
    rw [← hout] at hlen
    exact absurd (hstays m hm) (by omega)
  have hwriting : ∀ m, n ≤ m → ((r.state m).app.conn c).channel_.isWriting = true :=
    fun m hm => (((kept (fed (run_reach r m)).1).conn c).queued (hwaits m hm)).resolve_right
      fun hd => by
        have hup := connected hest hheld m
        rw [hd] at hup
        cases hup
  obtain ⟨i, hi, hrep⟩ := hout n fun m hm hpolls =>
    ⟨⟨_, hpolls.interest (r.reachIf m) (hacc m) (in_use hest m).1
      (up (run_reach r m) (hheld m)).used, hwriting m hm⟩, trivial⟩
  obtain ⟨j, hj, hrun⟩ := report_runs hest hacc hheld hturns (k := .handleWrite) hrep
    fun e he => he
  obtain ⟨ch, rest, hstep, ht⟩ := hrun.step
  obtain ⟨d, hd, hsent⟩ :=
    hstep.writes (hheld j) ht (hwaits j (by omega)) (hwriting j (by omega))
  refine ⟨j, by omega, ?_⟩
  rw [hsent, List.length_append]
  exact Nat.lt_add_of_pos_right (List.length_pos_of_ne_nil hd)

end Liveness

/-- The kernel takes the other byte. -/
def flushed : List PeerStep :=
  Peered.serverSteps [(.loop 1, .poll (.poller [(7, { epollout := true })]) 0),
    (.loop 1, .app .none), (.loop 1, .app (.sent (some 1))), (.loop 1, .app (.poller [])),
    (.loop 1, .app .none), (.loop 1, .app .none), (.loop 1, .go), (.loop 1, .go)]

/-- All that the peer of an established connection sends comes back to it, while
it neither closes nor sends urgent data and no call on the socket fails: in a run
in which the connection's loop takes its turns, `epoll_wait` is level-triggered,
and the peer reads. -/
theorem all_comes_back (hest : Established (r.state 0).app c)
    (hacc : ∀ n, (r.state n).app.accepted < 2 ^ 31)
    (hheld : ∀ n, Held ((r.state n).net.socket c))
    (hturns : Turns r ((r.state 0).app.conn c).loop_)
    (hin : LevelTriggered r c EpollMask.epollin fun k => k.unread ≠ [])
    (hout : LevelTriggered r c EpollMask.epollout fun _ => True) (n : ℕ) :
    ∃ m, n ≤ m ∧ ((r.state n).net.socket c).sent <+: sentBytes ((r.state m).app.log c) := by
  have hsent : ∀ {m}, n ≤ m → ((r.state n).net.socket c).sent <+: ((r.state m).net.socket c).sent :=
    fun hm => (run_onward r c hm).sent
  obtain ⟨i, hi, hread⟩ := r.climbs (n := n)
    (v := fun s => (s.net.socket c).appended.length) (B := ((r.state n).net.socket c).sent.length)
    fun m hm hlt => read_grows hest hacc hheld hturns hin
      (fun k hk => (hsent (Nat.le_trans hm hk)).length_le) hlt
  obtain ⟨j, hj, hpassed⟩ := passed_on hest hheld hturns i
  obtain ⟨m, hm, hback⟩ := r.climbs (n := j)
    (v := fun s => (sentBytes (s.app.log c)).length) (B := ((r.state n).net.socket c).sent.length)
    fun k hk hlt => sent_grows hest hacc hheld hturns hout
      (fun x hx => Nat.le_trans hread (hpassed x (Nat.le_trans hk hx))) hlt
  refine ⟨m, by omega, List.prefix_of_prefix_length_le (hsent (m := m) (by omega)) ?_ hback⟩
  rw [(echoing (run_reach r m)).2.sent c]
  exact (sentBytes_appended (run_reach r m) c).trans (List.prefix_append _ _)

/-- Of two bytes the kernel takes one at first; then it takes the other. -/
theorem all_comes_back_hi : ∃ r : lts.RunIf Accepts,
    ((r.state 0).net.socket 0).sent = [104, 105] ∧ sentBytes ((r.state 0).app.log 0) = [] ∧
      ∃ m, [104, 105] <+: sentBytes ((r.state m).app.log 0) := by
  obtain ⟨s, hs, hp⟩ := Lts.exists_reachIf lts Accepts greeted
    (fun s : EchoServer => decide ((s.net.socket 0).sent = [104, 105] ∧
        sentBytes (s.app.log 0) = [] ∧ 0 < s.app.accepted ∧
        .ran .connectEstablished ∈ s.app.log 0 ∧ (s.app.conn 0).loop_ = 1) &&
      (lts.runIf Accepts s (answered ++ flushed)).any fun x : EchoServer =>
        decide (Idles 1 [.poll 1] x.net.server ∧ x.app.accepted = 1 ∧
          (x.net.socket 0).fin = false ∧ (x.net.socket 0).failed = false ∧
          (x.net.socket 0).urgent = false ∧ (x.net.socket 0).unread = []) &&
        ((x.app.poller (x.app.conn 0).loop_).poller.interest (x.app.conn 0).channel_.fd_).all
          fun e => !e.events.epollout) rfl (by decide +kernel)
  obtain ⟨hgreeted, hrest⟩ := Bool.and_eq_true_iff.mp hp
  obtain ⟨hsent, hback, hnew, hup, hloop⟩ := of_decide_eq_true hgreeted
  obtain ⟨x, hx, hend⟩ := (Option.any_eq_true _ _).mp hrest
  obtain ⟨hflushed, hquiet⟩ := Bool.and_eq_true_iff.mp hend
  obtain ⟨hidle, hone, hfin, hfailed, hurgent, hunread⟩ := of_decide_eq_true hflushed
  obtain ⟨r, hr, hturns, hsame, hpolls⟩ := exists_quiet_run (hs.of_runIf hx) hidle
  obtain ⟨q, N, hq, -, hsuffix⟩ := r.exists_append hs (hr ▸ hx)
  have hest : Established (q.state 0).app 0 := by
    rw [hq]
    exact ⟨hnew, hup⟩
  have hl : ((q.state 0).app.conn 0).loop_ = 1 := by rw [hq, hloop]
  have hlater : ∀ n, Onward (q.state n) (q.state (N + n)) 0 ∧ (q.state (N + n)).app = x.app ∧
      (q.state (N + n)).net.socket = x.net.socket := fun n =>
    ⟨run_onward q 0 (Nat.le_add_left n N), by rw [(hsuffix n).1, (hsame n).1],
      by rw [(hsuffix n).1, (hsame n).2]⟩
  have hacc : ∀ n, (q.state n).app.accepted < 2 ^ 31 := fun n =>
    Nat.lt_of_le_of_lt (hlater n).1.accepted (by rw [(hlater n).2.1, hone]; decide)
  have hheld : ∀ n, Held ((q.state n).net.socket 0) := fun n =>
    (hlater n).1.held (by rw [(hlater n).2.2]; exact ⟨hfin, hfailed, hurgent⟩)
  have hagain : Turns q ((q.state 0).app.conn 0).loop_ := by
    intro n
    obtain ⟨m, hm, ch, hlabel, hrun⟩ := hturns n
    rw [hl]
    exact ⟨N + m, by omega, ch, by rw [(hsuffix m).2, hlabel], by rw [(hsuffix m).1]; exact hrun⟩
  have hwaits : ∀ n, ∃ m, n ≤ m ∧ Polls (q.state m) 0 ∧ (q.state m).app = x.app ∧
      (q.state m).net.socket = x.net.socket := by
    intro n
    obtain ⟨m, hm, hidle⟩ := hpolls n
    refine ⟨N + m, by omega, ?_, (hlater m).2⟩
    rw [Polls, (in_use hest _).2, hl, (hsuffix m).1, hidle.stack]
    rfl
  -- From there on the kernel has nothing to report.
  have hin : LevelTriggered q 0 EpollMask.epollin fun k => k.unread ≠ [] := by
    intro n h
    obtain ⟨m, hm, hpolls, -, hsocket⟩ := hwaits n
    exact absurd (by rw [hsocket, hunread]) (h m hm hpolls).2
  have hout : LevelTriggered q 0 EpollMask.epollout fun _ => True := by
    intro n h
    obtain ⟨m, hm, hpolls, happ, -⟩ := hwaits n
    obtain ⟨e, he, hflag⟩ := (h m hm hpolls).1
    rw [happ] at he
    rw [he, Option.all_some, hflag] at hquiet
    cases hquiet
  obtain ⟨m, -, hm⟩ := all_comes_back hest hacc hheld hagain hin hout 0
  rw [hq, hsent] at hm
  exact ⟨q, by rw [hq, hsent], by rw [hq, hback], m, hm⟩

end EchoServer

end Muduox.Net
