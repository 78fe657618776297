import Muduox.Net.EchoServer
import Muduox.Proofs.GracefulClose
import Muduox.Proofs.PeerDelivery
import Muduox.Proofs.StateOrder

/-!
# The echo server echoes

Only user code sends, and the echo server's is in the message callback, on the
thread of the connection's loop. So the frames a call of `send` leads to are
only ever at the top of that thread's stack, and all below is quiet (`Stage`).
A stage says of one connection at most that it owes its input to `sendInLoop`,
or has passed it on; every other connection has an empty input buffer, and has
accepted for its output what it has read (`Stream`).
-/

namespace Muduox.Net

/-- What user code calls, and the pieces only that leads to. -/
def ConnCode.called : ConnCode → Bool
  | .send _ | .sendBuffer _ | .sendInLoop _ | .shutdown | .storeShutdown | .shutdownInLoop
  | .forceClose | .forceCloseIfDisconnecting | .storeForceClose | .retrieveInput _ => true
  | _ => false

/-- Nothing that user code calls. -/
def Quiet (f : Frame Code) : Prop := ∀ c k, f.payload = some (.conn c k) → k.called = false

namespace TcpServer

open Threads Reactor TcpConnection

variable {P E : Type} {cfg : ServerConfig} {poller : Poller P E} {t : ThreadId}

/-! ## Quiet frames -/

theorem quiet_user : Quiet .user := fun _ _ h => by cases h

theorem quiet_piece {c : ConnId} {k : ConnCode} (h : k.called = false) : Quiet (piece c k) := by
  intro d j hj
  cases hj
  exact h

theorem anyThread_called {k : ConnCode} (h : k.called = false) : k.anyThread = false := by
  cases k <;> first
    | rfl
    | cases h

theorem connRuns_uncalled {c : ConnId} {x x' : TcpConnection} {k : ConnCode} {io : Io E}
    {evs : List Event} {next : List (Frame Code)} (h : x.Runs c t k io x' evs next)
    (hk : k.called = false) : (∀ g ∈ next, Quiet g) ∧ acceptedMessages evs = [] ∧
      (k ≠ .handleRead → x'.inputBuffer_ = x.inputBuffer_) := by
  cases h with
  | halfClose =>
      refine ⟨by simp, ?_, fun _ => rfl⟩
      unfold TcpConnection.shutdownWrite
      cases x.socket_ <;> rfl
  | sendBufferHere | sentPart | queued | shutdownNow => cases hk
  | _ => first
    | exact absurd hk.symm Bool.false_ne_true
    | simp [Quiet, Frame.payload, ConnCode.called, acceptedMessages]

theorem runs_uncalled {a : Code} {io : Io E} {s s' : TcpServer P} {next : List (Frame Code)}
    (h : Runs cfg poller t s a io s' next) (ha : Quiet (.code a)) : ∀ g ∈ next, Quiet g := by
  cases h with
  | @conn c k _ _ _ _ h => exact (connRuns_uncalled h (ha c k rfl)).1
  | handleEvent =>
      intro g hg
      rcases mem_handleEvent hg with ⟨_, rfl⟩ | ⟨c, k, -, rfl, hk⟩
      · exact fun _ _ h => by cases h
      · refine quiet_piece ?_
        rcases hk with ⟨_, rfl⟩ | ⟨_, rfl⟩ | ⟨_, rfl⟩ | ⟨_, rfl⟩ <;> rfl
  | removeConnectionInLoop =>
      intro g hg
      rw [mem_removeConnectionInLoop hg]
      exact quiet_piece (k := .connectDestroyed) rfl
  | _ => simp [Quiet, Frame.payload, ConnCode.called, TcpServer.listen, TcpServer.newConnection]

theorem frame_quiet {f : Frame Code} {ch : Choice Code (Io E)}
    {s x : Reactor Code (TcpServer P)} {next : List (Frame Code)}
    (h : Reactor.Runs (app cfg poller) t s f ch x next) (hf : Quiet f) (hcall : ∀ a, ch ≠ .call a)
    (hq : ∀ l, ∀ q ∈ (s.loop l).pendingFunctors_, Quiet q.2) :
    (∀ g ∈ next, Quiet g) ∧ ∀ l, ∀ q ∈ (x.loop l).pendingFunctors_, Quiet q.2 := by
  have hold : ∀ {j : LoopId} {e : EventLoop Code},
      e.pendingFunctors_ = (s.loop j).pendingFunctors_ →
      ∀ l, ∀ q ∈ ((s.setLoop j e).loop l).pendingFunctors_, Quiet q.2 := by
    intro j e he l q hmem
    rw [setLoop_pending he] at hmem
    exact hq l q hmem
  cases h with
  | call => exact absurd rfl (hcall _)
  | code hx => exact ⟨runs_uncalled (exec_runs hx) hf, hq⟩
  | runHere | functor => exact ⟨fun g hg => by rw [List.mem_singleton.mp hg]; exact hf, hq⟩
  | runThere => exact ⟨fun g hg => by rw [List.mem_singleton.mp hg]; exact hf, hq⟩
  | queueHere | queueThere =>
      refine ⟨by simp [Quiet, Frame.payload], fun l q hmem => ?_⟩
      rcases mem_pending_queueInLoop hmem with hmem | ⟨_, rfl⟩
      · exact hq l q hmem
      · exact hf
  | wakeup | quitHere | quitThere | loop | clearQuit | leave | handleWakeup =>
      exact ⟨by simp [Quiet, Frame.payload], hold rfl⟩
  | polled hx =>
      refine ⟨fun g hg => ?_, hq⟩
      rcases mem_iteration hg with ⟨b, hb, rfl⟩ | rfl | rfl | rfl
      · obtain ⟨ch, rfl⟩ := polled_handleEvent hx hb
        exact fun _ _ h => by cases h
      · exact fun _ _ h => by cases h
      · exact fun _ _ h => by cases h
      · exact fun _ _ h => by cases h
  | doPendingFunctors =>
      refine ⟨fun g hg => ?_, fun l q hmem => ?_⟩
      · obtain ⟨q, hmem, rfl⟩ := List.mem_map.mp hg
        exact hq _ q hmem
      · rcases mem_pending_setLoop hmem with hmem | ⟨_, hmem⟩
        · exact hq l q hmem
        · cases hmem
  | _ => exact ⟨by simp [Quiet, Frame.payload], hq⟩

/-! ## What the user set -/

/-- Every connection has the callbacks the server was given. -/
def Configured (cfg : ServerConfig) (s : TcpServer P) : Prop :=
  ∀ c, c < s.accepted → (s.conn c).messageCallback_ = cfg.messageCallback_ ∧
    (s.conn c).writeCompleteCallback_ = cfg.writeCompleteCallback_

theorem ReventsOnly.configured {s s' : TcpServer P} (h : ReventsOnly s s')
    (hs : Configured cfg s) : Configured cfg s' := by
  intro c hc
  rw [h.accepted] at hc
  obtain ⟨r, hr⟩ := h.conn c
  rw [hr]
  exact hs c hc

theorem runs_configured {a : Code} {io : Io E} {s s' : TcpServer P} {next : List (Frame Code)}
    (h : Runs cfg poller t s a io s' next) (hs : Configured cfg s) : Configured cfg s' := by
  cases h with
  | @conn d k _ x _ _ h =>
      intro c hc
      by_cases hcd : c = d
      · subst hcd
        obtain ⟨_, _, hm, hw⟩ := connRuns_const h
        rw [setConn_conn_self]
        exact ⟨hm.trans (hs c hc).1, hw.trans (hs c hc).2⟩
      · rw [setConn_conn_of_ne _ _ _ _ hcd]
        exact hs c hc
  | @handleEvent ch => exact (setChannel_revents s ch kNoneEvent).configured hs
  | newConnection =>
      intro c hc
      rcases Nat.lt_succ_iff_lt_or_eq.mp hc with hlt | rfl
      · show (Function.update s.conn s.accepted _ c).messageCallback_ = _ ∧
          (Function.update s.conn s.accepted _ c).writeCompleteCallback_ = _
        rw [Function.update_of_ne (Nat.ne_of_lt hlt)]
        exact hs c hlt
      · show (Function.update s.conn s.accepted _ s.accepted).messageCallback_ = _ ∧
          (Function.update s.conn s.accepted _ s.accepted).writeCompleteCallback_ = _
        rw [Function.update_self]
        exact ⟨rfl, rfl⟩
  | _ => exact hs

theorem configured {s : State P} (h : (lts cfg poller).Reach s) :
    Configured cfg s.shared.app := by
  have hinv : AppInv (Configured cfg) (fun _ _ _ => True) s := by
    refine run_inv h ⟨fun c hc => absurd hc (Nat.not_lt_zero _), fun _ _ _ _ _ => trivial,
      fun _ _ _ _ _ => trivial⟩ fun {s b s'} hr hI _ hs => ?_
    refine hI.step hs (sound hr) (fun _ _ hx _ => ?_) (fun _ _ _ hx => ?_) fun _ _ => trivial
    · exact ⟨runs_configured (exec_runs hx) hI.app, fun _ _ _ _ => trivial, fun _ _ _ => trivial⟩
    · obtain ⟨_, q, _, _, hr, _⟩ := poll_revents hx
      exact ⟨hr.configured hI.app, fun _ _ => trivial, fun _ _ _ => trivial⟩
  exact hinv.app

end TcpServer

namespace EchoServer

open Threads Reactor TcpServer TcpConnection

/-! ## Where the message callback is -/

/-- Loop `l` serves connection `c`. -/
structure Serves (x : TcpServer LoopPoller) (l : LoopId) (c : ConnId) : Prop where
  est : Established x c
  loop : (x.conn c).loop_ = l

/-- The stack of loop `l`'s thread, `e` being what is left of its callback. A
message callback is one of a connection, whose input `sendInLoop` has yet to
accept (`true`) or was given (`false`). -/
inductive Stage (x : TcpServer LoopPoller) (l : LoopId) :
    Echo → List (Frame Code) → Option (ConnId × Bool) → Prop
  | idle {st : List (Frame Code)} (h : ∀ f ∈ st, Quiet f) : Stage x l .done st none
  | begun {c : ConnId} {rest : List (Frame Code)} (hc : Serves x l c) (h : ∀ f ∈ rest, Quiet f) :
      Stage x l (.send c) (.user :: rest) (some (c, true))
  | sending {c : ConnId} {k : ConnCode} {m : Message} {rest : List (Frame Code)}
      (hc : Serves x l c) (h : ∀ f ∈ rest, Quiet f) (hk : k = .send m ∨ k = .sendInLoop m)
      (hm : m.bytes.1 = (x.conn c).inputBuffer_.bytes) :
      Stage x l (.retrieveAll c) (piece c k :: .user :: rest) (some (c, true))
  | sent {c : ConnId} {fs rest : List (Frame Code)} (hc : Serves x l c)
      (h : ∀ f ∈ rest, Quiet f)
      (hfs : ∀ f ∈ fs, f = update c ∨ f = piece c .writeCompleteCallback) :
      Stage x l (.retrieveAll c) (fs ++ .user :: rest) (some (c, false))
  | retrieving {c : ConnId} {n : Nat} {rest : List (Frame Code)} (hc : Serves x l c)
      (h : ∀ f ∈ rest, Quiet f) (hn : n = (x.conn c).inputBuffer_.bytes.length) :
      Stage x l .done (piece c (.retrieveInput n) :: .user :: rest) (some (c, false))

/-- What connection `c` has read, and what of that it has accepted to send. -/
def Stream (x : TcpServer LoopPoller) (w : ConnId → PeerSocket) (c : ConnId) :
    Option Bool → Prop
  | none => (x.conn c).inputBuffer_.bytes = [] ∧
      ((x.conn c).state_ ≠ .kDisconnected → (w c).appended = acceptedBytes (x.log c))
  | some true => (x.conn c).state_ ≠ .kDisconnected →
      (w c).appended = acceptedBytes (x.log c) ++ (x.conn c).inputBuffer_.bytes
  | some false => (x.conn c).state_ ≠ .kDisconnected →
      (w c).appended = acceptedBytes (x.log c)

/-- Every stream, `g` saying what connection each loop is in the callback of. -/
structure Streams (x : TcpServer LoopPoller) (w : ConnId → PeerSocket)
    (g : LoopId → Option (ConnId × Bool)) : Prop where
  on : ∀ l c b, g l = some (c, b) → Stream x w c (some b)
  off : ∀ c, (∀ l b, g l ≠ some (c, b)) → Stream x w c none
  first : ∀ c, acceptedBytes (x.log c) <+: (w c).appended
  state : ∀ c, (x.conn c).state_ ≠ .kDisconnecting

/-- Nothing that matters to the stream of connection `c` changed. -/
structure Same (x x' : TcpServer LoopPoller) (w w' : ConnId → PeerSocket) (c : ConnId) : Prop where
  input : (x'.conn c).inputBuffer_.bytes = (x.conn c).inputBuffer_.bytes
  state : (x'.conn c).state_ = (x.conn c).state_
  accepted : acceptedBytes (x'.log c) = acceptedBytes (x.log c)
  appended : (w' c).appended = (w c).appended

variable {x x' : TcpServer LoopPoller} {w w' : ConnId → PeerSocket} {c : ConnId} {l : LoopId}
  {g : LoopId → Option (ConnId × Bool)}

theorem Same.stream {b : Option Bool} (h : Same x x' w w' c) (hs : Stream x w c b) :
    Stream x' w' c b := by
  unfold Stream at hs ⊢
  rw [h.input, h.state, h.accepted, h.appended]
  exact hs

theorem Streams.keep (h : Streams x w g) (hsame : ∀ c, Same x x' w w' c) : Streams x' w' g := by
  refine ⟨fun l c b hg => (hsame c).stream (h.on l c b hg),
    fun c hg => (hsame c).stream (h.off c hg), fun c => ?_, fun c => ?_⟩
  · rw [(hsame c).accepted, (hsame c).appended]
    exact h.first c
  · rw [(hsame c).state]
    exact h.state c

/-- A step of connection `c` on its loop. -/
theorem Streams.turn {o : Option (ConnId × Bool)} (h : Streams x w g)
    (hsame : ∀ d, d ≠ c → Same x x' w w' d) (hother : ∀ j b, j ≠ l → g j ≠ some (c, b))
    (hmine : ∀ d b, g l = some (d, b) → d = c) (ho : ∀ d b, o = some (d, b) → d = c)
    (hc : Stream x' w' c (o.map Prod.snd)) (hfirst : acceptedBytes (x'.log c) <+: (w' c).appended)
    (hstate : (x'.conn c).state_ ≠ .kDisconnecting) :
    Streams x' w' (Function.update g l o) := by
  refine ⟨fun j d b hg => ?_, fun d hg => ?_, fun d => ?_, fun d => ?_⟩
  · by_cases hj : j = l
    · subst hj
      rw [Function.update_self] at hg
      rw [hg] at hc
      rw [ho d b hg]
      exact hc
    · rw [Function.update_of_ne hj] at hg
      have hd : d ≠ c := fun hd => hother j b hj (by rw [hg, hd])
      exact (hsame d hd).stream (h.on j d b hg)
  · by_cases hd : d = c
    · subst hd
      cases o with
      | none => exact hc
      | some p =>
          refine absurd ?_ (hg l p.2)
          rw [Function.update_self, ← ho p.1 p.2 rfl]
    · refine (hsame d hd).stream (h.off d fun j b hj => ?_)
      by_cases hjl : j = l
      · subst hjl
        exact hd (hmine d b hj)
      · exact hg j b (by rw [Function.update_of_ne hjl]; exact hj)
  · by_cases hd : d = c
    · rw [hd]
      exact hfirst
    · rw [(hsame d hd).accepted, (hsame d hd).appended]
      exact h.first d
  · by_cases hd : d = c
    · rw [hd]
      exact hstate
    · rw [(hsame d hd).state]
      exact h.state d

theorem Serves.keep (h : Serves x l c) (hext : Extends x x') : Serves x' l c :=
  ⟨hext.established h.est, (hext.loop c h.est.1).trans h.loop⟩

theorem Stage.serves {e : Echo} {st : List (Frame Code)} {b : Bool}
    (h : Stage x l e st (some (c, b))) : Serves x l c := by
  cases h with
  | begun hc | sending hc | sent hc | retrieving hc => exact hc

theorem Stage.keep {e : Echo} {st : List (Frame Code)} {o : Option (ConnId × Bool)}
    (h : Stage x l e st o) (hext : Extends x x')
    (hin : ∀ c, Serves x l c → (x'.conn c).inputBuffer_.bytes = (x.conn c).inputBuffer_.bytes) :
    Stage x' l e st o := by
  cases h with
  | idle h => exact .idle h
  | begun hc h => exact .begun (hc.keep hext) h
  | sending hc h hk hm => exact .sending (hc.keep hext) h hk (by rw [hin _ hc]; exact hm)
  | sent hc h hfs => exact .sent (hc.keep hext) h hfs
  | retrieving hc h hn => exact .retrieving (hc.keep hext) h (by rw [hin _ hc]; exact hn)

/-! ## One step of the server -/

/-- The server's part of the state. -/
abbrev app (s : EchoServer) : TcpServer LoopPoller := s.net.server.shared.app

/-- Thread `t` takes the step `ch` from `s` to `s'`. -/
structure Step (s s' : EchoServer) (t : ThreadId)
    (ch : Choice Code (Io (List (Int × EpollMask)))) : Prop where
  reach : (TcpServer.lts config epollPoller).Reach s.net.server
  allowed : s.allows t ch = true
  agreed : s.net.agrees t ch = true
  ran : (TcpServer.lts config epollPoller).step s.net.server (t, ch) = some s'.net.server
  socket : s'.net.socket = s.net.sockets t ch s'.net.server
  callback : s'.callback = s.callbacks t s'.net

section Step

variable {s s' : EchoServer} {t : ThreadId} {ch : Choice Code (Io (List (Int × EpollMask)))}
  {f : Frame Code} {rest : List (Frame Code)}

theorem Step.extends (h : Step s s' t ch) : Extends s.app s'.app :=
  step_extends h.ran (base h.reach)

theorem Step.conn (h : Step s s' t ch) (c : ConnId) :
    ConnStep config c t ch s.net.server s'.net.server :=
  step_conn h.ran (base h.reach) (wrapped h.reach) c

/-- Who runs a piece that user code does not call is the connection's loop. -/
theorem Step.thread (h : Step s s' t ch) {k : ConnCode}
    (ht : s.net.server.stack t = piece c k :: rest) (hk : k.called = false) :
    t = .loop (s.app.conn c).loop_ ∧ c < s.app.accepted ∧
      (k ≠ .connectEstablished → Established s.app c) := by
  have hb : Bound t (.conn c k) s.app :=
    (base h.reach).all.stack t _ (by rw [ht]; exact List.mem_cons_self) _ rfl
  exact ⟨hb.2.2 (anyThread_called hk), hb.1, hb.2.1⟩

theorem Step.socket_of_ne (h : Step s s' t ch) (ht : s.net.server.stack t = f :: rest)
    (hf : f ≠ piece c .handleRead) : s'.net.socket c = s.net.socket c := by
  rw [h.socket]
  rcases Peered.sockets_eq s.net s'.net.server t ch with he | ⟨d, _, b, hd, _, he⟩
  · rw [he]
  · rw [ht] at hd
    have hcd : c ≠ d := fun hcd => hf (by rw [hcd]; exact (List.cons.inj hd).1)
    rw [he, Function.update_of_ne hcd]

theorem Step.same (h : Step s s' t ch) (ht : s.net.server.stack t = f :: rest)
    (hf : ∀ k, f ≠ piece c k)
    (hnew : ¬Established s.app c → (s.app.conn c).inputBuffer_.bytes = []) :
    Same s.app s'.app s.net.socket s'.net.socket c := by
  have hsock := h.socket_of_ne ht (hf .handleRead)
  cases h.conn c with
  | piece ht' => exact absurd (List.cons.inj (ht.symm.trans ht')).1 (hf _)
  | idle hi =>
      obtain ⟨r, hr⟩ := hi.conn
      refine ⟨by rw [hr], by rw [hr], ?_, by rw [hsock]⟩
      rcases hi.log with hlog | ⟨b, hlog⟩
      · rw [hlog]
      · rw [hlog, acceptedBytes_append]
        exact List.append_nil _
  | new hc hconn hlog =>
      have hest : ¬Established s.app c := fun he => Nat.lt_irrefl c (hc ▸ he.1)
      refine ⟨?_, ?_, ?_, by rw [hsock]⟩
      · rw [hnew hest, hconn.eq]
        exact WfBuffer.new_bytes
      · rw [(base h.reach).app.connecting c hest, hconn.eq]
      · rw [hlog, (base h.reach).app.fresh c (Nat.le_of_eq hc.symm)]

theorem Step.callback_user (h : Step s s' (.loop l) ch)
    (ht : s.net.server.stack (.loop l) = .user :: rest) :
    s'.callback = Function.update s.callback l
      (match s.callback l with
        | .send c => .retrieveAll c
        | _ => .done) := by
  rw [h.callback]
  unfold callbacks
  rw [ht]
  rfl

theorem Step.callback_read (h : Step s s' (.loop l) ch) {evs : List Event}
    (ht : s.net.server.stack (.loop l) = piece c .handleRead :: rest)
    (hlog : s'.app.log c = s.app.log c ++ .ran .handleRead :: evs) :
    s'.callback = if .callback .message ∈ evs then Function.update s.callback l (.send c)
      else s.callback := by
  have hnews : (s'.app.log c).drop (s.app.log c).length = .ran .handleRead :: evs := by
    rw [hlog, List.drop_left]
  have hmem : Event.callback .message ∈ .ran .handleRead :: evs ↔ .callback .message ∈ evs := by
    simp
  rw [h.callback]
  unfold callbacks
  rw [ht]
  show (if _ ∈ (s'.app.log c).drop (s.app.log c).length then _ else _) = _
  rw [hnews]
  simp only [hmem]

theorem Step.callback_other (h : Step s s' t ch) (ht : s.net.server.stack t = f :: rest)
    (huser : f = .user → ∀ l, t ≠ .loop l) (hread : ∀ c, f ≠ piece c .handleRead) :
    s'.callback = s.callback := by
  rw [h.callback]
  unfold callbacks
  rw [ht]
  split
  · next l hf => exact absurd rfl (huser (Option.some.inj hf) l)
  · next c l hf => exact absurd (Option.some.inj hf) (hread c)
  · rfl

theorem Step.callback_cases (h : Step s s' t ch) : s'.callback = s.callback ∨
    ∃ l e, t = .loop l ∧ s'.callback = Function.update s.callback l e := by
  rw [h.callback]
  unfold callbacks
  split
  · exact .inr ⟨_, _, rfl, rfl⟩
  · dsimp only
    split
    · exact .inr ⟨_, _, rfl, rfl⟩
    · exact .inl rfl
  · exact .inl rfl

theorem Step.callback_of_ne (h : Step s s' t ch) (hl : t ≠ .loop l) :
    s'.callback l = s.callback l := by
  rcases h.callback_cases with he | ⟨j, e, rfl, he⟩
  · rw [he]
  · rw [he, Function.update_of_ne fun hlj => hl (by rw [hlj])]

theorem Step.read {r : RecvResult} (h : Step s s' t (.app (.received r)))
    (ht : s.net.server.stack t = piece c .handleRead :: rest) :
    (s'.net.socket c).appended = (s.net.socket c).appended ++ Buffer.delivered r ∧
      (s.net.socket c).unread = Buffer.delivered r ++ (s'.net.socket c).unread ∧
      (s'.net.socket c).sent = (s.net.socket c).sent := by
  cases r with
  | error e =>
      have hsock : s'.net.socket c = s.net.socket c := by
        rw [h.socket]
        rcases Peered.sockets_eq s.net s'.net.server t (.app (.received (.error e))) with
          he | ⟨_, _, _, _, he, _⟩
        · rw [he]
        · cases he
      rw [hsock]
      exact ⟨(List.append_nil _).symm, rfl, rfl⟩
  | bytes d =>
      have hsock : s'.net.socket c = (s.net.socket c).read d
          ((s'.app.conn c).inputBuffer_.bytes.drop (s.app.conn c).inputBuffer_.bytes.length)
          (decide (.callback .message ∈ (s'.app.log c).drop (s.app.log c).length)) := by
        rw [h.socket]
        unfold Peered.sockets
        rw [ht]
        exact Function.update_self ..
      have hag := h.agreed
      unfold Peered.agrees at hag
      rw [ht] at hag
      have hfront : d <+: (s.net.socket c).unread :=
        List.isPrefixOf_iff_prefix.mp (Bool.and_eq_true_iff.mp hag).1
      rw [hsock, (Peered.read_eq h.reach ht h.ran).1, List.drop_left]
      obtain ⟨later, hlater⟩ := hfront
      refine ⟨rfl, ?_, rfl⟩
      rw [← hlater, PeerSocket.read, ← hlater, List.drop_left]
      rfl

end Step

/-! ## What the callback does with the stream -/

/-- Each loop is in the callback `g` says. -/
structure Inside (s : EchoServer) (g : LoopId → Option (ConnId × Bool)) : Prop where
  stages : ∀ l, Stage s.app l (s.callback l) (s.net.server.stack (.loop l)) (g l)
  streams : Streams s.app s.net.socket g

/-- The part of it that a step of loop `l` has to reestablish. -/
def Own (s : EchoServer) (l : LoopId) (g : LoopId → Option (ConnId × Bool)) : Prop :=
  ∃ o, Stage s.app l (s.callback l) (s.net.server.stack (.loop l)) o ∧
    Streams s.app s.net.socket (Function.update g l o)

section Own

variable {s s' : EchoServer} {ch : Choice Code (Io (List (Int × EpollMask)))}
  {f : Frame Code} {rest next : List (Frame Code)}

theorem Inside.serves (hi : Inside s g) {b : Bool} (hg : g l = some (c, b)) :
    Serves s.app l c := by
  have hst := hi.stages l
  rw [hg] at hst
  exact hst.serves

theorem Inside.other (hi : Inside s g) (hl : (s.app.conn c).loop_ = l) (j : LoopId) (b : Bool)
    (hj : j ≠ l) : g j ≠ some (c, b) := fun hg => hj ((hi.serves hg).loop.symm.trans hl)

theorem Inside.off (hi : Inside s g) (hl : (s.app.conn c).loop_ = l) (hg : g l = none) :
    Stream s.app s.net.socket c none := by
  refine hi.streams.off c fun j b hj => ?_
  by_cases hjl : j = l
  · rw [hjl, hg] at hj
    cases hj
  · exact hi.other hl j b hjl hj

theorem Inside.fresh (hi : Inside s g) (hc : ¬Established s.app c) :
    (s.app.conn c).inputBuffer_.bytes = [] :=
  (hi.streams.off c fun _ _ hg => hc (hi.serves hg).est).1

theorem Inside.same (hi : Inside s g) {t : ThreadId} (h : Step s s' t ch)
    (ht : s.net.server.stack t = f :: rest) (hf : ∀ k, f ≠ piece c k) :
    Same s.app s'.app s.net.socket s'.net.socket c := h.same ht hf hi.fresh

/-- No stream changed. -/
theorem Inside.own_keep (hi : Inside s g)
    (hsame : ∀ d, Same s.app s'.app s.net.socket s'.net.socket d)
    (hst : Stage s'.app l (s'.callback l) (s'.net.server.stack (.loop l)) (g l)) : Own s' l g := by
  refine ⟨g l, hst, ?_⟩
  rw [Function.update_eq_self]
  exact hi.streams.keep hsame

/-- The top frame is one of connection `c`, which the loop serves. -/
theorem Inside.own_turn (hi : Inside s g) (h : Step s s' (.loop l) ch) {k : ConnCode}
    (ht : s.net.server.stack (.loop l) = piece c k :: rest) (hl : (s.app.conn c).loop_ = l)
    (hmine : ∀ d b, g l = some (d, b) → d = c)
    {o : Option (ConnId × Bool)} (ho : ∀ d b, o = some (d, b) → d = c)
    (hst : Stage s'.app l (s'.callback l) (s'.net.server.stack (.loop l)) o)
    (hc : Stream s'.app s'.net.socket c (o.map Prod.snd))
    (hfirst : acceptedBytes (s'.app.log c) <+: (s'.net.socket c).appended)
    (hstate : (s'.app.conn c).state_ ≠ .kDisconnecting) : Own s' l g := by
  refine ⟨o, hst, hi.streams.turn (fun d hd => hi.same h ht fun j he => hd ?_) (hi.other hl)
    hmine ho hc hfirst hstate⟩
  cases he
  rfl

end Own

theorem delivered_eq_nil {r : RecvResult} (h : Buffer.returned r ≤ 0) :
    Buffer.delivered r = [] := by
  cases r with
  | error e => rfl
  | bytes d =>
      have hlen : (d.length : Int) ≤ 0 := h
      show d = []
      exact List.eq_nil_of_length_eq_zero (by omega)

theorem connRuns_reads {E : Type} {t : ThreadId} {y y' : TcpConnection} {io : Io E}
    {evs : List Event} {next : List (Frame Code)} (h : y.Runs c t .handleRead io y' evs next)
    (hm : y.messageCallback_ = true) :
    ∃ r, io = .received r ∧
      y'.inputBuffer_.bytes = y.inputBuffer_.bytes ++ Buffer.delivered r ∧
        (Buffer.delivered r = [] ∧ .callback .message ∉ evs ∨
          .callback .message ∈ evs ∧ next = [.user]) := by
  cases h with
  | @readMessage _ r _ hb => exact ⟨r, rfl, hb, .inr ⟨List.mem_singleton.mpr rfl, rfl⟩⟩
  | readUnannounced _ _ hno => exact absurd (hm.symm.trans hno) (Bool.false_ne_true ·.symm)
  | @readEof _ r hret hb =>
      exact ⟨r, rfl, hb, .inl ⟨delivered_eq_nil (Int.le_of_eq hret), List.not_mem_nil⟩⟩
  | @readError _ r hret hb =>
      exact ⟨r, rfl, hb, .inl ⟨delivered_eq_nil (Int.le_of_lt hret), List.not_mem_nil⟩⟩

theorem acceptedBytes_of_messages {log evs : List Event} {k : ConnCode}
    (h : acceptedMessages evs = []) :
    acceptedBytes (log ++ .ran k :: evs) = acceptedBytes log := by
  rw [acceptedBytes_append]
  have hevs : acceptedMessages (.ran k :: evs) = acceptedMessages evs := rfl
  unfold acceptedBytes
  rw [hevs, h]
  exact List.append_nil _

section Idle

variable {s s' : EchoServer} {ch : Choice Code (Io (List (Int × EpollMask)))}
  {f : Frame Code} {rest next : List (Frame Code)} {k : ConnCode}

/-- The loop reads. -/
theorem Inside.own_read (hi : Inside s g) (h : Step s s' (.loop l) ch)
    (ht : s.net.server.stack (.loop l) = piece c .handleRead :: rest)
    (ht' : s'.net.server.stack (.loop l) = next ++ rest) (hg : g l = none)
    (he : s.callback l = .done) (hrest : ∀ b ∈ rest, Quiet b)
    {io : Io (List (Int × EpollMask))} {evs : List Event} (hch : ch = .app io)
    (hr : (s.app.conn c).Runs c (.loop l) .handleRead io (s'.app.conn c) evs next)
    (hlog : s'.app.log c = s.app.log c ++ .ran .handleRead :: evs) : Own s' l g := by
  obtain ⟨hthread, hacc, hest⟩ := h.thread ht rfl
  have hl : (s.app.conn c).loop_ = l := (ThreadId.loop.inj hthread).symm
  obtain ⟨r, rfl, hin, hcase⟩ := connRuns_reads hr (configured h.reach c hacc).1
  subst hch
  obtain ⟨hempty, hstream⟩ := hi.off hl hg
  obtain ⟨hquiet, hnone, _⟩ := connRuns_uncalled hr rfl
  obtain ⟨hR, _, _⟩ := h.read ht
  have hA : acceptedBytes (s'.app.log c) = acceptedBytes (s.app.log c) := by
    rw [hlog, acceptedBytes_of_messages hnone]
  have hstate : (s'.app.conn c).state_ = (s.app.conn c).state_ := connRuns_state hr
  have hmine : ∀ d b, g l = some (d, b) → d = c := fun d b hd => by rw [hg] at hd; cases hd
  have hfirst : acceptedBytes (s'.app.log c) <+: (s'.net.socket c).appended := by
    rw [hA, hR]
    exact (hi.streams.first c).trans (List.prefix_append _ _)
  have hdisc : (s'.app.conn c).state_ ≠ .kDisconnecting := by
    rw [hstate]
    exact hi.streams.state c
  have hcb := h.callback_read ht hlog
  rw [hempty, List.nil_append] at hin
  rcases hcase with ⟨hnil, hmsg⟩ | ⟨hmsg, rfl⟩
  · rw [if_neg hmsg] at hcb
    rw [hnil, List.append_nil] at hR
    refine hi.own_turn (o := none) h ht hl hmine (fun _ _ hn => by cases hn) ?_ ⟨?_, ?_⟩ hfirst
      hdisc
    · rw [hcb, he, ht']
      exact .idle fun b hb => (List.mem_append.mp hb).elim (hquiet b) (hrest b)
    · rw [hin, hnil]
    · rw [hstate, hR, hA]
      exact hstream
  · rw [if_pos hmsg] at hcb
    refine hi.own_turn (o := some (c, true)) h ht hl hmine (fun _ _ hs => by cases hs; rfl) ?_
      (fun hopen => ?_) hfirst hdisc
    · rw [hcb, Function.update_self, ht']
      exact .begun (Serves.keep ⟨hest (by simp), hl⟩ h.extends) hrest
    · rw [hstate] at hopen
      rw [hR, hA, hin, hstream hopen]

/-- The loop runs a piece that leaves the input alone. -/
theorem Inside.own_piece (hi : Inside s g) (h : Step s s' (.loop l) ch)
    (ht : s.net.server.stack (.loop l) = piece c k :: rest)
    (ht' : s'.net.server.stack (.loop l) = next ++ rest) (hg : g l = none)
    (he : s.callback l = .done) (hrest : ∀ b ∈ rest, Quiet b) (hk : k.called = false)
    (hread : k ≠ .handleRead) {io : Io (List (Int × EpollMask))} {evs : List Event}
    (hr : (s.app.conn c).Runs c (.loop l) k io (s'.app.conn c) evs next)
    (hlog : s'.app.log c = s.app.log c ++ .ran k :: evs) : Own s' l g := by
  have hl : (s.app.conn c).loop_ = l := (ThreadId.loop.inj (h.thread ht hk).1).symm
  obtain ⟨hempty, hstream⟩ := hi.off hl hg
  obtain ⟨hquiet, hnone, hin⟩ := connRuns_uncalled hr hk
  have hsock : s'.net.socket c = s.net.socket c :=
    h.socket_of_ne ht fun hp => hread (by cases hp; rfl)
  have hA : acceptedBytes (s'.app.log c) = acceptedBytes (s.app.log c) := by
    rw [hlog, acceptedBytes_of_messages hnone]
  have hcb : s'.callback = s.callback :=
    h.callback_other ht (fun hp => by cases hp) fun d hp => hread (by cases hp; rfl)
  have hstate := connRuns_state hr
  have hmine : ∀ d b, g l = some (d, b) → d = c := fun d b hd => by rw [hg] at hd; cases hd
  refine hi.own_turn (o := none) h ht hl hmine (fun _ _ hn => by cases hn) ?_ ⟨?_, fun hopen => ?_⟩
    ?_ ?_
  · rw [hcb, he, ht']
    exact .idle fun b hb => (List.mem_append.mp hb).elim (hquiet b) (hrest b)
  · rw [hin hread, hempty]
  · rw [hsock, hA]
    refine hstream fun hclosed => ?_
    rw [hstate] at hopen
    cases k with
    | connectEstablished =>
        have hnot : ¬Established s.app c := fun hest => by
          rw [Established, nothing_before h.reach ht] at hest
          cases hest.2
        have hconn := (base h.reach).app.connecting c hnot
        rw [hclosed] at hconn
        cases hconn
    | handleClose => exact hopen rfl
    | send | sendBuffer | sendInLoop | shutdown | storeShutdown | shutdownInLoop | forceClose
    | forceCloseIfDisconnecting | storeForceClose | retrieveInput => cases hk
    | _ => exact hopen hclosed
  · rw [hsock, hA]
    exact hi.streams.first c
  · rw [hstate]
    cases k with
    | connectEstablished | handleClose => exact fun hd => by cases hd
    | storeShutdown | storeForceClose => cases hk
    | _ => exact hi.streams.state c

/-- The loop is in no message callback. -/
theorem Inside.own_idle (hi : Inside s g) (h : Step s s' (.loop l) ch)
    (ht : s.net.server.stack (.loop l) = f :: rest)
    (ht' : s'.net.server.stack (.loop l) = next ++ rest) (hg : g l = none)
    (he : s.callback l = .done) (hf : Quiet f) (hrest : ∀ b ∈ rest, Quiet b)
    (hnext : ∀ b ∈ next, Quiet b) : Own s' l g := by
  by_cases hp : ∃ c k, f = piece c k
  · obtain ⟨c, k, rfl⟩ := hp
    have hk : k.called = false := hf c k rfl
    cases h.conn c with
    | @piece j io evs next' rest' hj hch hr hlog hs' =>
        obtain ⟨hpj, hrest'⟩ := List.cons.inj (ht.symm.trans hj)
        cases hpj
        subst hrest'
        have hsame : s'.net.server.stack (.loop l) = next' ++ rest := by
          rw [hs', Config.resume_stack_self]
        by_cases hread : k = .handleRead
        · subst hread
          exact hi.own_read h ht hsame hg he hrest hch hr hlog
        · exact hi.own_piece h ht hsame hg he hrest hk hread hr hlog
    | idle _ _ hcode => exact absurd ht (hcode _ _)
    | new hc => exact absurd (h.thread ht hk).2.1 (hc ▸ Nat.lt_irrefl _)
  · have hnot : ∀ c k, f ≠ piece c k := fun c k hfk => hp ⟨c, k, hfk⟩
    refine hi.own_keep (fun d => hi.same h ht (hnot d)) ?_
    have hcb : s'.callback l = .done := by
      by_cases huser : f = .user
      · subst huser
        rw [h.callback_user ht, Function.update_self, he]
      · rw [h.callback_other ht (fun hu => absurd hu huser) fun c => hnot c _, he]
    rw [hcb, hg, ht']
    exact .idle fun b hb => (List.mem_append.mp hb).elim (hnext b) (hrest b)

end Idle

theorem connRuns_unset {E : Type} {t : ThreadId} {y y' : TcpConnection} {io : Io E}
    {evs : List Event} {next : List (Frame Code)}
    (h : y.Runs c t .writeCompleteCallback io y' evs next) (hw : y.writeCompleteCallback_ = false) :
    y' = y ∧ evs = [] ∧ next = [] := by
  cases h with
  | writeComplete hset => exact absurd (hset.symm.trans hw) (Bool.false_ne_true ·.symm)
  | noWriteComplete => exact ⟨rfl, rfl, rfl⟩

theorem connRuns_retrieves {E : Type} {t : ThreadId} {y y' : TcpConnection} {n : Nat} {io : Io E}
    {evs : List Event} {next : List (Frame Code)}
    (h : y.Runs c t (.retrieveInput n) io y' evs next) :
    y' = { y with inputBuffer_ := y.inputBuffer_.retrieve n } ∧ evs = [] ∧ next = [] := by
  cases h
  exact ⟨rfl, rfl, rfl⟩

/-- What `send` and `sendInLoop` make of a message, on the loop's thread. -/
theorem connRuns_sends {E : Type} {y y' : TcpConnection} {k : ConnCode} {m : Message} {io : Io E}
    {evs : List Event} {next : List (Frame Code)}
    (h : y.Runs c (.loop y.loop_) k io y' evs next) (hk : k = .send m ∨ k = .sendInLoop m) :
    y'.inputBuffer_ = y.inputBuffer_ ∧
      (acceptedBytes evs = [] ∧ next = [piece c (.sendInLoop m)] ∨
        acceptedBytes evs = [] ∧ next = [] ∧ y.state_ ≠ .kConnected ∨
        acceptedBytes evs = m.bytes.1 ∧ y.state_ = .kConnected ∧
          ∀ f ∈ next, f = update c ∨ f = piece c .writeCompleteCallback) := by
  have hone : ∀ evs : List Event, acceptedBytes (.accepted m :: evs) =
      m.bytes.1 ++ acceptedBytes evs := fun evs => List.flatMap_cons ..
  cases h with
  | sendHere =>
      rcases hk with hk | hk <;> cases hk
      exact ⟨rfl, .inl ⟨rfl, rfl⟩⟩
  | sendThere _ ht => exact absurd rfl ht
  | sendRefused hs => exact ⟨rfl, .inr (.inl ⟨rfl, rfl, hs⟩)⟩
  | dropped _ hs => exact ⟨rfl, .inr (.inl ⟨rfl, rfl, hs⟩)⟩
  | sentWhole _ hs =>
      rcases hk with hk | hk <;> cases hk
      exact ⟨rfl, .inr (.inr ⟨(hone _).trans (List.append_nil _), hs, fun f hf =>
        .inr (List.mem_singleton.mp hf)⟩)⟩
  | sentPart _ hs _ _ _ hx =>
      rcases hk with hk | hk <;> cases hk
      exact ⟨by rw [hx.rest], .inr (.inr ⟨(hone _).trans (List.append_nil _), hs, fun f hf =>
        .inl (mem_updateUnlessWriting hf)⟩)⟩
  | queued _ hs hx =>
      rcases hk with hk | hk <;> cases hk
      exact ⟨by rw [hx.rest], .inr (.inr ⟨(hone _).trans (List.append_nil _), hs, fun f hf =>
        .inl (mem_updateUnlessWriting hf)⟩)⟩
  | _ => rcases hk with hk | hk <;> cases hk

/-- A connection that was established is past `kConnecting`. -/
theorem established_state {P E : Type} {cfg : ServerConfig} {poller : Poller P E} {s : State P}
    (h : (TcpServer.lts cfg poller).Reach s) (c : ConnId) :
    .ran .connectEstablished ∈ s.shared.app.log c →
      (s.shared.app.conn c).state_ ≠ .kConnecting := by
  refine conn_inv (Φ := fun y log => .ran .connectEstablished ∈ log → y.state_ ≠ .kConnecting)
    h (fun _ hmem => by cases hmem) (fun hold hi hmem => ?_)
    (fun {_ _ _ _ k _ evs _ log} hold hr hmem => ?_) c
  · obtain ⟨r, hr⟩ := hi.conn
    rw [hr]
    refine hold ?_
    rcases hi.log with hlog | ⟨b, hlog⟩ <;> rw [hlog] at hmem
    · exact hmem
    · exact (List.mem_append.mp hmem).elim id fun h => by cases List.mem_singleton.mp h
  · rw [connRuns_state hr]
    rcases List.mem_append.mp hmem with hmem | hmem
    · have hs := hold hmem
      cases k with
      | connectEstablished | storeShutdown | storeForceClose | handleClose =>
          exact fun hs => by cases hs
      | _ => exact hs
    · rcases List.mem_cons.mp hmem with hmem | hmem
      · cases hmem
        exact fun hs => by cases hs
      · exact absurd hmem ((connRuns_events hr).1 _)

section Callback

variable {s s' : EchoServer} {ch : Choice Code (Io (List (Int × EpollMask)))}
  {f : Frame Code} {rest next : List (Frame Code)} {k : ConnCode}

/-- User code of loop `l` calls. -/
theorem Step.calls (h : Step s s' (.loop l) ch) (ht : s.net.server.stack (.loop l) = .user :: rest)
    (he : s.callback l ≠ .done) :
    ∃ a, ch = .call a ∧ s.goesOn l ch = true ∧
      s'.net.server.stack (.loop l) = .code a :: .user :: rest := by
  have hgoes : s.goesOn l ch = true := by
    have hallow := h.allowed
    unfold allows at hallow
    rw [ht] at hallow
    exact hallow
  obtain ⟨f, rest', y, next, hf, hruns, hs'⟩ := step_runs h.ran
  obtain ⟨rfl, rfl⟩ := List.cons.inj (ht.symm.trans hf)
  cases hruns with
  | call => exact ⟨_, rfl, hgoes, by rw [hs', Config.resume_stack_self]; rfl⟩
  | ret | callRunInLoop | callQueueInLoop | callQuit =>
      unfold goesOn at hgoes
      split at hgoes
      · next hd _ => exact absurd hd he
      · next hc => cases hc
      · next hc => cases hc
      · cases hgoes

/-- The callback sends what the input buffer holds. -/
theorem Inside.own_begun (hi : Inside s g) (h : Step s s' (.loop l) ch)
    (ht : s.net.server.stack (.loop l) = .user :: rest) (hg : g l = some (c, true))
    (he : s.callback l = .send c) (hrest : ∀ b ∈ rest, Quiet b) : Own s' l g := by
  obtain ⟨a, rfl, hgoes, ht'⟩ := h.calls ht (by rw [he]; exact fun hd => by cases hd)
  have hserves := hi.serves hg
  have hnot : ∀ d k, Frame.user ≠ piece d k := fun d k hd => by cases hd
  refine hi.own_keep (fun d => hi.same h ht (hnot d)) ?_
  have hcb : s'.callback l = .retrieveAll c := by
    rw [h.callback_user ht, Function.update_self, he]
  unfold goesOn at hgoes
  rw [he] at hgoes
  split at hgoes
  · next hd _ => cases hd
  · next d e m hd hch =>
      cases hd
      cases hch
      obtain ⟨hde, hm⟩ := Bool.and_eq_true_iff.mp hgoes
      rw [eq_of_beq hde] at ht'
      rw [hcb, hg, ht']
      exact .sending (hserves.keep h.extends) hrest (.inl rfl)
        ((eq_of_beq hm).trans (hi.same h ht (hnot c)).input.symm)
  · next hd _ => cases hd
  · cases hgoes

/-- The message is on its way through `send` and `sendInLoop`. -/
theorem Inside.own_sending (hi : Inside s g) (h : Step s s' (.loop l) ch) {m : Message}
    (ht : s.net.server.stack (.loop l) = piece c k :: .user :: rest) (hg : g l = some (c, true))
    (he : s.callback l = .retrieveAll c) (hrest : ∀ b ∈ rest, Quiet b)
    (hk : k = .send m ∨ k = .sendInLoop m) (hm : m.bytes.1 = (s.app.conn c).inputBuffer_.bytes) :
    Own s' l g := by
  have hserves := hi.serves hg
  have hread : k ≠ .handleRead := by rcases hk with rfl | rfl <;> exact fun hr => by cases hr
  have hsock : s'.net.socket c = s.net.socket c :=
    h.socket_of_ne ht fun hp => hread (by cases hp; rfl)
  have hcb : s'.callback l = .retrieveAll c := by
    rw [h.callback_other ht (fun hp => by cases hp) fun d hp => hread (by cases hp; rfl), he]
  have hmine : ∀ d b, g l = some (d, b) → d = c := fun d b hd => by
    rw [hg] at hd
    cases hd
    rfl
  cases h.conn c with
  | @piece j io evs next rest' hj hch hr hlog hs' =>
      obtain ⟨hpj, hrest'⟩ := List.cons.inj (ht.symm.trans hj)
      cases hpj
      have ht' : s'.net.server.stack (.loop l) = next ++ .user :: rest := by
        rw [hs', Config.resume_stack_self, ← hrest']
      have hstate : (s'.app.conn c).state_ = (s.app.conn c).state_ := by
        rw [connRuns_state hr]
        rcases hk with rfl | rfl <;> rfl
      have hstream := hi.streams.on l c true hg
      have hA : acceptedBytes (s'.app.log c) =
          acceptedBytes (s.app.log c) ++ acceptedBytes evs := by
        rw [hlog, acceptedBytes_append]
        rfl
      have hr' := hr
      rw [← hserves.loop] at hr'
      obtain ⟨hin, hcase⟩ := connRuns_sends hr' hk
      have hdisc : (s'.app.conn c).state_ ≠ .kDisconnecting := by
        rw [hstate]
        exact hi.streams.state c
      have hfirst := hi.streams.first c
      rcases hcase with ⟨hnone, rfl⟩ | ⟨hnone, rfl, hs⟩ | ⟨hall, hs, hnext⟩
      · rw [hnone, List.append_nil] at hA
        refine hi.own_turn (o := some (c, true)) h ht hserves.loop hmine
          (fun _ _ hs => by cases hs; rfl) ?_ ?_ (by rw [hsock, hA]; exact hfirst) hdisc
        · rw [hcb, ht']
          exact .sending (hserves.keep h.extends) hrest (.inr rfl) (by rw [hin]; exact hm)
        · unfold Stream
          rw [hstate, hsock, hA, hin]
          exact hstream
      · rw [hnone, List.append_nil] at hA
        refine hi.own_turn (o := some (c, false)) h ht hserves.loop hmine
          (fun _ _ hs => by cases hs; rfl) ?_ (fun hopen => ?_) (by rw [hsock, hA]; exact hfirst)
          hdisc
        · rw [hcb, ht']
          exact .sent (hserves.keep h.extends) hrest (by simp)
        · have hconn := established_state h.reach c hserves.est.2
          have hing := hi.streams.state c
          rw [hstate] at hopen
          cases hst : (s.app.conn c).state_ with
          | kConnecting => exact absurd hst hconn
          | kConnected => exact absurd hst hs
          | kDisconnecting => exact absurd hst hing
          | kDisconnected => exact absurd hst hopen
      · have hread : (s.net.socket c).appended = acceptedBytes (s'.app.log c) := by
          rw [hA, hall, hm]
          exact hstream (by rw [hs]; exact fun hd => by cases hd)
        refine hi.own_turn (o := some (c, false)) h ht hserves.loop hmine
          (fun _ _ hs => by cases hs; rfl) ?_ (fun _ => by rw [hsock]; exact hread)
          (by rw [hsock, hread]) hdisc
        rw [hcb, ht']
        exact .sent (hserves.keep h.extends) hrest hnext
  | idle _ _ hcode => exact absurd ht (hcode _ _)
  | new hc => exact absurd hserves.est.1 (hc ▸ Nat.lt_irrefl _)

/-- A frame behind `sendInLoop` leaves nothing. -/
theorem Inside.sent_runs (hi : Inside s g) (h : Step s s' (.loop l) ch)
    (ht : s.net.server.stack (.loop l) = f :: rest) (hserves : Serves s.app l c)
    (hf : f = update c ∨ f = piece c .writeCompleteCallback) :
    s'.net.server.stack (.loop l) = rest ∧
      ∀ d, Same s.app s'.app s.net.socket s'.net.socket d := by
  rcases hf with rfl | rfl
  · obtain ⟨f, rest', y, next, hf, hruns, hs'⟩ := step_runs h.ran
    obtain ⟨rfl, rfl⟩ := List.cons.inj (ht.symm.trans hf)
    refine ⟨?_, fun d => hi.same h ht fun k hd => by cases hd⟩
    rw [hs', Config.resume_stack_self]
    cases hruns with
    | code hx => cases exec_runs hx; rfl
  · cases h.conn c with
    | @piece j io evs next rest' hj hch hr hlog hs' =>
        obtain ⟨hpj, rfl⟩ := List.cons.inj (ht.symm.trans hj)
        cases hpj
        obtain ⟨hx, rfl, rfl⟩ := connRuns_unset hr (configured h.reach c hserves.est.1).2
        refine ⟨by rw [hs', Config.resume_stack_self]; rfl, fun d => ?_⟩
        by_cases hd : d = c
        · subst hd
          exact ⟨by rw [hx], by rw [hx], by rw [hlog, acceptedBytes_of_messages rfl],
            by rw [h.socket_of_ne ht fun hp => by cases hp]⟩
        · exact hi.same h ht fun k hp => hd (by cases hp; rfl)
    | idle _ _ hcode => exact absurd ht (hcode _ _)
    | new hc => exact absurd hserves.est.1 (hc ▸ Nat.lt_irrefl _)

/-- The call of `send` comes to its end, and the callback to `retrieveAll`. -/
theorem Inside.own_sent (hi : Inside s g) (h : Step s s' (.loop l) ch) {fs : List (Frame Code)}
    (ht : s.net.server.stack (.loop l) = fs ++ .user :: rest) (hg : g l = some (c, false))
    (he : s.callback l = .retrieveAll c) (hrest : ∀ b ∈ rest, Quiet b)
    (hfs : ∀ f ∈ fs, f = update c ∨ f = piece c .writeCompleteCallback) : Own s' l g := by
  have hserves := hi.serves hg
  cases fs with
  | nil =>
      obtain ⟨a, rfl, hgoes, ht'⟩ := h.calls ht (by rw [he]; exact fun hd => by cases hd)
      have hsame : ∀ d, Same s.app s'.app s.net.socket s'.net.socket d := fun d =>
        hi.same h ht fun k hd => by cases hd
      refine hi.own_keep hsame ?_
      have hcb : s'.callback l = .done := by
        rw [h.callback_user ht, Function.update_self, he]
      unfold goesOn at hgoes
      rw [he] at hgoes
      split at hgoes
      · next hd _ => cases hd
      · next hd _ => cases hd
      · next d e n hd hch =>
          cases hd
          cases hch
          obtain ⟨hde, hn⟩ := Bool.and_eq_true_iff.mp hgoes
          rw [eq_of_beq hde] at ht'
          rw [hcb, hg, ht']
          refine .retrieving (hserves.keep h.extends) hrest ((eq_of_beq hn).trans ?_)
          rw [(hsame c).input]
      · cases hgoes
  | cons f fs =>
      have hf := hfs f List.mem_cons_self
      obtain ⟨ht', hsame⟩ := hi.sent_runs h ht hserves hf
      have hcb : s'.callback l = .retrieveAll c := by
        rw [h.callback_other ht, he]
        · rcases hf with rfl | rfl <;> exact fun hp => by cases hp
        · rcases hf with rfl | rfl <;> exact fun d hp => by cases hp
      refine hi.own_keep hsame ?_
      rw [hcb, hg, ht']
      exact .sent (hserves.keep h.extends) hrest fun b hb => hfs b (List.mem_cons_of_mem _ hb)

/-- The callback has taken all there was. -/
theorem Inside.own_retrieving (hi : Inside s g) (h : Step s s' (.loop l) ch) {n : Nat}
    (ht : s.net.server.stack (.loop l) = piece c (.retrieveInput n) :: .user :: rest)
    (hg : g l = some (c, false)) (he : s.callback l = .done) (hrest : ∀ b ∈ rest, Quiet b)
    (hn : n = (s.app.conn c).inputBuffer_.bytes.length) : Own s' l g := by
  have hserves := hi.serves hg
  have hsock : s'.net.socket c = s.net.socket c := h.socket_of_ne ht fun hp => by cases hp
  have hcb : s'.callback l = .done := by
    rw [h.callback_other ht (fun hp => by cases hp) (fun d hp => by cases hp), he]
  cases h.conn c with
  | @piece j io evs next rest' hj hch hr hlog hs' =>
      obtain ⟨hpj, hrest'⟩ := List.cons.inj (ht.symm.trans hj)
      cases hpj
      obtain ⟨hx, rfl, rfl⟩ := connRuns_retrieves hr
      have hA : acceptedBytes (s'.app.log c) = acceptedBytes (s.app.log c) := by
        rw [hlog, acceptedBytes_of_messages rfl]
      have hstate : (s'.app.conn c).state_ = (s.app.conn c).state_ := by rw [hx]
      refine hi.own_turn (o := none) h ht hserves.loop
        (fun _ _ hd => by rw [hg] at hd; cases hd; rfl) (fun _ _ hd => by cases hd) ?_
        ⟨?_, ?_⟩ (by rw [hsock, hA]; exact hi.streams.first c)
        (by rw [hstate]; exact hi.streams.state c)
      · rw [hcb, hs', Config.resume_stack_self, ← hrest']
        refine .idle fun b hb => ?_
        rcases List.mem_cons.mp hb with rfl | hb
        · exact quiet_user
        · exact hrest b hb
      · rw [hx, WfBuffer.retrieve_bytes, hn, List.drop_length]
      · rw [hstate, hsock, hA]
        exact hi.streams.on l c false hg
  | idle _ _ hcode => exact absurd ht (hcode _ _)
  | new hc => exact absurd hserves.est.1 (hc ▸ Nat.lt_irrefl _)

end Callback

/-! ## Along a run -/

/-- What every step of the server and of its peers keeps. -/
structure Echoing (s : EchoServer) : Prop where
  users : ∀ n, ∀ f ∈ s.net.server.stack (.user n), Quiet f
  queues : ∀ l, ∀ q ∈ (s.net.server.shared.loop l).pendingFunctors_, Quiet q.2
  inside : ∃ g, Inside s g
  sent : ∀ c, (s.net.socket c).sent = (s.net.socket c).appended ++ (s.net.socket c).unread

section Run

variable {s s' : EchoServer} {t : ThreadId} {ch : Choice Code (Io (List (Int × EpollMask)))}
  {f : Frame Code} {rest next : List (Frame Code)}

theorem Step.sent (h : Step s s' t ch)
    (hs : (s.net.socket c).sent = (s.net.socket c).appended ++ (s.net.socket c).unread) :
    (s'.net.socket c).sent = (s'.net.socket c).appended ++ (s'.net.socket c).unread := by
  rcases Peered.sockets_eq s.net s'.net.server t ch with he | ⟨d, rest, b, ht, rfl, he⟩
  · rw [h.socket, he]
    exact hs
  · by_cases hcd : c = d
    · subst hcd
      obtain ⟨hR, hunread, hsent⟩ := h.read ht
      rw [hsent, hs, hR, hunread, List.append_assoc]
    · rw [h.socket, he, Function.update_of_ne hcd]
      exact hs

/-- User code that is in no message callback calls nothing. -/
theorem Step.no_call (h : Step s s' t ch) (ht : s.net.server.stack t = .user :: rest)
    (he : ∀ l, t = .loop l → s.callback l = .done) : ∀ a, ch ≠ .call a := by
  rintro a rfl
  have hallow := h.allowed
  unfold allows at hallow
  rw [ht] at hallow
  cases t with
  | user n => cases hallow
  | loop l =>
      have hgoes : s.goesOn l (.call a) = true := hallow
      unfold goesOn at hgoes
      rw [he l rfl] at hgoes
      cases hgoes

/-- A quiet frame leaves quiet frames. -/
theorem Step.quiet (h : Step s s' t ch) (ht : s.net.server.stack t = f :: rest) (hf : Quiet f)
    (he : ∀ l, t = .loop l → s.callback l = .done)
    (hq : ∀ l, ∀ q ∈ (s.net.server.shared.loop l).pendingFunctors_, Quiet q.2) :
    (∃ next, s'.net.server.stack t = next ++ rest ∧ ∀ b ∈ next, Quiet b) ∧
      ∀ l, ∀ q ∈ (s'.net.server.shared.loop l).pendingFunctors_, Quiet q.2 := by
  obtain ⟨f', rest', y, next, hf', hruns, hs'⟩ := step_runs h.ran
  obtain ⟨rfl, rfl⟩ := List.cons.inj (ht.symm.trans hf')
  have hcall : ∀ a, ch ≠ .call a := by
    by_cases huser : f = .user
    · exact h.no_call (by rw [ht, huser]) he
    · rintro a rfl
      cases hruns
      exact huser rfl
  obtain ⟨hnext, hqueues⟩ := frame_quiet hruns hf hcall hq
  rw [hs']
  exact ⟨⟨next, Config.resume_stack_self .., hnext⟩, hqueues⟩

/-- A piece is on its connection's loop. -/
theorem Step.mine (h : Step s s' t ch) (hE : Echoing s) {k : ConnCode}
    (ht : s.net.server.stack t = piece c k :: rest) : t = .loop (s.app.conn c).loop_ := by
  have hquiet : (∀ b ∈ piece c k :: rest, Quiet b) → t = .loop (s.app.conn c).loop_ := fun hq =>
    (h.thread ht (hq _ List.mem_cons_self c k rfl)).1
  obtain ⟨g, hi⟩ := hE.inside
  cases t with
  | user n => exact hquiet fun b hb => hE.users n b (by rw [ht]; exact hb)
  | loop l =>
      have hst := hi.stages l
      rw [ht] at hst
      generalize hstack : piece c k :: rest = st at hst
      generalize s.callback l = e at hst
      generalize g l = o at hst
      cases hst with
      | idle hq => exact hquiet fun b hb => hq b (by rw [← hstack]; exact hb)
      | begun => cases hstack
      | sending hc =>
          cases hstack
          rw [hc.loop]
      | @sent d fs rest' hc _ hfs =>
          cases fs with
          | nil => cases hstack
          | cons b fs =>
              obtain ⟨rfl, _⟩ := List.cons.inj hstack
              rcases hfs _ List.mem_cons_self with hb | hb
              · cases hb
              · cases hb
                rw [hc.loop]
      | retrieving hc =>
          cases hstack
          rw [hc.loop]

/-- A step of loop `l`'s thread. -/
theorem Inside.own (hi : Inside s g) (h : Step s s' (.loop l) ch)
    (hq : ∀ l, ∀ q ∈ (s.net.server.shared.loop l).pendingFunctors_, Quiet q.2) :
    Own s' l g ∧ ∀ l, ∀ q ∈ (s'.net.server.shared.loop l).pendingFunctors_, Quiet q.2 := by
  obtain ⟨f, rest, y, next, ht, hruns, hs'⟩ := step_runs h.ran
  have hst := hi.stages l
  -- user code that calls, and pieces, leave the queues alone
  have hkeep : (f = .user ∨ ∃ a, f = .code a) →
      ∀ l, ∀ q ∈ (s'.net.server.shared.loop l).pendingFunctors_, Quiet q.2 := by
    rintro (rfl | ⟨a, rfl⟩) <;> rw [hs'] <;> cases hruns <;> exact hq
  rw [ht] at hst
  generalize hstack : f :: rest = st at hst
  generalize he : s.callback l = e at hst
  generalize hg : g l = o at hst
  cases hst with
  | idle hquiet =>
      have hall : ∀ b ∈ f :: rest, Quiet b := fun b hb => hquiet b (by rw [← hstack]; exact hb)
      have hf := hall f List.mem_cons_self
      obtain ⟨⟨next', ht', hnext⟩, hqueues⟩ := h.quiet ht hf (fun j hj => by cases hj; exact he) hq
      exact ⟨hi.own_idle h ht ht' hg he hf (fun b hb => hall b (List.mem_cons_of_mem _ hb)) hnext,
        hqueues⟩
  | begun hc hrest =>
      cases hstack
      exact ⟨hi.own_begun h ht hg he hrest, hkeep (.inl rfl)⟩
  | sending hc hrest hk hm =>
      cases hstack
      exact ⟨hi.own_sending h ht hg he hrest hk hm, hkeep (.inr ⟨_, rfl⟩)⟩
  | @sent c fs rest' hc hrest hfs =>
      rw [hstack] at ht
      refine ⟨hi.own_sent h ht hg he hrest hfs, hkeep ?_⟩
      cases fs with
      | nil => exact .inl (List.cons.inj hstack).1
      | cons b fs =>
          have hb := hfs b List.mem_cons_self
          rw [← (List.cons.inj hstack).1] at hb
          rcases hb with hb | hb <;> exact .inr ⟨_, hb⟩
  | retrieving hc hrest hn =>
      cases hstack
      exact ⟨hi.own_retrieving h ht hg he hrest hn, hkeep (.inr ⟨_, rfl⟩)⟩

/-- The other loops are where they were. -/
theorem Inside.stage_other (hi : Inside s g) (hE : Echoing s) (h : Step s s' t ch) {j : LoopId}
    (hj : t ≠ .loop j) : Stage s'.app j (s'.callback j) (s'.net.server.stack (.loop j)) (g j) := by
  obtain ⟨f, rest, y, next, ht, hruns, hs'⟩ := step_runs h.ran
  have hstack : s'.net.server.stack (.loop j) = s.net.server.stack (.loop j) := by
    rw [hs', Config.resume_stack_of_ne _ (Ne.symm hj)]
  rw [hstack, h.callback_of_ne hj]
  refine (hi.stages j).keep h.extends fun c hc => (hi.same h ht fun k hf => hj ?_).input
  rw [hf] at ht
  rw [h.mine hE ht, hc.loop]

theorem Echoing.run (hE : Echoing s) (h : Step s s' t ch) : Echoing s' := by
  obtain ⟨g, hi⟩ := hE.inside
  have hsent := fun c => h.sent (hE.sent c)
  obtain ⟨f, rest, y, next, ht, hruns, hs'⟩ := step_runs h.ran
  cases t with
  | user n =>
      have hall : ∀ b ∈ f :: rest, Quiet b := fun b hb => hE.users n b (by rw [ht]; exact hb)
      obtain ⟨⟨next', ht', hnext⟩, hqueues⟩ :=
        h.quiet ht (hall f List.mem_cons_self) (fun l hl => by cases hl) hE.queues
      refine ⟨fun m b hb => ?_, hqueues, ⟨g, fun j => ?_, ?_⟩, hsent⟩
      · by_cases hm : m = n
        · subst hm
          rw [ht'] at hb
          exact (List.mem_append.mp hb).elim (hnext b) fun hb => hall b (List.mem_cons_of_mem _ hb)
        · rw [hs', Config.resume_stack_of_ne _ fun he => hm (ThreadId.user.inj he)] at hb
          exact hE.users m b hb
      · exact hi.stage_other hE h fun hj => by cases hj
      · refine hi.streams.keep fun c => hi.same h ht fun k hf => ?_
        rw [hf] at ht
        cases h.mine hE ht
  | loop l =>
      obtain ⟨⟨o, hst, hstreams⟩, hqueues⟩ := hi.own h hE.queues
      refine ⟨fun m b hb => ?_, hqueues, ⟨Function.update g l o, fun j => ?_, hstreams⟩, hsent⟩
      · rw [hs', Config.resume_stack_of_ne _ fun he => by cases he] at hb
        exact hE.users m b hb
      · by_cases hj : j = l
        · subst hj
          rw [Function.update_self]
          exact hst
        · rw [Function.update_of_ne hj]
          exact hi.stage_other hE h fun hl => hj (ThreadId.loop.inj hl).symm

end Run

/-- A peer's step leaves what was read as it is. -/
theorem Echoing.peer {s : EchoServer} (hE : Echoing s) {d : ConnId} {k : PeerSocket}
    (hk : (s.net.socket d).Acts k) : Echoing { s with net := s.net.setSocket d k } := by
  obtain ⟨g, hi⟩ := hE.inside
  refine ⟨hE.users, hE.queues, ⟨g, hi.stages, hi.streams.keep fun c => ⟨rfl, rfl, rfl, ?_⟩⟩, ?_⟩
  · exact Peered.forall_socket (R := fun c k => k.appended = (s.net.socket c).appended)
      hk.appended (fun _ => rfl) c
  · exact Peered.forall_socket (R := fun _ k => k.sent = k.appended ++ k.unread)
      (hk.stream (hE.sent d)) hE.sent

theorem echoing_started :
    Echoing ⟨⟨TcpServer.started epollPoller, fun _ => {}⟩, fun _ => .done⟩ := by
  have hquiet : ∀ t, ∀ f ∈ (TcpServer.started epollPoller).stack t, Quiet f := by
    intro t f hf
    rcases started_cases hf with ⟨l, rfl⟩ | rfl | rfl <;> exact fun _ _ h => by cases h
  refine ⟨fun n => hquiet _, fun l q hq => (by cases hq), ⟨fun _ => none, fun l => ?_, ?_⟩,
    fun _ => rfl⟩
  · exact .idle (hquiet _)
  · exact ⟨fun l c b hg => (by cases hg), fun c _ => ⟨WfBuffer.new_bytes, fun _ => rfl⟩,
      fun c => List.prefix_rfl, fun c hs => by cases hs⟩

theorem step_run {s s' : EchoServer} {t : ThreadId}
    {ch : Choice Code (Io (List (Int × EpollMask)))}
    (hr : (TcpServer.lts config epollPoller).Reach s.net.server)
    (h : lts.step s (.run t ch) = some s') : Step s s' t ch := by
  simp only [lts, step] at h
  split at h
  · next hallow =>
      obtain ⟨net, hnet, rfl⟩ := Option.map_eq_some_iff.mp h
      obtain ⟨hag, hran, hsock⟩ := Peered.step_run hnet
      exact ⟨hr, hallow, hag, hran, hsock, rfl⟩
  · cases h

theorem step_peer {s s' : EchoServer} {a : PeerStep} (h : lts.step s a = some s')
    (ha : ∀ t ch, a ≠ .run t ch) :
    ∃ c k, (s.net.socket c).Acts k ∧ s' = { s with net := s.net.setSocket c k } := by
  obtain ⟨net, hnet, rfl⟩ : ∃ net, (Peered.lts config).step s.net a = some net ∧
      { s with net } = s' := by
    cases a with
    | run t ch => exact absurd rfl (ha t ch)
    | _ => exact Option.map_eq_some_iff.mp h
  obtain ⟨c, k, hk, rfl⟩ := Peered.step_peer hnet ha
  exact ⟨c, k, hk, rfl⟩

theorem echoing {s : EchoServer} (h : lts.Reach s) :
    (TcpServer.lts config epollPoller).Reach s.net.server ∧ Echoing s := by
  refine Lts.ReachIf.inv_of
    (I := fun s => (TcpServer.lts config epollPoller).Reach s.net.server ∧ Echoing s)
    (fun _ hr => hr) (fun s hs => ?_) (fun s a s' _ hI _ hs => ?_) h
  · rw [show s = _ from hs]
    exact ⟨.init rfl, echoing_started⟩
  · obtain ⟨hr, hE⟩ := hI
    cases a with
    | run t ch =>
        have hstep := step_run hr hs
        exact ⟨hr.step hstep.ran, hE.run hstep⟩
    | _ =>
        obtain ⟨c, k, hk, rfl⟩ := step_peer hs (by simp)
        exact ⟨hr, hE.peer hk⟩

/-- What goes back is the beginning of what was read. -/
theorem sentBytes_appended {s : EchoServer} (h : lts.Reach s) (c : ConnId) :
    sentBytes (s.app.log c) <+: (s.net.socket c).appended := by
  obtain ⟨hr, hE⟩ := echoing h
  obtain ⟨g, hi⟩ := hE.inside
  have hfirst : sentBytes (s.app.log c) <+: acceptedBytes (s.app.log c) :=
    ⟨(s.app.conn c).outputBuffer_.bytes, conserved hr c⟩
  exact hfirst.trans (hi.streams.first c)

/-- Between two dispatches the loop of a connection is in no callback of it. -/
theorem Echoing.between {s : EchoServer} (hE : Echoing s) {f : Frame Code}
    {rest : List (Frame Code)}
    (ht : s.net.server.stack (.loop (s.app.conn c).loop_) = f :: rest) (hf : turns f = true) :
    Stream s.app s.net.socket c none := by
  obtain ⟨g, hi⟩ := hE.inside
  refine hi.off rfl ?_
  have hst := hi.stages (s.app.conn c).loop_
  rw [ht] at hst
  generalize hstack : f :: rest = st at hst
  generalize s.callback _ = e at hst
  generalize g _ = o at hst ⊢
  have hfirst : ∀ {b : Frame Code} {bs : List (Frame Code)}, f :: rest = b :: bs →
      turns b = true := fun he => (List.cons.inj he).1 ▸ hf
  cases hst with
  | idle => rfl
  | begun | sending | retrieving => cases hfirst hstack
  | @sent d fs rest' _ _ hfs =>
      cases fs with
      | nil => cases hfirst hstack
      | cons b fs => rcases hfs b List.mem_cons_self with rfl | rfl <;> cases hfirst hstack

/-- Connection 0 of loop 1 is up, and its peer has sent two bytes. -/
def greeted : List PeerStep :=
  Peered.serverSteps (listening [] ++ [(.loop 0, .poll (.poller [(-1, { epollin := true })]) 0),
      (.loop 0, .app .none), (.loop 0, .app (.accepted (some 7))), (.loop 0, .app .none),
      (.loop 0, .go), (.loop 0, .go), (.loop 0, .moved 8), (.loop 1, .go), (.loop 1, .go),
      (.loop 1, .go), (.loop 1, .poll (.poller []) 0), (.loop 1, .moved 8), (.loop 1, .go),
      (.loop 1, .go), (.loop 1, .app .none), (.loop 1, .app (.poller [])),
      (.loop 1, .app .none), (.loop 1, .ret), (.loop 1, .go)]) ++ [.send 0 [104, 105]]

/-- Both are read and sent back, of which the kernel takes one. -/
def answered : List PeerStep :=
  Peered.serverSteps [(.loop 1, .poll (.poller [(7, { epollin := true })]) 0),
    (.loop 1, .app .none), (.loop 1, .app (.received (.bytes [104, 105]))),
    (.loop 1, .call (.conn 0 (.send ⟨.loop 1, ⟨[104, 105], by decide⟩⟩))),
    (.loop 1, .app .none), (.loop 1, .app (.sent (some 1))), (.loop 1, .app (.poller [])),
    (.loop 1, .call (.conn 0 (.retrieveInput 2))), (.loop 1, .app .none), (.loop 1, .ret),
    (.loop 1, .go), (.loop 1, .go)]

/-- What the server sends to a peer is what the peer sent, from the first byte
on. While the connection is up and its loop waits in `poll`, what has not gone
back is in the output buffer or was not read yet. -/
theorem echoes {s : EchoServer} (h : lts.Reach s) (c : ConnId) :
    sentBytes (s.app.log c) <+: (s.net.socket c).sent ∧
      ((s.net.server.stack (.loop (s.app.conn c).loop_)).head? =
          some (.poll (s.app.conn c).loop_) →
        (s.app.conn c).state_ = .kConnected →
        (s.net.socket c).sent = sentBytes (s.app.log c) ++
          (s.app.conn c).outputBuffer_.bytes ++ (s.net.socket c).unread) := by
  obtain ⟨hr, hE⟩ := echoing h
  have hsent := hE.sent c
  refine ⟨?_, fun hpoll hstate => ?_⟩
  · rw [hsent]
    exact (sentBytes_appended h c).trans (List.prefix_append _ _)
  · obtain ⟨rest, ht⟩ := List.head?_eq_some_iff.mp hpoll
    obtain ⟨_, hstream⟩ := hE.between ht rfl
    have hout : sentBytes (s.app.log c) ++ _ = _ := conserved hr c
    rw [hsent, hstream (by rw [hstate]; exact fun hd => by cases hd), ← hout]

/-- The peer sends two bytes, of which one goes back at once. -/
theorem echoes_hi : ∃ s : EchoServer, (s.net.socket 0).sent = [104, 105] ∧
    sentBytes (s.app.log 0) = [104] ∧
    (s.net.socket 0).sent = sentBytes (s.app.log 0) ++ (s.app.conn 0).outputBuffer_.bytes ++
      (s.net.socket 0).unread := by
  obtain ⟨s, hs, hp⟩ := Lts.exists_reach lts (greeted ++ answered)
    (fun s => decide ((s.net.socket 0).sent = [104, 105] ∧ sentBytes (s.app.log 0) = [104] ∧
      (s.app.conn 0).loop_ = 1 ∧ (s.app.conn 0).state_ = .kConnected ∧
      (s.net.server.stack (.loop 1)).head? = some (.poll 1))) rfl (by decide +kernel)
  obtain ⟨hsent, hout, hloop, hstate, hpoll⟩ := of_decide_eq_true hp
  refine ⟨s, hsent, hout, (echoes hs 0).2 ?_ hstate⟩
  rw [hloop]
  exact hpoll

end EchoServer

end Muduox.Net
