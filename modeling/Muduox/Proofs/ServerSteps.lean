import Muduox.Proofs.ConnectionSteps
import Muduox.Proofs.ReactorRules

/-!
# The server as an application, and what its code does

`TcpServer.Runs` lists the ways a piece of server code can go; for a piece of a
connection that is the connection's own `Runs`. From it follows that the server
only ever leaves plain code to run, which makes it an application of the
reactor (`app`), and `started` is the reactor `TcpServer::start()` returns with.
-/

namespace Muduox.Net

namespace TcpServer

open Threads

variable {P E : Type} {cfg : ServerConfig} {poller : Poller P E}

/-- Piece by piece, what thread `t` does to the server `s`. -/
inductive Runs (cfg : ServerConfig) (poller : Poller P E) (t : ThreadId) (s : TcpServer P) :
    Code → Io E → TcpServer P → List (Frame Code) → Prop
  | conn {c : ConnId} {k : ConnCode} {io : Io E} {x : TcpConnection} {evs : List Event}
      {next : List (Frame Code)} (h : (s.conn c).Runs c t k io x evs next) :
      Runs cfg poller t s (.conn c k) io (s.setConn c k ⟨x, evs, next⟩) next
  | handleEvent {ch : ChannelId} :
      Runs cfg poller t s (.handleEvent ch) .none (s.handleEvent ch).1 (s.handleEvent ch).2
  | update {ch : ChannelId} {e : E} {p : P}
      (h : poller.updateChannel (s.poller (s.ownerLoop ch)) ch (s.channel ch) e = some p) :
      Runs cfg poller t s (.update ch) (.poller e)
        (s.setPoller (s.ownerLoop ch) p) []
  | remove {ch : ChannelId} {p : P}
      (h : poller.removeChannel (s.poller (s.ownerLoop ch)) ch (s.channel ch) = some p) :
      Runs cfg poller t s (.remove ch) .none
        (s.setPoller (s.ownerLoop ch) p) []
  | listen (ht : t = .loop acceptLoop) : Runs cfg poller t s .listen .none s.listen.1 s.listen.2
  | acceptFailed : Runs cfg poller t s .acceptorHandleRead (.accepted none) s []
  | accept {fd : Int} :
      Runs cfg poller t s .acceptorHandleRead (.accepted (some fd)) s
        [.code (.newConnection fd)]
  | newConnection {fd : Int} (ht : t = .loop acceptLoop) :
      Runs cfg poller t s (.newConnection fd) .none (newConnection cfg s fd).1
        (newConnection cfg s fd).2
  | removeConnection {c : ConnId} :
      Runs cfg poller t s (.removeConnection c) .none s
        [.runInLoop acceptLoop (.code (.removeConnectionInLoop c))]
  | removeConnectionInLoop {c : ConnId} (ht : t = .loop acceptLoop) :
      Runs cfg poller t s (.removeConnectionInLoop c) .none (s.removeConnectionInLoop c).1
        (s.removeConnectionInLoop c).2

theorem exec_runs {t : ThreadId} {a : Code} {io : Io E} {s s' : TcpServer P}
    {next : List (Frame Code)} (h : exec cfg poller t a io s = some (s', next)) :
    Runs cfg poller t s a io s' next := by
  unfold exec at h
  split at h
  case h_1 c k io =>
    obtain ⟨o, ho, he⟩ := Option.map_eq_some_iff.mp h
    cases he
    exact .conn (TcpConnection.exec_runs ho)
  case h_2 ch => cases h; exact .handleEvent
  case h_3 ch e =>
    obtain ⟨p, hp, he⟩ := Option.map_eq_some_iff.mp h
    cases he
    exact .update hp
  case h_4 ch =>
    obtain ⟨p, hp, he⟩ := Option.map_eq_some_iff.mp h
    cases he
    exact .remove hp
  case h_5 =>
    split at h
    · next ht => cases h; exact .listen ht
    · cases h
  case h_6 connfd =>
    cases h
    cases connfd with
    | none => exact .acceptFailed
    | some fd => exact .accept
  case h_7 fd =>
    split at h
    · next ht =>
        rw [Option.some.injEq] at h
        rw [show s' = (newConnection cfg s fd).1 by rw [h],
          show next = (newConnection cfg s fd).2 by rw [h]]
        exact .newConnection ht
    · cases h
  case h_8 c => cases h; exact .removeConnection
  case h_9 c =>
    split at h
    · next ht =>
        rw [Option.some.injEq] at h
        rw [show s' = (s.removeConnectionInLoop c).1 by rw [h],
          show next = (s.removeConnectionInLoop c).2 by rw [h]]
        exact .removeConnectionInLoop ht
    · cases h
  case h_10 => cases h

section Fields

variable (s : TcpServer P) (l : LoopId) (p : P) (c : ConnId) (k : ConnCode)
  (o : TcpConnection.Outcome)

@[simp] theorem setPoller_poller_self : (s.setPoller l p).poller l = p := Function.update_self ..

theorem setPoller_poller_of_ne {j : LoopId} (h : j ≠ l) :
    (s.setPoller l p).poller j = s.poller j := Function.update_of_ne h ..

@[simp] theorem setConn_conn_self : (s.setConn c k o).conn c = o.conn := Function.update_self ..

theorem setConn_conn_of_ne {d : ConnId} (h : d ≠ c) : (s.setConn c k o).conn d = s.conn d :=
  Function.update_of_ne h ..

@[simp] theorem setConn_log_self :
    (s.setConn c k o).log c = s.log c ++ .ran k :: o.events := Function.update_self ..

theorem setConn_log_of_ne {d : ConnId} (h : d ≠ c) : (s.setConn c k o).log d = s.log d :=
  Function.update_of_ne h ..

end Fields

section Left

variable {s : TcpServer P} {c : ConnId} {g : Frame Code}

/-- What a connection's channel dispatches: a handler for each event that is set. -/
theorem mem_handlers {r : Events} {a : Code} : a ∈ handlers (.conn c) r ↔
    r.error = true ∧ a = .conn c .handleError ∨ r.close = true ∧ a = .conn c .handleClose ∨
      r.read = true ∧ a = .conn c .handleRead ∨ r.write = true ∧ a = .conn c .handleWrite := by
  simp only [handlers, List.mem_append, List.mem_ite_nil_right, List.mem_singleton, or_assoc]

theorem mem_handleEvent {ch : ChannelId} (h : g ∈ (s.handleEvent ch).2) :
    ch = .acceptor ∧ g = .code .acceptorHandleRead ∨
      ∃ c k, ch = .conn c ∧ g = TcpConnection.piece c k ∧
        ((s.conn c).channel_.revents_.error = true ∧ k = .handleError ∨
          (s.conn c).channel_.revents_.close = true ∧ k = .handleClose ∨
          (s.conn c).channel_.revents_.read = true ∧ k = .handleRead ∨
          (s.conn c).channel_.revents_.write = true ∧ k = .handleWrite) := by
  obtain ⟨b, hb, rfl⟩ := List.mem_map.mp h
  cases ch with
  | acceptor =>
      rw [handlers, List.mem_ite_nil_right, List.mem_singleton] at hb
      exact .inl ⟨rfl, by rw [hb.2]⟩
  | conn c =>
      refine .inr ⟨c, ?_⟩
      rcases mem_handlers.mp hb with ⟨hr, rfl⟩ | ⟨hr, rfl⟩ | ⟨hr, rfl⟩ | ⟨hr, rfl⟩
      · exact ⟨_, rfl, rfl, .inl ⟨hr, rfl⟩⟩
      · exact ⟨_, rfl, rfl, .inr (.inl ⟨hr, rfl⟩)⟩
      · exact ⟨_, rfl, rfl, .inr (.inr (.inl ⟨hr, rfl⟩))⟩
      · exact ⟨_, rfl, rfl, .inr (.inr (.inr ⟨hr, rfl⟩))⟩

theorem mem_removeConnectionInLoop (h : g ∈ (s.removeConnectionInLoop c).2) :
    g = .queueInLoop (s.conn c).loop_ (TcpConnection.piece c .connectDestroyed) := by
  unfold TcpServer.removeConnectionInLoop at h
  dsimp only at h
  split at h
  · exact List.mem_singleton.mp h
  · cases h

end Left

theorem connRuns_plain {c : ConnId} {t : ThreadId} {x x' : TcpConnection} {k : ConnCode}
    {io : Io E} {evs : List Event} {next : List (Frame Code)}
    (h : x.Runs c t k io x' evs next) : ∀ f ∈ next, f.plain = true := by
  cases h <;>
    simp [Frame.plain, TcpConnection.updateUnlessWriting, TcpConnection.piece,
      TcpConnection.update]

theorem runs_plain {t : ThreadId} {a : Code} {io : Io E} {s s' : TcpServer P}
    {next : List (Frame Code)} (h : Runs cfg poller t s a io s' next) :
    ∀ f ∈ next, f.plain = true := by
  cases h with
  | conn h => exact connRuns_plain h
  | handleEvent =>
      intro f hf
      obtain ⟨a, _, rfl⟩ := List.mem_map.mp hf
      rfl
  | removeConnectionInLoop =>
      intro f hf
      rw [mem_removeConnectionInLoop hf]
      rfl
  | _ => simp [Frame.plain, TcpServer.listen, TcpServer.newConnection]

/-- The server as an application of the reactor. -/
def app (cfg : ServerConfig) (poller : Poller P E) : App Code (Io E) (TcpServer P) where
  exec := exec cfg poller
  api := api
  poll := poll poller
  exec_plain h := runs_plain (exec_runs h)

abbrev State (P : Type) := Config ThreadId (Frame Code) (Reactor Code (TcpServer P))

/-- The server after `start()`: the loops are about to run, `listen` is on its
way to the accept loop, and every other thread runs user code. -/
def started (poller : Poller P E) : State P where
  shared := ⟨fun _ => {}, { poller := fun _ => poller.new }⟩
  stack
    | .loop l => [.loop l]
    | .user 0 => [.runInLoop acceptLoop (.code .listen), .user]
    | .user (_ + 1) => [.user]

/-- The runs of a started server. -/
def lts (cfg : ServerConfig) (poller : Poller P E) :
    Lts (State P) (ThreadId × Choice Code (Io E)) :=
  Reactor.lts (app cfg poller) (· = started poller)

theorem started_init : Reactor.Init (started poller) := by
  refine ⟨fun _ => rfl, fun l f hf => .inr (List.mem_singleton.mp hf), fun n f hf => ?_⟩
  cases n with
  | zero =>
      simp only [started, List.mem_cons, List.not_mem_nil, or_false] at hf
      rcases hf with rfl | rfl <;> rfl
  | succ n =>
      rw [List.mem_singleton.mp hf]
      rfl

/-- The frames there are when `start()` returns. -/
theorem started_cases {t : ThreadId} {f : Frame Code} (hf : f ∈ (started poller).stack t) :
    (∃ l, f = .loop l) ∨ f = .runInLoop acceptLoop (.code .listen) ∨ f = .user := by
  match t with
  | .loop l => exact .inl ⟨l, List.mem_singleton.mp hf⟩
  | .user 0 =>
      simp only [started, List.mem_cons, List.not_mem_nil, or_false] at hf
      exact .inr hf
  | .user (_ + 1) => exact .inr (.inr (List.mem_singleton.mp hf))

/-- All the code there is when `start()` returns. -/
theorem started_dest {t : ThreadId} {f : Frame Code} (hf : f ∈ (started poller).stack t) :
    ∀ p ∈ f.dest t, p = (.loop acceptLoop, .listen) := by
  intro p hp
  rcases started_cases hf with ⟨l, rfl⟩ | rfl | rfl
  · cases hp
  · cases hp
    rfl
  · cases hp

/-- A piece that has an outcome may be run. -/
theorem piece_step {s : State P} {c : ConnId} {k : ConnCode} {t : ThreadId} {io : Io E}
    {rest : List (Frame Code)} {o : TcpConnection.Outcome}
    (ht : s.stack t = TcpConnection.piece c k :: rest)
    (ho : (s.shared.app.conn c).exec c t cfg.platform k io = some o) :
    (lts cfg poller).step s (t, .app io) = some (s.resume t
      { s.shared with app := s.shared.app.setConn c k o } o.next rest) := by
  refine Code.step_eq_some.mpr ⟨_, _, _, _, ht, ?_, rfl⟩
  have hexec : (app cfg poller).exec t (.conn c k) io s.shared.app =
      some (s.shared.app.setConn c k o, o.next) := by
    show ((s.shared.app.conn c).exec c t cfg.platform k io).map _ = _
    rw [ho]
    rfl
  show Reactor.exec (app cfg poller) t (.code (.conn c k)) (.app io) s.shared = _
  rw [Reactor.exec, hexec]

/-- The invariant rule for a started server; each step may use all that is known
of the runs that lead to it. -/
theorem run_inv {C : State P → ThreadId × Choice Code (Io E) → Prop} {I : State P → Prop}
    {s : State P} (h : (lts cfg poller).ReachIf C s) (hinit : I (started poller))
    (hstep : ∀ {s b s'}, (lts cfg poller).ReachIf C s → I s → C s b →
      (lts cfg poller).step s b = some s' → I s') : I s :=
  Lts.ReachIf.inv_of (I := I) (fun _ hr => hr)
    (fun s hs => by rw [show s = started poller from hs]; exact hinit)
    (fun _ _ _ hr hI hc hs => hstep hr hI hc hs) h

theorem sound {C : State P → ThreadId × Choice Code (Io E) → Prop} {s : State P}
    (h : (lts cfg poller).ReachIf C s) : Reactor.Sound s :=
  Reactor.sound_of_reachIf (fun _ hs => hs ▸ started_init) h

end TcpServer

end Muduox.Net
