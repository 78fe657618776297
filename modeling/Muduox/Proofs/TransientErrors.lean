import Muduox.Proofs.CallbackProtocol
import Muduox.Proofs.DispatchOrder
import Muduox.Proofs.OutputStream
import Muduox.Proofs.StateOrder

/-!
# Errors that pass

A socket call that fails with `EAGAIN` or `EINTR` is to be made again later. The
direct send in `sendInLoop` sees it so: what it could not send it queues. The
send in `handleWrite` and the read in `handleRead` do not look at the error, and
call `handleError`, which closes the connection. So a connection outlives its
transient errors exactly as long as they meet neither of the two (`Steady`).
Then nothing disconnects it: the pieces that do (`disconnects`) are reached from
each other, from an event that reports it, and from these two results.

What is read is recorded beside the run, as is what the user takes out of the
input buffer.
-/

namespace Muduox.Net

/-- `EAGAIN`, which is `EWOULDBLOCK`, and `EINTR`. -/
def transientErrnos : Platform → List Int
  | .linux => [11, 4]
  | .windows => [10035, 10004]

/-- A positive count, or a transient error. -/
def RecvResult.transient (pl : Platform) : RecvResult → Bool
  | .bytes d => d != []
  | .error savedErrno => savedErrno ∈ transientErrnos pl

/-- The pieces that end a connection, or come to. -/
def ConnCode.disconnects : ConnCode → Bool
  | .handleClose | .handleError | .forceClose | .forceCloseIfDisconnecting | .storeForceClose => true
  | _ => false

/-- What was read into an input buffer, and what was taken out of it. -/
structure InputRecord where
  received : List UInt8 := []
  retrieved : List UInt8 := []

namespace TcpServer

open Threads Reactor TcpConnection

variable {P E : Type} {cfg : ServerConfig} {poller : Poller P E}

/-- On connection `c`, every call of `readv` or `send` returns a positive count
or fails for the time being, no error or close event is reported, and
`forceClose` is not called. -/
def Transient (cfg : ServerConfig) (poller : Poller P E) (c : ConnId) (s : State P) :
    ThreadId × Choice Code (Io E) → Prop
  | (t, ch) =>
      match (s.stack t).head?, ch with
      | _, .call a => a ≠ .conn c .forceClose
      | some (.poll l), .poll io _ => ∀ r ∈ poll poller l io s.shared.app,
          (r.1.conn c).channel_.revents_.error = false ∧
            (r.1.conn c).channel_.revents_.close = false
      | some (.code (.conn d .handleRead)), .app (.received r) =>
          d = c → r.transient cfg.platform = true
      | some (.code (.conn d .handleWrite)), .app (.sent r) => d = c → r ≠ some 0
      | _, _ => True

/-- No call of `readv` in `handleRead` fails, and none of `send` in
`handleWrite`. -/
def Steady (c : ConnId) (s : State P) : ThreadId × Choice Code (Io E) → Prop
  | (t, ch) =>
      match (s.stack t).head?, ch with
      | some (.code (.conn d .handleRead)), .app (.received r) => d = c → 0 ≤ Buffer.returned r
      | some (.code (.conn d .handleWrite)), .app (.sent r) =>
          d = c → (s.shared.app.conn c).channel_.isWriting = true → r ≠ none
      | _, _ => True

instance (c : ConnId) (s : State P) (b : ThreadId × Choice Code (Io E)) :
    Decidable (Transient cfg poller c s b) := by
  obtain ⟨t, ch⟩ := b
  simp only [Transient]
  split <;> infer_instance

instance (c : ConnId) (s : State P) (b : ThreadId × Choice Code (Io E)) :
    Decidable (Steady c s b) := by
  obtain ⟨t, ch⟩ := b
  simp only [Steady]
  split <;> infer_instance

/-- What a step adds to the record. -/
def noteInput (c : ConnId) (s : State P) (b : ThreadId × Choice Code (Io E)) (g : InputRecord) :
    InputRecord :=
  match (s.stack b.1).head?, b.2 with
  | some (.code (.conn d .handleRead)), .app (.received r) =>
      if d = c then { g with received := g.received ++ Buffer.delivered r } else g
  | some (.code (.conn d (.retrieveInput n))), _ =>
      if d = c then
        { g with retrieved := g.retrieved ++ (s.shared.app.conn c).inputBuffer_.bytes.take n }
      else g
  | _, _ => g

/-- The runs of a started server, with the record of connection `c`. -/
def readLts (cfg : ServerConfig) (poller : Poller P E) (c : ConnId) :
    Lts (State P × InputRecord) (ThreadId × Choice Code (Io E)) :=
  (lts cfg poller).recording (noteInput c) {}

/-- Connection `c` is not ended, and no byte of its buffers is lost. -/
structure Unharmed (c : ConnId) (p : State P × InputRecord) : Prop where
  state : (p.1.shared.app.conn c).state_ ≠ .kDisconnected
  /-- It was told of its establishment at most. -/
  callback : (callbacks (p.1.shared.app.log c)).count .connection ≤ 1
  input : p.2.received = p.2.retrieved ++ (p.1.shared.app.conn c).inputBuffer_.bytes
  output : sentBytes (p.1.shared.app.log c) ++ (p.1.shared.app.conn c).outputBuffer_.bytes =
    acceptedBytes (p.1.shared.app.log c)

/-! ## Nothing disconnects -/

/-- The results for which a piece gives up the connection. -/
inductive Fails (x : TcpConnection) : ConnCode → Io E → Prop
  | read {r : RecvResult} (hr : Buffer.returned r ≤ 0) : Fails x .handleRead (.received r)
  | write {r : Option Nat} (hw : x.channel_.isWriting = true) (hr : r = none ∨ r = some 0) :
      Fails x .handleWrite (.sent r)

/-- The code is not a piece that disconnects connection `c`. -/
def Spares (c : ConnId) (_ : ThreadId) (a : Code) (_ : TcpServer P) : Prop :=
  ∀ k, a = .conn c k → k.disconnects = false

/-- Connection `c` is not disconnected, and no event reports that it is. -/
structure Open (c : ConnId) (x : TcpServer P) : Prop where
  error : (x.conn c).channel_.revents_.error = false
  close : (x.conn c).channel_.revents_.close = false
  state : (x.conn c).state_ ≠ .kDisconnected
  log : .ran .handleClose ∉ x.log c

section Piece

variable {c d : ConnId} {t : ThreadId} {x x' : TcpConnection} {k j : ConnCode} {io : Io E}
  {evs : List Event} {next : List (Frame Code)}

theorem connRuns_disconnects (h : x.Runs d t k io x' evs next) (hj : j.disconnects = true) :
    ∀ g ∈ next, ∀ p ∈ g.dest t, p.2 = .conn c j →
      c = d ∧ (k.disconnects = true ∨ Fails x k io) := by
  intro g hg p hp he
  cases h.leaves g hg with
  | readEof hr =>
      cases hp
      cases he
      exact ⟨rfl, .inr (.read (Int.le_of_eq hr))⟩
  | readError hr =>
      cases hp
      cases he
      exact ⟨rfl, .inr (.read (Int.le_of_lt hr))⟩
  | writeFailed hw hr =>
      cases hp
      cases he
      exact ⟨rfl, .inr (.write hw hr)⟩
  | connectionCallback hk =>
      cases hp
      cases he
      cases hj
  | storeForceClose hk =>
      cases hp
      cases he
      rcases hk with rfl | rfl <;> exact ⟨rfl, .inl rfl⟩
  | handleClose | forceCloseIfDisconnecting | forceCloseInLoop =>
      cases hp
      cases he
      exact ⟨rfl, .inl rfl⟩
  | _ => cases hp <;> cases he <;> cases hj

/-- The other pieces do not store `kDisconnected`. -/
theorem stores_kept {state : ConnState} (hk : k.disconnects = false)
    (hstate : state ≠ .kDisconnected) : k.stores.getD state ≠ .kDisconnected := by
  cases k with
  | handleClose => cases hk
  | connectEstablished | storeShutdown | storeForceClose => simp [ConnCode.stores]
  | _ => exact hstate

end Piece

section Step

variable {c : ConnId} {s s' : State P} {t : ThreadId} {ch : Choice Code (Io E)}

/-- What a piece of the server leaves spares the connection. -/
theorem runs_disconnects {a : Code} {io : Io E} {x x' : TcpServer P} {next : List (Frame Code)}
    (h : Runs cfg poller t x a io x' next) (hx : Open c x) (ha : Spares c t a x)
    (hno : ∀ k, a = .conn c k → ¬ Fails (x.conn c) k io) :
    ∀ g ∈ next, ∀ p ∈ g.dest t, Spares c p.1 p.2 x' := by
  intro g hg p hp j he
  by_contra hj
  have hj : j.disconnects = true := by simpa using hj
  cases h with
  | @conn d k _ y evs next hpiece =>
      obtain ⟨rfl, hk | hfail⟩ := connRuns_disconnects hpiece hj g hg p hp he
      · rw [ha k rfl] at hk
        cases hk
      · exact hno k rfl hfail
  | handleEvent =>
      rcases mem_handleEvent hg with ⟨_, rfl⟩ | ⟨d, i, rfl, rfl, hi⟩ <;> cases hp <;> cases he
      rcases hi with ⟨hrev, rfl⟩ | ⟨hrev, rfl⟩ | ⟨_, rfl⟩ | ⟨_, rfl⟩
      · exact absurd hrev (by simp [hx.error])
      · exact absurd hrev (by simp [hx.close])
      · cases hj
      · cases hj
  | removeConnectionInLoop =>
      rw [mem_removeConnectionInLoop hg] at hp
      cases hp
      cases he
      cases hj
  | _ =>
      simp [TcpServer.listen, TcpServer.newConnection] at hg <;> subst hg <;> cases hp <;>
        cases he <;> cases hj

/-- A step in which nothing fails for good. -/
theorem not_fails {k : ConnCode} {io : Io E} {rest : List (Frame Code)}
    (ht : s.stack t = TcpConnection.piece c k :: rest)
    (hc : Transient cfg poller c s (t, .app io) ∧ Steady c s (t, .app io)) :
    ¬ Fails (s.shared.app.conn c) k io := by
  obtain ⟨htransient, hsteady⟩ := hc
  simp only [Transient, ht, List.head?_cons] at htransient
  simp only [Steady, ht, List.head?_cons] at hsteady
  intro hfail
  cases hfail with
  | @read r hr =>
      have hpos := hsteady rfl
      have hok := htransient rfl
      cases r with
      | error e => simp [Buffer.returned] at hpos
      | bytes d =>
          have hd : d = [] := by
            simp [Buffer.returned] at hr
            exact hr
          simp [RecvResult.transient, hd] at hok
  | write hw hr =>
      rcases hr with rfl | rfl
      · exact hsteady rfl hw rfl
      · exact htransient rfl rfl

theorem open_step {C : State P → ThreadId × Choice Code (Io E) → Prop}
    (hr : (lts cfg poller).ReachIf C s) (h : AppInv (Open c) (Spares c) s)
    (hc : Transient cfg poller c s (t, ch) ∧ Steady c s (t, ch))
    (hs : (lts cfg poller).step s (t, ch) = some s') : AppInv (Open c) (Spares c) s' := by
  refine h.step hs (sound hr) (fun {a io x next rest} ht hch hx ha => ?_)
    (fun {l e place r rest} ht hch _ hx => ?_) fun {a} hch ha k hk => ?_
  · subst hch
    have hruns := exec_runs hx
    refine ⟨?_, runs_disconnects hruns h.app ha fun k hk => ?_, fun _ _ => id⟩
    · have hrev := runs_revents hruns (c := c)
      have hlog : .ran .handleClose ∉ x.log c := by
        intro hmem
        rcases runs_mem_ran hruns hmem with hold | rfl
        · exact h.app.log hold
        · exact absurd (ha _ rfl) (by decide)
      refine ⟨?_, ?_, ?_, hlog⟩
      · rcases hrev with he | he <;> rw [he]
        · exact h.app.error
        · rfl
      · rcases hrev with he | he <;> rw [he]
        · exact h.app.close
        · rfl
      · cases runs_touches hruns c with
        | @piece k io evs next hpiece =>
            rw [connRuns_state hpiece]
            exact stores_kept (ha k rfl) h.app.state
        | idle _ hi =>
            obtain ⟨_, he⟩ := hi.conn
            rw [he]
            exact h.app.state
        | new _ hnew =>
            rw [hnew.eq]
            simp
    · subst hk
      exact not_fails ht hc
  · subst hch
    obtain ⟨htransient, _⟩ := hc
    simp only [Transient, ht, List.head?_cons] at htransient
    obtain ⟨herror, hclose⟩ := htransient r hx
    obtain ⟨_, _, _, _, hrev, _⟩ := poll_revents hx
    refine ⟨⟨herror, hclose, ?_, ?_⟩, fun b hb k hk => ?_, fun _ _ => id⟩
    · obtain ⟨_, he⟩ := (poll_idle hx c).conn
      rw [he]
      exact h.app.state
    · rw [show r.1.log = s.shared.app.log from hrev.log]
      exact h.app.log
    · obtain ⟨_, rfl⟩ := poll_codes hx b hb
      cases hk
  · subst hch hk
    have hcall : Code.conn c k ≠ .conn c .forceClose := by
      simpa only [Transient] using hc.1
    cases k <;> first | rfl | exact absurd ha Bool.false_ne_true | exact absurd rfl hcall

end Step

/-! ## Along a run -/

section Run

variable {c : ConnId} {s : State P}

/-- Whatever fails passes, and does so where the code can take it. -/
def Passing (cfg : ServerConfig) (poller : Poller P E) (c : ConnId) (s : State P)
    (b : ThreadId × Choice Code (Io E)) : Prop := Transient cfg poller c s b ∧ Steady c s b

theorem opened (h : (lts cfg poller).ReachIf (Passing cfg poller c) s) :
    AppInv (Open c) (Spares c) s := by
  refine run_inv h ⟨⟨rfl, rfl, by simp [started], by simp [started]⟩, fun t f hf p hp k he => ?_,
    fun _ _ hq => by cases hq⟩ fun hr hI hc hs => open_step hr hI hc hs
  rw [started_dest hf p hp] at he
  cases he

/-- The callbacks of a connection that is never closed. -/
theorem told_once (h : (lts cfg poller).ReachIf (Passing cfg poller c) s) :
    (callbacks (s.shared.app.log c)).count .connection ≤ 1 := by
  have hstaged : Staged s c := run_inv (I := fun s => Staged s c) h (staged_started c)
    fun hr hI _ hs => staged_step hr hI (fun _ => (opened hr).app.log) hs
  have hopen := (opened h).app.log
  cases hstaged with
  | unborn _ _ hcb | establishing _ _ hcb => simp [hcb]
  | up _ hmid hcb => simp [hcb, List.count_eq_zero.mpr hmid]
  | closing hlog | closed hlog => exact absurd (by rw [hlog]; simp) hopen

/-- The record accounts for the input buffer. -/
structure Recorded (c : ConnId) (p : State P × InputRecord) : Prop where
  input : p.2.received = p.2.retrieved ++ (p.1.shared.app.conn c).inputBuffer_.bytes
  fresh : p.1.shared.app.accepted ≤ c → p.2 = {}

theorem connRuns_input {t : ThreadId} {x x' : TcpConnection} {k : ConnCode} {io : Io E}
    {evs : List Event} {next rest : List (Frame Code)} {g : InputRecord}
    (h : x.Runs c t k io x' evs next) (ht : s.stack t = TcpConnection.piece c k :: rest)
    (hx : s.shared.app.conn c = x) (hg : g.received = g.retrieved ++ x.inputBuffer_.bytes) :
    (noteInput c s (t, .app io) g).received =
      (noteInput c s (t, .app io) g).retrieved ++ x'.inputBuffer_.bytes := by
  cases h with
  | readMessage _ hb | readUnannounced _ hb | readEof _ hb | readError _ hb =>
      simp [noteInput, ht, hb, hg]
  | retrieveInput =>
      simp [noteInput, ht, hx, hg, WfBuffer.retrieve_bytes, List.take_append_drop]
  | sendBufferHere _ _ hy | sentPart _ _ _ _ _ hy | queued _ _ hy =>
      rw [hy.rest]
      simpa [noteInput, ht] using hg
  | _ => simpa [noteInput, ht] using hg

/-- A thread that runs no piece of connection `c`. -/
def Elsewhere (c : ConnId) (t : ThreadId) (s : State P) : Prop :=
  ∀ k rest, s.stack t ≠ TcpConnection.piece c k :: rest

theorem Elsewhere.head {t : ThreadId} (h : Elsewhere c t s) {d : ConnId} {k : ConnCode}
    (hh : (s.stack t).head? = some (.code (.conn d k))) : d ≠ c := by
  rintro rfl
  obtain ⟨rest, hrest⟩ := List.head?_eq_some_iff.mp hh
  exact h k rest hrest

/-- Nothing runs on a connection before it is constructed. -/
theorem elsewhere_new (h : AppInv (Base poller) Bound s) (hc : c = s.shared.app.accepted)
    (t : ThreadId) : Elsewhere c t s := by
  intro k rest ht
  have hbound : Bound t (.conn c k) s.shared.app :=
    h.all.stack t _ (by rw [ht]; exact List.mem_cons_self) _ rfl
  exact absurd hbound.1 (by rw [hc]; exact Nat.lt_irrefl _)

theorem Elsewhere.note {t : ThreadId} (h : Elsewhere c t s) (ch : Choice Code (Io E))
    (g : InputRecord) : noteInput c s (t, ch) g = g := by
  unfold noteInput
  split
  · next hh _ => rw [if_neg (h.head hh)]
  · next hh => rw [if_neg (h.head hh)]
  · rfl

theorem Elsewhere.steady {t : ThreadId} (h : Elsewhere c t s) (ch : Choice Code (Io E)) :
    Steady c s (t, ch) := by
  simp only [Steady]
  split
  · next hh => exact fun hd => absurd hd (h.head hh)
  · next hh => exact fun hd => absurd hd (h.head hh)
  · trivial

theorem recorded_step {C : State P → ThreadId × Choice Code (Io E) → Prop}
    {p p' : State P × InputRecord} {b : ThreadId × Choice Code (Io E)}
    (hr : (lts cfg poller).ReachIf C p.1) (h : Recorded c p)
    (hs : (readLts cfg poller c).step p b = some p') : Recorded c p' := by
  obtain ⟨s, g⟩ := p
  obtain ⟨s', hstep, rfl⟩ := Option.map_eq_some_iff.mp hs
  have hbase := base hr
  have hext := step_extends hstep hbase
  obtain ⟨t, ch⟩ := b
  cases step_conn hstep hbase (wrapped hr) c with
  | piece ht hch hruns _ _ =>
      subst hch
      have hbound : Bound t (.conn c _) s.shared.app :=
        hbase.all.stack t _ (by rw [ht]; exact List.mem_cons_self) _ rfl
      have hlt : c < s.shared.app.accepted := hbound.1
      exact ⟨connRuns_input hruns ht rfl h.input,
        fun hle => absurd (Nat.le_trans hext.accepted hle) (Nat.not_le.mpr hlt)⟩
  | idle hi _ hcode =>
      obtain ⟨_, hx⟩ := hi.conn
      refine ⟨?_, fun hle => ?_⟩
      · rw [Elsewhere.note hcode, hx]
        exact h.input
      · rw [Elsewhere.note hcode]
        exact h.fresh (Nat.le_trans hext.accepted hle)
  | new hc hconn _ _ =>
      have hg : g = {} := h.fresh (Nat.le_of_eq hc.symm)
      have hnote := (elsewhere_new hbase hc t).note ch g
      refine ⟨?_, fun _ => by rw [hnote, hg]⟩
      rw [hnote, hg, hconn.eq]
      simp

end Run

theorem recorded_reach {C : State P → ThreadId × Choice Code (Io E) → Prop} {c : ConnId}
    {p : State P × InputRecord} (h : (readLts cfg poller c).ReachIf (fun p => C p.1) p) :
    Recorded c p := by
  refine h.inv_of (K := fun p => (lts cfg poller).ReachIf C p.1) (I := Recorded c)
    (fun _ hp => Lts.ReachIf.recorded hp) (fun p hp => ?_) fun _ _ _ hp hI _ hs => recorded_step hp hI hs
  obtain ⟨s, g⟩ := p
  obtain ⟨rfl, rfl⟩ : s = started poller ∧ g = {} := hp
  exact ⟨by simp [started], fun _ => rfl⟩

/-- In every run whose socket calls on connection `c` fail for the time being at
most, and in which none of `handleRead`'s and `handleWrite`'s do, the connection
stays up and keeps its bytes. -/
theorem transient_spares {c : ConnId} {p : State P × InputRecord}
    (h : (readLts cfg poller c).ReachIf
      (fun p b => Transient cfg poller c p.1 b ∧ Steady c p.1 b) p) : Unharmed c p := by
  have hp : (readLts cfg poller c).ReachIf (fun p => Passing cfg poller c p.1) p := h
  have hr : (lts cfg poller).ReachIf (Passing cfg poller c) p.1 := Lts.ReachIf.recorded hp
  exact ⟨(opened hr).app.state, told_once hr, (recorded_reach hp).input,
    output_conserved hr.reach c⟩

/-- One failure in `handleRead` or `handleWrite` is enough: `handleError` is next. -/
theorem unsteady_ends {c : ConnId} {s s' : State P} {t : ThreadId} {ch : Choice Code (Io E)}
    (hr : (lts cfg poller).Reach s) (hs : (lts cfg poller).step s (t, ch) = some s')
    (hc : ¬ Steady c s (t, ch)) : ∃ rest, s'.stack t = TcpConnection.piece c .handleError :: rest := by
  cases step_conn hs (base hr) (wrapped hr) c with
  | @piece k io evs next rest ht hch hruns _ hs' =>
      subst hch
      simp only [Steady, ht, List.head?_cons] at hc
      generalize s'.shared.app.conn c = x' at hruns
      suffices hnext : next = [TcpConnection.piece c .handleError] by
        refine ⟨rest, ?_⟩
        rw [hs', hnext, Config.resume_stack_self, List.singleton_append]
      cases hruns with
      | readMessage hpos | readUnannounced hpos =>
          exact absurd (fun _ => Int.le_of_lt hpos) hc
      | readEof hzero => exact absurd (fun _ => Int.le_of_eq hzero.symm) hc
      | readError | writeFailed => rfl
      | writePart | writeAll => exact absurd (fun _ _ => by simp) hc
      | notWriting hw => exact absurd (fun _ hyes => absurd hyes (by simp [hw])) hc
      | _ => exact absurd trivial hc
  | idle _ _ hcode => exact absurd (Elsewhere.steady hcode ch) hc
  | new hnew => exact absurd ((elsewhere_new (base hr) hnew t).steady ch) hc

/-- The direct send fails; later the message goes out in part, and two bytes are
read of which the user takes one. -/
theorem transient_spares_retried :
    ∃ p : State (List ChannelId) × InputRecord, Unharmed 0 p ∧ p.2.received = [1, 2] ∧
      p.2.retrieved = [1] ∧ sentBytes (p.1.shared.app.log 0) = [104, 101, 108] := by
  obtain ⟨p, hp, htest⟩ := Lts.exists_reachIf (readLts echoConfig anyPoller 0)
    (fun p b => Transient echoConfig anyPoller 0 p.1 b ∧ Steady 0 p.1 b)
    (x := (started anyPoller, {}))
    (connecting.append [(.loop 0, .call (.conn 0 (.send hello))), (.loop 0, .app .none),
      (.loop 0, .app (.sent none)), (.loop 0, .app (.poller [])), (.loop 0, .ret), (.loop 0, .go),
      (.loop 0, .go), (.loop 0, .poll (.poller [(.conn 0, { read := true, write := true })]) 0),
      (.loop 0, .app .none), (.loop 0, .app (.received (.bytes [1, 2]))),
      (.loop 0, .call (.conn 0 (.retrieveInput 1))), (.loop 0, .app .none), (.loop 0, .ret),
      (.loop 0, .app (.sent (some 3)))])
    (fun p => decide (p.2.received = [1, 2] ∧ p.2.retrieved = [1] ∧
      sentBytes (p.1.shared.app.log 0) = [104, 101, 108])) ⟨rfl, rfl⟩ (by decide +kernel)
  exact ⟨p, transient_spares hp, of_decide_eq_true htest⟩

/-- A spurious read event: `readv` fails with `EAGAIN`. -/
theorem transient_read_closes :
    ¬ ∀ (p : State (List ChannelId) × InputRecord) (c : ConnId),
      (readLts echoConfig anyPoller c).ReachIf
        (fun p b => Transient echoConfig anyPoller c p.1 b) p → Unharmed c p := by
  intro h
  obtain ⟨p, hp, htest⟩ := Lts.exists_reachIf (readLts echoConfig anyPoller 0)
    (fun p b => Transient echoConfig anyPoller 0 p.1 b) (x := (started anyPoller, {}))
    (connecting.append [(.loop 0, .ret), (.loop 0, .go), (.loop 0, .go),
      (.loop 0, .poll (.poller [(.conn 0, { read := true })]) 0), (.loop 0, .app .none),
      (.loop 0, .app (.received (.error 11))), (.loop 0, .app .none), (.loop 0, .app .none)])
    (fun p => decide ((p.1.shared.app.conn 0).state_ = .kDisconnected)) ⟨rfl, rfl⟩
    (by decide +kernel)
  exact (h p 0 hp).state (of_decide_eq_true htest)

end TcpServer

end Muduox.Net
