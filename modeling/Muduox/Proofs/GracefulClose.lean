import Mathlib.Data.List.TakeWhile
import Muduox.Proofs.HalfClose
import Muduox.Proofs.Lifecycle
import Muduox.Proofs.ReactorFifo

/-!
# A graceful close from another thread

A thread that is not the connection's own sends and then shuts down. Each
`send()` is a functor for the loop, in the order of the calls
(`ReactorFifo`); `shutdown()` stores `kDisconnecting` at once and leaves only the
half-close to the loop. But `sendInLoop` tests `state_` again, and takes a
message in `kConnected` only: what is still on its way when the store happens
is dropped, and the write side is closed without it.

When nothing is on its way at that moment (`SendsRun`), everything the thread
sent has been accepted, and it stays in front of the stream (`Conserved`): the
half-close of `shutdownInLoop` comes when nothing is queued, and the one of
`handleWrite` after a drain that no functor has run on top of.
-/

namespace Muduox.Net

/-- The messages thread `T` passed to `send()`. -/
def sentBy (T : ThreadId) (log : List Event) : List Message :=
  log.filterMap fun
    | .ran (.send m) | .ran (.sendBuffer m) => if m.sender = T then some m else none
    | _ => none

/-- Those before the store of `shutdown()`. -/
def sentBefore (T : ThreadId) (log : List Event) : List Message :=
  sentBy T (log.takeWhile (· != .ran .storeShutdown))

/-- The messages of thread `T` that were accepted. -/
def acceptedFrom (T : ThreadId) (log : List Event) : List Message :=
  (acceptedMessages log).filter fun m => m.sender = T

/-- The socket has taken a stretch of the stream from its start, and all that
`T` sent before `shutdown()`, no more and in this order, is in it. -/
def Delivered (T : ThreadId) (log : List Event) : Prop :=
  ∃ acc₁ acc₂, acceptedMessages log = acc₁ ++ acc₂ ∧
    acc₁.filter (fun m => m.sender = T) = sentBefore T log ∧
    (acc₁.flatMap fun m => m.bytes.1) <+: sentBytes log

/-- The write side was shut down only after what `T` sent was delivered. -/
def ClosesDelivered (T : ThreadId) (log : List Event) : Prop :=
  ∀ pre d post, log = pre ++ .shutdownWrite d :: post → Delivered T pre

theorem ClosesDelivered.append {T : ThreadId} {log evs : List Event} (h : ClosesDelivered T log)
    (he : ∀ pre d post, evs = pre ++ .shutdownWrite d :: post → Delivered T (log ++ pre)) :
    ClosesDelivered T (log ++ evs) := by
  intro pre d post heq
  rcases List.append_eq_append_iff.mp heq with ⟨as, rfl, hevs⟩ | ⟨bs, hlog, hpost⟩
  · exact he as d post hevs
  · cases bs with
    | nil =>
        rw [List.append_nil] at hlog
        rw [List.nil_append] at hpost
        have := he [] d post hpost.symm
        rwa [List.append_nil, hlog] at this
    | cons b bs =>
        obtain ⟨rfl, _⟩ := List.cons.inj hpost
        exact h pre d bs hlog

namespace TcpServer

open Threads Reactor TcpConnection

variable {P E : Type} {cfg : ServerConfig} {poller : Poller P E} {T : ThreadId} {c : ConnId}

/-- The code that takes a message of thread `T` for connection `c`. -/
def message (T : ThreadId) (c : ConnId) : Code → Option Message
  | .conn d (.sendInLoop m) => if d = c ∧ m.sender = T then some m else none
  | _ => none

/-- The test at the end of `handleWrite` of connection `c`. -/
def closing (c : ConnId) (a : Code) : Bool := a == .conn c .shutdownIfDisconnecting

/-- The messages of `T` that are on their way to the loop of connection `c`. -/
def onTheWay (T : ThreadId) (c : ConnId) (s : State P) : List Message :=
  transit (message T c) T (s.shared.app.conn c).loop_ s

/-- The piece of connection `c` a thread is about to run. -/
def piece? (c : ConnId) (s : State P) (t : ThreadId) : Option ConnCode :=
  match (s.stack t).head? with
  | some (.code (.conn d k)) => if d = c then some k else none
  | _ => none

/-- No socket error, peer close or `forceClose()` on connection `c`, and only `T`
shuts it down. -/
def Undisturbed (T : ThreadId) (c : ConnId) (s : State P) (b : ThreadId × Choice Code (Io E)) :
    Prop :=
  match piece? c s b.1 with
  | some .handleClose | some .handleError | some .forceClose | some .forceCloseIfDisconnecting
  | some .storeForceClose => False
  | some .shutdown | some .storeShutdown => b.1 = T
  | _ => True

/-- When `shutdown()` stores `kDisconnecting`, the loop has run what `T` sent. -/
def SendsRun (T : ThreadId) (c : ConnId) (s : State P) (b : ThreadId × Choice Code (Io E)) :
    Prop :=
  piece? c s b.1 = some .storeShutdown → onTheWay T c s = []

instance (s : State P) (b : ThreadId × Choice Code (Io E)) : Decidable (Undisturbed T c s b) := by
  unfold Undisturbed
  split <;> infer_instance

instance (s : State P) (b : ThreadId × Choice Code (Io E)) : Decidable (SendsRun T c s b) :=
  inferInstanceAs (Decidable (_ → _))

@[simp] theorem sentBy_append (T : ThreadId) (l m : List Event) :
    sentBy T (l ++ m) = sentBy T l ++ sentBy T m := List.filterMap_append

/-- What a piece reports beside itself is no call of `send()`. -/
theorem sentBy_events {evs : List Event} (h : ∀ j, .ran j ∉ evs) : sentBy T evs = [] := by
  refine List.filterMap_eq_nil_iff.mpr fun e he => ?_
  split
  · exact absurd he (h _)
  · exact absurd he (h _)
  · rfl

/-- Before the store, what is sent counts. -/
theorem sentBefore_open {log evs : List Event} (h : .ran .storeShutdown ∉ log) {k : ConnCode}
    (hevs : ∀ j, .ran j ∉ evs) :
    sentBefore T (log ++ .ran k :: evs) = sentBy T log ++ sentBy T [.ran k] := by
  unfold sentBefore
  rw [List.takeWhile_append_of_pos, sentBy_append, List.takeWhile_cons]
  · congr 1
    split
    · have htail : ∀ j, .ran j ∉ evs.takeWhile (· != .ran .storeShutdown) := fun j hj =>
        hevs j ((List.takeWhile_sublist _).subset hj)
      rw [← List.singleton_append, sentBy_append, sentBy_events htail, List.append_nil]
    · next hk =>
        have hk : k = .storeShutdown := by simpa using hk
        subst hk
        rfl
  · intro e he
    rw [bne_iff_ne]
    rintro rfl
    exact h he

/-- After it, nothing does. -/
theorem sentBefore_closed {log : List Event} (h : .ran .storeShutdown ∈ log) (evs : List Event) :
    sentBefore T (log ++ evs) = sentBefore T log := by
  unfold sentBefore
  rw [List.takeWhile_append, if_neg]
  intro hlen
  have hall := (List.takeWhile_sublist _).eq_of_length hlen
  rw [← hall] at h
  simpa using List.mem_takeWhile_imp h

@[simp] theorem acceptedFrom_append (T : ThreadId) (l m : List Event) :
    acceptedFrom T (l ++ m) = acceptedFrom T l ++ acceptedFrom T m := by
  unfold acceptedFrom
  rw [acceptedMessages_append, List.filter_append]

section Piece

variable {t : ThreadId} {x x' : TcpConnection} {k : ConnCode} {io : Io E} {evs : List Event}
  {next : List (Frame Code)}

/-- A piece accepts at most the message it was given, on the loop's thread, and
in `kConnected` only. -/
theorem connRuns_accepted (h : x.Runs c t k io x' evs next) :
    acceptedMessages evs = [] ∧ (∀ m, k = .sendInLoop m → x.state_ ≠ .kConnected) ∨
      ∃ m, (k = .sendInLoop m ∨ k = .sendBuffer m) ∧ acceptedMessages evs = [m] ∧
        x.state_ = .kConnected ∧ t = .loop x.loop_ := by
  have hshut : acceptedMessages x.shutdownWrite.events = [] := by
    unfold TcpConnection.shutdownWrite
    cases x.socket_ <;> rfl
  cases h with
  | sendBufferHere hs ht => exact .inr ⟨_, .inr rfl, rfl, hs, ht⟩
  | sentWhole ht hs | sentPart ht hs | queued ht hs => exact .inr ⟨_, .inl rfl, rfl, hs, ht⟩
  | dropped _ hs => exact .inl ⟨rfl, fun _ _ => hs⟩
  | halfClose | shutdownNow => exact .inl ⟨hshut, by simp⟩
  | _ => exact .inl ⟨rfl, by simp⟩

/-- What a piece hands over, when its caller is who it says. -/
theorem connRuns_message {d : ConnId} (h : x.Runs c t k io x' evs next)
    (hT : c = d → T ≠ .loop x.loop_)
    (hsigned : ∀ m, k = .send m ∨ k = .sendBuffer m → m.sender = t) :
    (∀ g ∈ next, g.sel (message T d) = none) ∨
      c = d ∧ t = T ∧ ∃ m, next = [.runInLoop x.loop_ (TcpConnection.piece c (.sendInLoop m))] := by
  by_cases hm : ∃ m, (k = .send m ∨ k = .sendBuffer m) ∧ c = d ∧ m.sender = T
  · obtain ⟨m, hk, hc, hs⟩ := hm
    have ht : t = T := by rw [← hsigned m hk, hs]
    cases h with
    | sendHere _ hl | sendBufferHere _ hl => exact absurd (ht.symm.trans hl) (hT hc)
    | sendThere | sendBufferThere => exact .inr ⟨hc, ht, _, rfl⟩
    | sendRefused | sendBufferRefused => exact .inl (by simp)
    | _ => rcases hk with hk | hk <;> cases hk
  · have hsel : ∀ m, k = .send m ∨ k = .sendBuffer m →
        message T d (.conn c (.sendInLoop m)) = none := fun m hk => if_neg fun hs => hm ⟨m, hk, hs⟩
    refine .inl fun g hg => ?_
    cases h.leaves g hg with
    | sendHere => exact hsel _ (.inl rfl)
    | sendThere hk => exact hsel _ hk
    | _ => rfl

/-- On another thread, what is handed over is what was sent. -/
theorem connRuns_handed (h : x.Runs c t k io x' evs next) (ht : t ≠ .loop x.loop_)
    (hs : k ≠ .connectEstablished → x.state_ = .kConnected) :
    picked (message T c) next = sentBy T [.ran k] := by
  have hone : ∀ {m l}, picked (message T c)
      [.runInLoop l (TcpConnection.piece c (.sendInLoop m))] =
        if m.sender = T then [m] else [] := by
    intro m l
    by_cases hm : m.sender = T <;> simp [picked, Frame.sel, Frame.payload, message, hm]
  have hsent : ∀ {m}, sentBy T [.ran (.send m)] = if m.sender = T then [m] else [] := by
    intro m
    by_cases hm : m.sender = T <;> simp [sentBy, hm]
  have hsentBuffer : ∀ {m}, sentBy T [.ran (.sendBuffer m)] =
      if m.sender = T then [m] else [] := by
    intro m
    by_cases hm : m.sender = T <;> simp [sentBy, hm]
  cases h with
  | sendThere => rw [hone, hsent]
  | sendBufferThere => rw [hone, hsentBuffer]
  | sendHere _ hl | sendBufferHere _ hl | sentPart hl | queued hl => exact absurd hl ht
  | sendRefused hno | sendBufferRefused hno => exact absurd (hs (by simp)) hno
  | _ => rfl

/-- On the loop's thread, what is accepted from another thread is what was
handed over. -/
theorem connRuns_taken (h : x.Runs c t k io x' evs next) (hT : T ≠ .loop x.loop_)
    (hsigned : ∀ m, k = .send m ∨ k = .sendBuffer m → m.sender = t) (ht : t = .loop x.loop_)
    (hs : k ≠ .connectEstablished → x.state_ = .kConnected) :
    acceptedFrom T evs = (message T c (.conn c k)).toList ∧ sentBy T [.ran k] = [] := by
  have hother : ∀ m, k = .send m ∨ k = .sendBuffer m → m.sender ≠ T := by
    intro m hk he
    exact hT (he.symm.trans ((hsigned m hk).trans ht))
  have hsent : sentBy T [.ran k] = [] := by
    cases k with
    | send m | sendBuffer m => simp [sentBy, hother m (by simp)]
    | _ => rfl
  refine ⟨?_, hsent⟩
  unfold acceptedFrom
  rcases connRuns_accepted h with ⟨hnone, hin⟩ | ⟨m, rfl | rfl, hacc, _, _⟩
  · rw [hnone]
    cases k with
    | sendInLoop m => exact absurd (hs (by simp)) (hin m rfl)
    | _ => rfl
  · rw [hacc]
    by_cases hm : m.sender = T <;> simp [message, hm]
  · rw [hacc]
    simp [hother m (by simp), message]

end Piece

/-! ## Who sends, and when `shutdownInLoop` comes -/

/-- A call of `send()` names the thread that makes it, and `shutdownInLoop`
follows the store. -/
def Told (t : ThreadId) (a : Code) (s : TcpServer P) : Prop :=
  match a with
  | .conn _ (.send m) | .conn _ (.sendBuffer m) => m.sender = t
  | .conn c .shutdownInLoop => .ran .storeShutdown ∈ s.log c
  | _ => True

theorem Extends.told {s s' : TcpServer P} (h : Extends s s') {t : ThreadId} {a : Code}
    (ha : Told t a s) : Told t a s' := by
  unfold Told at ha ⊢
  split
  · exact ha
  · exact ha
  · exact (h.log _).subset ha
  · trivial

theorem connRuns_told {t : ThreadId} {x x' : TcpConnection} {k : ConnCode} {io : Io E}
    {evs : List Event} {next : List (Frame Code)} {s' : TcpServer P}
    (h : x.Runs c t k io x' evs next) (hlog : .ran k ∈ s'.log c) :
    ∀ g ∈ next, ∀ p ∈ g.dest t, Told p.1 p.2 s' := by
  intro g hg p hp
  cases h.leaves g hg with
  | user => cases hp
  | shutdownInLoop =>
      cases hp
      exact hlog
  | _ =>
      cases hp
      trivial

theorem runs_told {t : ThreadId} {a : Code} {io : Io E} {s s' : TcpServer P}
    {next : List (Frame Code)} (h : Runs cfg poller t s a io s' next) :
    ∀ g ∈ next, ∀ p ∈ g.dest t, Told p.1 p.2 s' := by
  cases h with
  | conn h =>
      refine connRuns_told h ?_
      rw [setConn_log_self]
      exact List.mem_append_right _ List.mem_cons_self
  | handleEvent =>
      intro g hg p hp
      rcases mem_handleEvent hg with
        ⟨_, rfl⟩ | ⟨_, _, _, rfl, ⟨_, rfl⟩ | ⟨_, rfl⟩ | ⟨_, rfl⟩ | ⟨_, rfl⟩⟩ <;>
          cases hp <;> trivial
  | removeConnectionInLoop =>
      intro g hg p hp
      rw [mem_removeConnectionInLoop hg] at hp
      cases hp
      trivial
  | _ => simp [TcpServer.listen, TcpServer.newConnection, Frame.dest, Told]

theorem api_told {t : ThreadId} {s : TcpServer P} {a : Code} (h : api t s a = true) :
    Told t a s := by
  unfold api at h
  unfold Told
  split at h
  · exact eq_of_beq (Bool.and_eq_true _ _ ▸ h).2
  · exact eq_of_beq (Bool.and_eq_true _ _ ▸ h).2
  · trivial
  · trivial
  · trivial
  · cases h

theorem told {C : State P → ThreadId × Choice Code (Io E) → Prop} {s : State P}
    (h : (lts cfg poller).ReachIf C s) : AppInv (fun _ => True) Told s := by
  refine run_inv h ⟨trivial, fun t f hf p hp => ?_, fun _ _ hq => by cases hq⟩
    fun {s b s'} hr hI _ hs => ?_
  · rw [started_dest hf p hp]
    trivial
  · have hbase := base hr
    refine hI.step hs (sound hr) (fun ht _ hx _ => ?_) (fun _ _ _ hx => ?_) fun _ => api_told
    · have hb := hbase.all.stack _ _ (by rw [ht]; exact List.mem_cons_self) _ rfl
      have hruns := exec_runs hx
      exact ⟨trivial, runs_told hruns, fun _ _ => (runs_base hruns hbase.app hb).2.2.told⟩
    · refine ⟨trivial, fun b hb => ?_, fun _ _ => (poll_base hx hbase.app).2.2.told⟩
      obtain ⟨ch, rfl⟩ := poll_codes hx b hb
      trivial

/-! ## One thread's messages on their way -/

/-- The code that hands over a message of `T` is a call of `send()` by `T`. -/
theorem runs_message {t : ThreadId} {a : Code} {io : Io E} {s s' : TcpServer P}
    {next : List (Frame Code)} (h : Runs cfg poller t s a io s' next)
    (hT : T ≠ .loop (s.conn c).loop_) (ht : Told t a s) :
    (∀ g ∈ next, g.sel (message T c) = none) ∨
      t = T ∧ (∃ k, a = .conn c k) ∧ ∃ b, next = [.runInLoop (s.conn c).loop_ (.code b)] := by
  cases h with
  | @conn d k io x evs next h =>
      have hsigned : ∀ m, k = .send m ∨ k = .sendBuffer m → m.sender = t := by
        rintro m (rfl | rfl) <;> exact ht
      rcases connRuns_message (T := T) (d := c) h (fun he => by rw [he]; exact hT) hsigned with
        hno | ⟨rfl, htT, m, rfl⟩
      · exact .inl hno
      · exact .inr ⟨htT, ⟨_, rfl⟩, _, rfl⟩
  | handleEvent =>
      refine .inl fun g hg => ?_
      rcases mem_handleEvent hg with
        ⟨_, rfl⟩ | ⟨_, _, _, rfl, ⟨_, rfl⟩ | ⟨_, rfl⟩ | ⟨_, rfl⟩ | ⟨_, rfl⟩⟩ <;>
          rfl
  | removeConnectionInLoop =>
      refine .inl fun g hg => ?_
      rw [mem_removeConnectionInLoop hg]
      rfl
  | _ =>
      exact .inl (by
        simp [TcpServer.listen, TcpServer.newConnection, Frame.sel, Frame.payload, message])

/-- The messages of `T` for connection `c` are where they may be. -/
abbrev HandedOver (T : ThreadId) (c : ConnId) (s : State P) : Prop :=
  Handover (message T c) (closing c) T (s.shared.app.conn c).loop_ s

theorem message_step {s s' : State P} {t : ThreadId} {ch : Choice Code (Io E)}
    (hs : (lts cfg poller).step s (t, ch) = some s') (hsound : Sound s)
    (htold : AppInv (fun _ => True) Told s) (hT : T ≠ .loop (s.shared.app.conn c).loop_)
    (h : HandedOver T c s) :
    Handover (message T c) (closing c) T (s.shared.app.conn c).loop_ s' ∧
      Conveys (app cfg poller) (message T c) T (s.shared.app.conn c).loop_ t s s' := by
  refine handover_step hs hsound hT h (fun ht hx => ?_) (fun hx b hb => ?_) fun {a} ha => ?_
  · have hb := htold.all.stack _ _ (by rw [ht]; exact List.mem_cons_self) _ rfl
    exact (runs_message (exec_runs hx) hT hb).imp_right fun ⟨htT, _, hn⟩ => ⟨htT, hn⟩
  · obtain ⟨ch, rfl⟩ := poll_codes hx b hb
    exact ⟨rfl, rfl⟩
  · cases a with
    | conn d k => cases k <;> first | rfl | cases ha
    | _ => rfl

/-- Other code leaves the messages alone. -/
theorem onTheWay_idle {s s' : State P} {t : ThreadId}
    (hconv : Conveys (app cfg poller) (message T c) T (s.shared.app.conn c).loop_ t s s')
    (htold : AppInv (fun _ => True) Told s) (hT : T ≠ .loop (s.shared.app.conn c).loop_)
    (hl : (s'.shared.app.conn c).loop_ = (s.shared.app.conn c).loop_)
    (hcode : ∀ k rest, s.stack t ≠ TcpConnection.piece c k :: rest) :
    onTheWay T c s' = onTheWay T c s := by
  unfold onTheWay
  rw [hl]
  cases hconv with
  | @code a io next rest ht hx _ hloop hthread =>
      have hne : ∀ k, a ≠ .conn c k := fun k he => hcode k rest (by rw [ht, he])
      have hb := htold.all.stack _ _ (by rw [ht]; exact List.mem_cons_self) _ rfl
      by_cases htl : t = .loop (s.shared.app.conn c).loop_
      · have hself : message T c a = none := by
          cases a with
          | conn d k =>
              have hd : d ≠ c := fun he => hne k (by rw [he])
              cases k <;> first | rfl | exact if_neg fun hm => hd hm.1
          | _ => rfl
        rw [hloop htl, hself]
        rfl
      · have hnone : ∀ g ∈ next, g.sel (message T c) = none :=
          (runs_message (exec_runs hx) hT hb).resolve_right fun ⟨_, ⟨k, he⟩, _⟩ => hne k he
        rw [hthread htl, picked_eq_nil hnone, List.append_nil]
  | other _ hsame => exact hsame

/-! ## The invariant -/

/-- The socket has taken a stretch of the stream with all of `T`'s messages. -/
def Ahead (T : ThreadId) (log : List Event) : Prop :=
  ∃ acc₁ acc₂, acceptedMessages log = acc₁ ++ acc₂ ∧ (∀ m ∈ acc₂, m.sender ≠ T) ∧
    (acc₁.flatMap fun m => m.bytes.1) <+: sentBytes log

theorem Ahead.append {log evs : List Event} (h : Ahead T log) (he : acceptedFrom T evs = []) :
    Ahead T (log ++ evs) := by
  obtain ⟨acc₁, acc₂, hacc, hother, hpre⟩ := h
  refine ⟨acc₁, acc₂ ++ acceptedMessages evs, ?_, fun m hm => ?_, ?_⟩
  · rw [acceptedMessages_append, hacc, List.append_assoc]
  · rcases List.mem_append.mp hm with hm | hm
    · exact hother m hm
    · intro hs
      have : m ∈ acceptedFrom T evs := List.mem_filter.mpr ⟨hm, decide_eq_true hs⟩
      rw [he] at this
      cases this
  · rw [sentBytes_append]
    exact hpre.trans (List.prefix_append _ _)

/-- Nothing is queued: the socket has taken everything. -/
theorem Ahead.of_conserved {x : TcpConnection} {log : List Event} (h : Conserved x log)
    (hout : x.outputBuffer_.bytes = []) : Ahead T log := by
  refine ⟨acceptedMessages log, [], (List.append_nil _).symm, by simp, ?_⟩
  unfold Conserved at h
  rw [hout, List.append_nil] at h
  rw [h]
  exact List.prefix_rfl

theorem Ahead.delivered {log : List Event} (h : Ahead T log)
    (hall : sentBefore T log = acceptedFrom T log) : Delivered T log := by
  obtain ⟨acc₁, acc₂, hacc, hother, hpre⟩ := h
  refine ⟨acc₁, acc₂, hacc, ?_, hpre⟩
  have hnone : acc₂.filter (fun m => decide (m.sender = T)) = [] :=
    List.filter_eq_nil_iff.mpr fun m hm => by simpa using hother m hm
  rw [hall, acceptedFrom, hacc, List.filter_append, hnone, List.append_nil]

/-- Where the messages of `T` for connection `c` are. -/
structure Tracked (T : ThreadId) (c : ConnId) (s : State P) : Prop where
  hand : HandedOver T c s
  connected : Established s.shared.app c → .ran .storeShutdown ∉ s.shared.app.log c →
    (s.shared.app.conn c).state_ = .kConnected
  before : .ran .storeShutdown ∉ s.shared.app.log c →
    sentBy T (s.shared.app.log c) = acceptedFrom T (s.shared.app.log c) ++ onTheWay T c s
  after : .ran .storeShutdown ∈ s.shared.app.log c →
    sentBefore T (s.shared.app.log c) = acceptedFrom T (s.shared.app.log c) ∧
      (s.shared.app.conn c).state_ ≠ .kConnected
  drained : Draining s c → Ahead T (s.shared.app.log c)
  closes : ClosesDelivered T (s.shared.app.log c)

section Piece

variable {t : ThreadId} {k : ConnCode} {io : Io E} {evs : List Event}
  {next rest : List (Frame Code)} {s s' : State P}

/-- What a piece of the connection does to the messages on their way. -/
theorem onTheWay_piece
    (hconv : Conveys (app cfg poller) (message T c) T (s.shared.app.conn c).loop_ t s s')
    (hl : (s'.shared.app.conn c).loop_ = (s.shared.app.conn c).loop_)
    (ht : s.stack t = TcpConnection.piece c k :: rest)
    (hs' : s' = s.resume t s'.shared next rest) :
    (t = .loop (s.shared.app.conn c).loop_ →
        onTheWay T c s = (message T c (.conn c k)).toList ++ onTheWay T c s') ∧
      (t ≠ .loop (s.shared.app.conn c).loop_ →
        onTheWay T c s' = onTheWay T c s ++ picked (message T c) next) := by
  unfold onTheWay
  rw [hl]
  cases hconv with
  | @code a io' next' rest' ht' hx hstack hloop hthread =>
      obtain ⟨ha, hrest⟩ := List.cons.inj (ht.symm.trans ht')
      cases ha
      subst hrest
      refine ⟨hloop, fun htl => ?_⟩
      rw [hs', Config.resume_stack_self] at hstack
      rw [hthread htl, List.append_cancel_right hstack]
  | other hcode => exact absurd ht (hcode _ _)

/-- What `T` sent, once another piece ran. -/
theorem Tracked.piece_before (h : Tracked T c s) (hT : T ≠ .loop (s.shared.app.conn c).loop_)
    (hconv : Conveys (app cfg poller) (message T c) T (s.shared.app.conn c).loop_ t s s')
    (hbound : Bound t (.conn c k) s.shared.app) (htold : Told t (.conn c k) s.shared.app)
    (ht : s.stack t = TcpConnection.piece c k :: rest)
    (hr : (s.shared.app.conn c).Runs c t k io (s'.shared.app.conn c) evs next)
    (hs' : s' = s.resume t s'.shared next rest)
    (hopen : .ran .storeShutdown ∉ s.shared.app.log c) :
    sentBy T (s.shared.app.log c ++ .ran k :: evs) =
      acceptedFrom T (s.shared.app.log c ++ .ran k :: evs) ++ onTheWay T c s' := by
  have hsigned : ∀ m, k = .send m ∨ k = .sendBuffer m → m.sender = t := by
    rintro m (rfl | rfl) <;> exact htold
  have hstate : k ≠ .connectEstablished → (s.shared.app.conn c).state_ = .kConnected := fun hk =>
    h.connected (hbound.2.1 hk) hopen
  have hsplit : sentBy T (s.shared.app.log c ++ .ran k :: evs) =
      sentBy T (s.shared.app.log c) ++ sentBy T [.ran k] := by
    rw [← List.singleton_append, sentBy_append, sentBy_append, sentBy_events (connRuns_events hr).1,
      List.append_nil]
  have hacc : acceptedFrom T (s.shared.app.log c ++ .ran k :: evs) =
      acceptedFrom T (s.shared.app.log c) ++ acceptedFrom T evs := by
    rw [acceptedFrom_append]
    rfl
  obtain ⟨hloop, hthread⟩ := onTheWay_piece hconv (connRuns_const hr).1 ht hs'
  rw [hsplit, hacc, h.before hopen]
  by_cases htl : t = .loop (s.shared.app.conn c).loop_
  · obtain ⟨htaken, hsent⟩ := connRuns_taken hr hT hsigned htl hstate
    rw [hloop htl, htaken, hsent, List.append_nil, List.append_assoc]
  · have hnone : acceptedFrom T evs = [] := by
      unfold acceptedFrom
      rcases connRuns_accepted hr with ⟨he, _⟩ | ⟨_, _, _, _, hl⟩
      · rw [he]
        rfl
      · exact absurd hl htl
    rw [hthread htl, connRuns_handed hr htl hstate, hnone, List.append_nil, List.append_assoc]

/-- Nothing of `T` is accepted while `handleWrite` is past its drain. -/
theorem Tracked.piece_drained (h : Tracked T c s) (hT : T ≠ .loop (s.shared.app.conn c).loop_)
    (htold : Told t (.conn c k) s.shared.app) (ht : s.stack t = TcpConnection.piece c k :: rest)
    (hr : (s.shared.app.conn c).Runs c t k io (s'.shared.app.conn c) evs next)
    (hd : Draining s c) : acceptedFrom T evs = [] := by
  unfold acceptedFrom
  rcases connRuns_accepted hr with ⟨he, _⟩ | ⟨m, hk, hacc, _, hl⟩
  · rw [he]
    rfl
  rw [hacc]
  refine List.filter_eq_nil_iff.mpr fun m' hm' hs => ?_
  rw [List.mem_singleton.mp hm'] at hs
  have hs : m.sender = T := of_decide_eq_true hs
  rcases hk with rfl | rfl
  · have hunder := h.hand.under
    rw [← hl, ht, List.pairwise_cons] at hunder
    rw [Draining, ← hl, ht] at hd
    have hbelow := (List.mem_cons.mp hd).resolve_left (by simp)
    have hmark := (hunder.1 _ hbelow).2
      (.inr (.inr (by simp [Frame.sel, Frame.payload, message, hs])))
    simp [Frame.marked, closing] at hmark
  · have hsender : m.sender = t := htold
    exact hT (hs.symm.trans (hsender.trans hl))

theorem connRuns_establishes {x x' : TcpConnection}
    (h : x.Runs c t .connectEstablished io x' evs next) : x'.state_ = .kConnected := by
  cases h
  rfl

theorem connRuns_stores {x x' : TcpConnection} (h : x.Runs c t .storeShutdown io x' evs next) :
    evs = [] ∧ x'.state_ = .kDisconnecting := by
  cases h
  exact ⟨rfl, rfl⟩

/-- `handleWrite` comes to its last test over an empty buffer. -/
theorem connRuns_drains {x x' : TcpConnection} (h : x.Runs c t k io x' evs next)
    (hmem : TcpConnection.piece c .shutdownIfDisconnecting ∈ next) :
    x'.outputBuffer_.bytes = [] := by
  cases h with
  | writeAll _ _ hb => exact hb
  | sendBufferHere | sentPart | queued => exact absurd hmem piece_notMem_updateUnlessWriting
  | _ => simp at hmem

theorem connRuns_stays {x x' : TcpConnection} (h : x.Runs c t k io x' evs next)
    (hs : x.state_ = .kConnected)
    (hk : k ≠ .handleClose ∧ k ≠ .storeShutdown ∧ k ≠ .storeForceClose) :
    x'.state_ = .kConnected := by
  cases h with
  | handleClose => exact absurd rfl hk.1
  | storeShutdown => exact absurd rfl hk.2.1
  | storeForceClose => exact absurd rfl hk.2.2
  | connectEstablished => rfl
  | sendBufferHere _ _ hx | sentPart _ _ _ _ _ hx | queued _ _ hx => rwa [hx.state]
  | _ => exact hs

/-- The only event of a half-close. -/
theorem connRuns_shutdownWrite_eq {x x' : TcpConnection} (h : x.Runs c t k io x' evs next)
    {d : List UInt8} (hd : .shutdownWrite d ∈ evs) : evs = [.shutdownWrite d] := by
  have hevent : .shutdownWrite d ∈ x.shutdownWrite.events →
      x.shutdownWrite.events = [.shutdownWrite d] := by
    intro hd
    rw [TcpConnection.shutdownWrite, List.mem_singleton] at hd
    rw [TcpConnection.shutdownWrite, ← hd]
  cases h with
  | halfClose | shutdownNow => exact hevent hd
  | _ => simp at hd

/-- A half-close comes after the store, and with all of `T`'s messages sent. -/
theorem Tracked.piece_closes (h : Tracked T c s) (harmed : Armed s c) (hprompt : Ordered Prompt s)
    (hcons : Conserved (s.shared.app.conn c) (s.shared.app.log c))
    (hbound : Bound t (.conn c k) s.shared.app) (htold : Told t (.conn c k) s.shared.app)
    (ht : s.stack t = TcpConnection.piece c k :: rest)
    (hr : (s.shared.app.conn c).Runs c t k io (s'.shared.app.conn c) evs next) :
    ClosesDelivered T (s.shared.app.log c ++ .ran k :: evs) := by
  refine h.closes.append fun pre d post heq => ?_
  have hd : .shutdownWrite d ∈ evs := by
    have hmem : .shutdownWrite d ∈ .ran k :: evs := by
      rw [heq]
      simp
    exact (List.mem_cons.mp hmem).resolve_left (by simp)
  have hpre : pre = [.ran k] := by
    rw [connRuns_shutdownWrite_eq hr hd] at heq
    match pre with
    | [] => cases heq
    | [_] =>
        cases heq
        rfl
    | _ :: _ :: _ :: _ => simp at heq
    | [_, _] => simp at heq
  subst hpre
  -- The store came before, and the socket has taken all that `T` sent.
  have hboth : .ran .storeShutdown ∈ s.shared.app.log c ∧ Ahead T (s.shared.app.log c) := by
    obtain ⟨_, hsock, ⟨rfl, hs⟩ | ⟨rfl, hl, hw⟩⟩ := connRuns_shutdownWrite hr hd
    · refine ⟨?_, h.drained ?_⟩
      · by_contra hopen
        rw [h.connected (hbound.2.1 (by simp)) hopen] at hs
        cases hs
      · rw [Draining, ← hbound.2.2 rfl, ht]
        exact List.mem_cons_self
    · exact ⟨htold, .of_conserved hcons (shutdownInLoop_empty harmed hprompt ht hl hsock hw)⟩
  refine Ahead.delivered (hboth.2.append rfl) ?_
  rw [sentBefore_closed hboth.1, (h.after hboth.1).1, acceptedFrom_append]
  exact (List.append_nil _).symm

theorem Tracked.piece (h : Tracked T c s) (hT : T ≠ .loop (s.shared.app.conn c).loop_)
    (hhand : Handover (message T c) (closing c) T (s.shared.app.conn c).loop_ s')
    (hconv : Conveys (app cfg poller) (message T c) T (s.shared.app.conn c).loop_ t s s')
    (harmed : Armed s c) (hprompt : Ordered Prompt s)
    (hcons : Conserved (s.shared.app.conn c) (s.shared.app.log c))
    (hbound : Bound t (.conn c k) s.shared.app) (htold : Told t (.conn c k) s.shared.app)
    (hfirst : k = .connectEstablished → s.shared.app.log c = [])
    (hund : Undisturbed T c s (t, Choice.app io)) (hsends : SendsRun T c s (t, Choice.app io))
    (ht : s.stack t = TcpConnection.piece c k :: rest)
    (hr : (s.shared.app.conn c).Runs c t k io (s'.shared.app.conn c) evs next)
    (hlog : s'.shared.app.log c = s.shared.app.log c ++ .ran k :: evs)
    (hs' : s' = s.resume t s'.shared next rest) : Tracked T c s' := by
  obtain ⟨hl, _⟩ := connRuns_const hr
  have hpiece : piece? c s t = some k := by
    unfold piece?
    rw [ht]
    exact if_pos rfl
  have hallowed : k ≠ .handleClose ∧ k ≠ .storeForceClose := by
    unfold Undisturbed at hund
    rw [hpiece] at hund
    constructor <;> (rintro rfl; exact hund)
  have hopen : .ran .storeShutdown ∉ s.shared.app.log c ++ .ran k :: evs →
      .ran .storeShutdown ∉ s.shared.app.log c ∧ k ≠ .storeShutdown := by
    intro hno
    refine ⟨fun hm => hno (List.mem_append_left _ hm), ?_⟩
    rintro rfl
    exact hno (List.mem_append_right _ List.mem_cons_self)
  refine ⟨by rw [HandedOver, hl]; exact hhand, fun hest hno => ?_, fun hno => ?_, fun hyes => ?_,
    fun hd => ?_, ?_⟩
  · rw [hlog] at hno
    by_cases hk : k = .connectEstablished
    · subst hk
      exact connRuns_establishes hr
    · exact connRuns_stays hr (h.connected (hbound.2.1 hk) (hopen hno).1)
        ⟨hallowed.1, (hopen hno).2, hallowed.2⟩
  · rw [hlog] at hno ⊢
    exact h.piece_before hT hconv hbound htold ht hr hs' (hopen hno).1
  · rw [hlog] at hyes ⊢
    by_cases hold : .ran .storeShutdown ∈ s.shared.app.log c
    · have hk : k ≠ .connectEstablished := by
        intro hk
        rw [hfirst hk] at hold
        cases hold
      have hnone : acceptedFrom T (.ran k :: evs) = [] := by
        rcases connRuns_accepted hr with ⟨he, _⟩ | ⟨_, _, _, hs, _⟩
        · show (acceptedMessages evs).filter _ = []
          rw [he]
          rfl
        · exact absurd hs (h.after hold).2
      rw [sentBefore_closed hold, acceptedFrom_append, hnone, List.append_nil]
      exact ⟨(h.after hold).1, connRuns_connected hr hk (h.after hold).2⟩
    · have hk : k = .storeShutdown := by
        have hnew := (List.mem_append.mp hyes).resolve_left hold
        exact (Event.ran.inj ((List.mem_cons.mp hnew).resolve_right
          ((connRuns_events hr).1 _))).symm
      subst hk
      have hway : onTheWay T c s = [] := hsends hpiece
      have hbefore := h.before hold
      rw [hway, List.append_nil] at hbefore
      obtain ⟨rfl, hstate⟩ := connRuns_stores hr
      rw [sentBefore_open hold (connRuns_events hr).1, hbefore, acceptedFrom_append, hstate]
      exact ⟨rfl, by simp⟩
  · rw [hlog]
    rw [Draining, hl, hs'] at hd
    rcases Config.mem_of_mem_resume ht hd with ⟨_, hnew⟩ | hold
    · exact .of_conserved (hcons.piece hr) (connRuns_drains hr hnew)
    · have hnone : acceptedFrom T evs = [] := h.piece_drained hT htold ht hr hold
      exact (h.drained hold).append hnone
  · rw [hlog]
    exact h.piece_closes harmed hprompt hcons hbound htold ht hr

end Piece

theorem dest_of_payload {f : Frame Code} {a : Code} (h : f.payload = some a) (t : ThreadId) :
    ∃ u, f.dest t = some (u, a) := by
  induction f generalizing t with
  | code b =>
      cases h
      exact ⟨t, rfl⟩
  | runInLoop l cb ih | queueInLoop l cb ih => exact ih h (.loop l)
  | functor l cb ih => exact ih h t
  | _ => cases h

/-- What is picked names an established connection. -/
theorem established_of_sel {f : Frame Code} {t : ThreadId} {s : TcpServer P}
    (hdest : ∀ p ∈ f.dest t, Bound p.1 p.2 s) (h : f.sel (message T c) ≠ none) :
    Established s c := by
  unfold Frame.sel at h
  cases hp : f.payload with
  | none =>
      rw [hp] at h
      exact absurd rfl h
  | some a =>
      rw [hp] at h
      obtain ⟨u, hu⟩ := dest_of_payload hp t
      have hbound := hdest _ hu
      cases a with
      | conn d k =>
          cases k with
          | sendInLoop m =>
              by_cases hm : d = c ∧ m.sender = T
              · rw [← hm.1]
                exact hbound.2.1 (by simp)
              · exact absurd (if_neg hm) h
          | _ => exact absurd rfl h
      | _ => exact absurd rfl h

/-- Before a connection is established, there is nothing to track. -/
theorem tracked_unborn {s : State P} (hbase : AppInv (Base poller) Bound s)
    (hlog : s.shared.app.log c = []) : Tracked T c s := by
  have hno : ¬ Established s.shared.app c := by
    intro he
    have hmem := he.2
    rw [hlog] at hmem
    cases hmem
  have hstack : ∀ t, ∀ f ∈ s.stack t, f.sel (message T c) = none := fun t f hf => by
    by_contra hs
    exact hno (established_of_sel (hbase.all.stack t f hf) hs)
  have hqueue : ∀ k, ∀ q ∈ (s.shared.loop k).pendingFunctors_, q.2.sel (message T c) = none :=
    fun k q hq => by
      by_contra hs
      exact hno (established_of_sel (hbase.all.queue k q hq) hs)
  have hmark : ∀ t, TcpConnection.piece c .shutdownIfDisconnecting ∉ s.stack t := fun t hf =>
    hno ((hbase.all.stack t _ hf _ rfl).2.1 (by simp))
  have hway : onTheWay T c s = [] := by
    unfold onTheWay transit
    rw [picked_eq_nil (hstack _), picked_eq_nil (hstack _), picked_eq_nil fun g hg => ?_]
    · rfl
    · obtain ⟨q, hq, rfl⟩ := List.mem_map.mp hg
      exact hqueue _ q hq
  refine ⟨handover_none hstack hqueue fun f hf => ?_, fun he => absurd he hno, fun _ => ?_,
    fun hyes => ?_, fun hd => absurd hd (hmark _), fun pre d post heq => ?_⟩
  · cases f with
    | code a =>
        refine Bool.eq_false_iff.mpr fun hc => hmark (.loop (s.shared.app.conn c).loop_) ?_
        rwa [show a = .conn c .shutdownIfDisconnecting from eq_of_beq hc] at hf
    | _ => rfl
  · rw [hlog, hway]
    rfl
  · rw [hlog] at hyes
    cases hyes
  · rw [hlog] at heq
    simp at heq

/-- A step that does not touch the connection. -/
theorem Tracked.idle {s s' : State P} (h : Tracked T c s) (hhand : HandedOver T c s')
    (hstate : (s'.shared.app.conn c).state_ = (s.shared.app.conn c).state_)
    (hway : onTheWay T c s' = onTheWay T c s)
    (hest : .ran .connectEstablished ∈ s.shared.app.log c → Established s.shared.app c)
    (hdrain : Draining s' c ↔ Draining s c)
    (hlog : s'.shared.app.log c = s.shared.app.log c ∨
      ∃ b, s'.shared.app.log c = s.shared.app.log c ++ [.removed b]) : Tracked T c s' := by
  obtain ⟨evs, hevs, hlog⟩ : ∃ evs, (evs = [] ∨ ∃ b, evs = [.removed b]) ∧
      s'.shared.app.log c = s.shared.app.log c ++ evs := by
    rcases hlog with he | ⟨b, he⟩
    · exact ⟨[], .inl rfl, by rw [he, List.append_nil]⟩
    · exact ⟨_, .inr ⟨b, rfl⟩, he⟩
  have hran : ∀ j, .ran j ∈ s'.shared.app.log c ↔ .ran j ∈ s.shared.app.log c := by
    intro j
    rw [hlog]
    rcases hevs with rfl | ⟨b, rfl⟩ <;> simp
  have hacc : acceptedFrom T evs = [] := by rcases hevs with rfl | ⟨b, rfl⟩ <;> rfl
  have hsent : sentBy T evs = [] := by rcases hevs with rfl | ⟨b, rfl⟩ <;> rfl
  refine ⟨hhand, fun he hno => ?_, fun hno => ?_, fun hyes => ?_, fun hd => ?_, ?_⟩
  · rw [hran] at hno
    rw [hstate]
    exact h.connected (hest ((hran _).mp he.2)) hno
  · rw [hran] at hno
    rw [hlog, sentBy_append, acceptedFrom_append, hacc, hsent, hway, List.append_nil,
      List.append_nil]
    exact h.before hno
  · rw [hran] at hyes
    rw [hlog, sentBefore_closed hyes, acceptedFrom_append, hacc, List.append_nil, hstate]
    exact h.after hyes
  · rw [hlog]
    exact (h.drained (hdrain.mp hd)).append hacc
  · rw [hlog]
    refine h.closes.append fun pre d post heq => ?_
    rcases hevs with rfl | ⟨b, rfl⟩
    · simp at heq
    · rw [List.singleton_eq_append_iff] at heq
      simp at heq

theorem tracked_step {s s' : State P} {b : ThreadId × Choice Code (Io E)}
    (hr : (lts cfg poller).ReachIf (fun s b => Undisturbed T c s b ∧ SendsRun T c s b) s)
    (h : T ≠ .loop (s.shared.app.conn c).loop_ → Tracked T c s)
    (hc : Undisturbed T c s b ∧ SendsRun T c s b) (hs : (lts cfg poller).step s b = some s')
    (hT : T ≠ .loop (s'.shared.app.conn c).loop_) : Tracked T c s' := by
  obtain ⟨t, ch⟩ := b
  have htold := told hr
  cases step_conn hs (base hr) (wrapped hr) c with
  | @piece k _ _ _ _ ht hch hruns hlog hs' =>
      subst hch
      have hl := (connRuns_const hruns).1
      rw [hl] at hT
      have hmem : TcpConnection.piece c k ∈ s.stack t := by
        rw [ht]
        exact List.mem_cons_self
      obtain ⟨hhand, hconv⟩ := message_step hs (sound hr) htold hT (h hT).hand
      refine (h hT).piece hT hhand hconv (armed hr c) (prompt hr) (conserved hr.reach c)
        ((base hr).all.stack t _ hmem _ rfl) (htold.all.stack t _ hmem _ rfl) (fun hk => ?_)
        hc.1 hc.2 ht hruns hlog hs'
      subst hk
      exact nothing_before hr ht
  | idle hi hstack hcode =>
      obtain ⟨r, hx⟩ := hi.conn
      have hl : (s'.shared.app.conn c).loop_ = (s.shared.app.conn c).loop_ := by rw [hx]
      rw [hl] at hT
      obtain ⟨hhand, hconv⟩ := message_step hs (sound hr) htold hT (h hT).hand
      refine (h hT).idle (by rw [HandedOver, hl]; exact hhand) (by rw [hx])
        (onTheWay_idle hconv htold hT hl hcode) (fun hest => ?_) ?_ hi.log
      · refine ⟨Nat.lt_of_not_le fun hle => ?_, hest⟩
        rw [(base hr).app.fresh c hle] at hest
        cases hest
      · rw [Draining, Draining, hl]
        exact hstack _ _ rfl
  | new _ _ hlog => exact tracked_unborn (base (hr.step hc hs)) hlog

/-- Along every run in which nothing but `T` closes the connection, and the loop
has run what `T` sent when `shutdown()` stores `kDisconnecting`: the write side
is shut down only after every byte `T` sent was handed to the socket. -/
theorem graceful_close_delivers {s : State P}
    (h : (lts cfg poller).ReachIf (fun s b => Undisturbed T c s b ∧ SendsRun T c s b) s)
    (hT : T ≠ .loop (s.shared.app.conn c).loop_) : ClosesDelivered T (s.shared.app.log c) := by
  refine (run_inv (I := fun s => T ≠ .loop (s.shared.app.conn c).loop_ → Tracked T c s) h
    (fun _ => tracked_unborn base_started rfl) (fun hr hI hc hs => tracked_step hr hI hc hs)
    hT).closes

/-- What another thread sends. -/
def goodbye : Message := ⟨.user 1, ⟨[98, 121, 101], by decide⟩⟩

/-- Thread 1 passes the message to `send()`. -/
def sending : List (ThreadId × Choice Code (Io (List (ChannelId × Events)))) :=
  [(.user 1, .call (.conn 0 (.send goodbye))), (.user 1, .app .none), (.user 1, .go),
    (.user 1, .go), (.user 1, .moved 8)]

/-- Thread 1 calls `shutdown()`. -/
def shuttingDown : List (ThreadId × Choice Code (Io (List (ChannelId × Events)))) :=
  [(.user 1, .call (.conn 0 .shutdown)), (.user 1, .app .none), (.user 1, .app .none),
    (.user 1, .go), (.user 1, .go), (.user 1, .moved 8)]

/-- The loop runs the functor of `send()` before thread 1 shuts down. -/
theorem graceful_close_delivers_goodbye :
    ∃ s : State (List ChannelId), .shutdownWrite [] ∈ s.shared.app.log 0 ∧
      (.user 1 : ThreadId) ≠ .loop (s.shared.app.conn 0).loop_ ∧
      ClosesDelivered (.user 1) (s.shared.app.log 0) := by
  obtain ⟨s, hs, hp⟩ := Lts.exists_reachIf (lts echoConfig anyPoller)
    (fun s b => Undisturbed (.user 1) 0 s b ∧ SendsRun (.user 1) 0 s b)
    ((connecting ++ sending).append [(.loop 0, .ret), (.loop 0, .go), (.loop 0, .go),
      (.loop 0, .app (.sent (some 3))), (.loop 0, .app .none), (.loop 0, .ret)] ++
      shuttingDown ++ [(.loop 0, .go), (.loop 0, .poll (.poller []) 0), (.loop 0, .moved 8),
      (.loop 0, .go), (.loop 0, .go), (.loop 0, .app .none)])
    (fun s => decide (.shutdownWrite [] ∈ s.shared.app.log 0)) rfl (by decide +kernel)
  exact ⟨s, of_decide_eq_true hp, by simp, graceful_close_delivers hs (by simp)⟩

/-- It does not: the message is dropped, and the write side closed without it. -/
theorem shutdown_overtakes_send :
    ¬ ∀ (s : State (List ChannelId)) (T : ThreadId) (c : ConnId),
      (lts echoConfig anyPoller).ReachIf (Undisturbed T c) s →
      T ≠ .loop (s.shared.app.conn c).loop_ → ClosesDelivered T (s.shared.app.log c) := by
  intro h
  obtain ⟨s, hs, hp⟩ := Lts.exists_reachIf (lts echoConfig anyPoller) (Undisturbed (.user 1) 0)
    ((connecting ++ sending ++ shuttingDown).append [(.loop 0, .ret), (.loop 0, .go), (.loop 0, .go),
      (.loop 0, .app (.sent none)), (.loop 0, .go), (.loop 0, .app .none)])
    (fun s => decide (s.shared.app.log 0 = [.ran .connectEstablished, .ran .connectionCallback,
      .callback .connection, .ran (.send goodbye), .ran .shutdown, .ran .storeShutdown,
      .ran (.sendInLoop goodbye), .ran .shutdownInLoop] ++ [.shutdownWrite []])) rfl
    (by decide +kernel)
  obtain ⟨acc₁, acc₂, hacc, hall, _⟩ := h s (.user 1) 0 hs (by simp) _ _ [] (of_decide_eq_true hp)
  have hnil : acc₁ = [] := (List.append_eq_nil_iff.mp hacc.symm).1
  rw [hnil] at hall
  cases hall

end TcpServer

end Muduox.Net
