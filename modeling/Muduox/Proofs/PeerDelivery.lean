import Muduox.Net.PeerSocket
import Muduox.Proofs.DispatchOrder

/-!
# The peer's bytes before the disconnect

`handleClose` is reached in four ways: by the end of the stream, which `readv`
returns only when nothing is unread; by `EPOLLHUP`; by an error; and by
`forceClose`. The second is the one that does not wait for the data:
`handleEvent` calls the close handler before the read handler, and the kernel
reports the hang-up as soon as both directions are shut down. The third comes
without any error of the socket when `handleWrite` has nothing to send. Without
these two (`UnreadFirst`), whatever stands for a disconnect finds the socket
drained.

That `readv` does find something to return takes the order of dispatch: the data
`epoll_wait` reported is still there when `handleRead` runs, because only
`handleRead` takes it, and it is called once for each report.
-/

namespace Muduox.Net

/-- The peer closed, and nothing it sent is left in the kernel. -/
def PeerSocket.Drained (k : PeerSocket) : Prop := k.fin = true ∧ k.unread = []

/-- Neither an error nor urgent data. -/
def PeerSocket.Ordinary (k : PeerSocket) : Prop := k.failed = false ∧ k.urgent = false

/-- What a peer's step makes of its socket. -/
inductive PeerSocket.Acts (k : PeerSocket) : PeerSocket → Prop
  | send {d : List UInt8} (hfin : k.fin = false) :
      Acts k { k with sent := k.sent ++ d, unread := k.unread ++ d }
  | urge : Acts k { k with urgent := true }
  | close : Acts k { k with fin := true }
  | fail : Acts k { k with failed := true }

namespace PeerSocket.Acts

variable {k k' : PeerSocket}

theorem ordinary (h : k.Acts k') (ho : k'.Ordinary) : k.Ordinary := by
  cases h with
  | urge => cases ho.2
  | fail => cases ho.1
  | send | close => exact ho

theorem drained (h : k.Acts k') (hd : k.Drained) : k'.Drained := by
  cases h with
  | send hfin =>
      rw [Drained, hfin] at hd
      cases hd.1
  | close => exact ⟨rfl, hd.2⟩
  | urge | fail => exact hd

theorem readable (h : k.Acts k') (hr : k.readable = true) : k'.readable = true := by
  cases h with
  | send =>
      simp only [PeerSocket.readable, Bool.or_eq_true, Bool.not_eq_true',
        List.isEmpty_eq_false_iff] at hr ⊢
      exact hr.imp_left (Or.imp_left fun hne => List.append_ne_nil_of_left_ne_nil hne _)
  | urge => exact hr
  | close | fail => simp [PeerSocket.readable]

theorem appended (h : k.Acts k') : k'.appended = k.appended := by
  cases h <;> rfl

theorem announced (h : k.Acts k') : k'.announced = k.announced := by
  cases h <;> rfl

theorem sent (h : k.Acts k') : k.sent <+: k'.sent := by
  cases h with
  | send => exact List.prefix_append _ _
  | urge | close | fail => exact List.prefix_rfl

theorem stream (h : k.Acts k') (hs : k.sent = k.appended ++ k.unread) :
    k'.sent = k'.appended ++ k'.unread := by
  cases h with
  | @send d =>
      show k.sent ++ d = k.appended ++ (k.unread ++ d)
      rw [hs, List.append_assoc]
  | urge | close | fail => exact hs

end PeerSocket.Acts

namespace Peered

open Threads Reactor TcpServer

variable {cfg : ServerConfig}

/-- No hang-up is reported while data is unread, and `handleWrite` has something
to send. -/
def UnreadFirst (s : Peered) : PeerStep → Prop
  | .run t ch =>
      match (s.server.stack t).head?, ch with
      | some (.poll l), .poll (.poller ready) _ =>
          ∀ r ∈ ready, r.2.epollhup = true → ∀ c ∈ s.owner l r.1, (s.socket c).unread = []
      | some (.code (.conn c .handleWrite)), _ =>
          (s.server.shared.app.conn c).channel_.isWriting = true →
            (s.server.shared.app.conn c).outputBuffer_.bytes ≠ []
      | _, _ => True
  | _ => True

instance (s : Peered) (a : PeerStep) : Decidable (s.UnreadFirst a) := by
  unfold UnreadFirst
  split
  · split <;> infer_instance
  · infer_instance

/-- If the disconnect of connection `c` was reported, without an error of its
socket, urgent data or `forceClose`, then the peer had closed, and all it sent was
appended and announced before. -/
def DeliveredFirst (s : Peered) (c : ConnId) : Prop :=
  .ran .handleClose ∈ s.server.shared.app.log c → (s.socket c).failed = false →
    (s.socket c).urgent = false → .ran .storeForceClose ∉ s.server.shared.app.log c →
    (s.socket c).fin = true ∧ (s.socket c).appended = (s.socket c).sent ∧
      ((s.server.shared.app.conn c).messageCallback_ = true →
        (s.socket c).announced = (s.socket c).sent)

/-! ## What stands for a disconnect -/

/-- The pieces that report a disconnect. -/
def hangs : ConnCode → Bool
  | .handleClose | .handleError => true
  | _ => false

/-- How a piece of a connection comes to report one. -/
inductive Hangup (x : TcpConnection) : ConnCode → Io (List (Int × EpollMask)) → Prop
  | eof {d : List UInt8} (h : d = []) : Hangup x .handleRead (.received (.bytes d))
  | readError {e : Int} : Hangup x .handleRead (.received (.error e))
  | writeError {r : Option Nat} (h : x.channel_.isWriting = true) (hr : r = none ∨ r = some 0) :
      Hangup x .handleWrite (.sent r)
  | error : Hangup x .handleError .none
  | force : Hangup x .storeForceClose .none

section Piece

variable {c d : ConnId} {t : ThreadId} {x x' : TcpConnection} {k j : ConnCode}
  {io : Io (List (Int × EpollMask))} {evs : List Event} {next : List (Frame Code)}

theorem connRuns_hangup (h : x.Runs d t k io x' evs next) (hj : hangs j = true) :
    ∀ g ∈ next, ∀ p ∈ g.dest t, p.2 = .conn c j → c = d ∧ Hangup x k io := by
  intro g hg p hp he
  cases h.leaves g hg with
  | @readEof r hr =>
      cases hp
      cases he
      cases r with
      | error e => cases hr
      | bytes d' => exact ⟨rfl, .eof (by simpa [Buffer.returned] using hr)⟩
  | @readError r hr =>
      cases hp
      cases he
      cases r with
      | error e => exact ⟨rfl, .readError⟩
      | bytes d' => exact absurd hr (by simp [Buffer.returned])
  | writeFailed hw hr =>
      cases hp
      cases he
      exact ⟨rfl, .writeError hw hr⟩
  | handleClose =>
      cases hp
      cases he
      exact ⟨rfl, .error⟩
  | forceCloseInLoop =>
      cases hp
      cases he
      exact ⟨rfl, .force⟩
  | _ => cases hp <;> cases he <;> cases hj

/-- What `handleRead` makes of the data it is given. -/
theorem connRuns_read {E : Type} {b : List UInt8}
    (h : x.Runs (E := E) d t .handleRead (.received (.bytes b)) x' evs next) :
    x'.inputBuffer_.bytes = x.inputBuffer_.bytes ++ b ∧
      (b = [] ∨ x.messageCallback_ = false ∨ .callback .message ∈ evs) := by
  cases h with
  | readMessage _ hb => exact ⟨hb, .inr (.inr List.mem_cons_self)⟩
  | readUnannounced _ hb hm => exact ⟨hb, .inr (.inl hm)⟩
  | readEof hn hb => exact ⟨hb, .inl (by simpa [Buffer.returned] using hn)⟩
  | readError hn => exact absurd hn (by simp [Buffer.returned])

end Piece

/-! ## Drained before the disconnect -/

/-- Neither an error nor urgent data nor `forceClose` ends connection `c`. -/
def Calm (w : ConnId → PeerSocket) (x : TcpServer LoopPoller) (c : ConnId) : Prop :=
  (w c).Ordinary ∧ .ran .storeForceClose ∉ x.log c

/-- Code that reports a disconnect finds the socket drained. -/
def Hangs (w : ConnId → PeerSocket) (_ : ThreadId) (a : Code) (x : TcpServer LoopPoller) : Prop :=
  ∀ c k, a = .conn c k → hangs k = true → Calm w x c → (w c).Drained

/-- So do the events that are still to be handled, and the reports made. -/
structure Reported (w : ConnId → PeerSocket) (x : TcpServer LoopPoller) : Prop where
  pending : ∀ c, (x.conn c).channel_.revents_.error = true ∨
    (x.conn c).channel_.revents_.close = true → Calm w x c → (w c).Drained
  made : ∀ c, .ran .handleClose ∈ x.log c → Calm w x c → (w c).Drained

/-- `handleRead` of connection `c` is on its way. -/
def Due (s : State LoopPoller) (c : ConnId) : Prop :=
  ∃ t, TcpConnection.piece c .handleRead ∈ s.stack t ∨
    .code (.handleEvent (.conn c)) ∈ s.stack t ∧
      (s.shared.app.conn c).channel_.revents_.read = true

theorem Calm.back {w : ConnId → PeerSocket} {x x' : TcpServer LoopPoller} {c : ConnId}
    (h : Calm w x' c) (hext : Extends x x') : Calm w x c :=
  ⟨h.1, fun hmem => h.2 ((hext.log c).subset hmem)⟩

section Step

variable {s : Peered} {s' : State LoopPoller} {t : ThreadId} {c : ConnId}
  {ch : Choice Code (Io (List (Int × EpollMask)))}

/-- A piece that comes to report a disconnect does so on a drained socket. -/
theorem hangup_drained {k : ConnCode} {io : Io (List (Int × EpollMask))}
    {rest : List (Frame Code)} (ht : s.server.stack t = TcpConnection.piece c k :: rest)
    (hag : s.agrees t (.app io) = true) (hc : s.UnreadFirst (.run t (.app io)))
    (hdue : (s.socket c).Ordinary → Due s.server c → (s.socket c).readable = true)
    (hk : Hangs s.socket t (.conn c k) s.server.shared.app)
    (h : Hangup (s.server.shared.app.conn c) k io) (hforce : k ≠ .storeForceClose)
    (hcalm : Calm s.socket s.server.shared.app c) : (s.socket c).Drained := by
  cases h with
  | eof hd =>
      subst hd
      simp only [agrees, ht, List.head?_cons, PeerSocket.receives] at hag
      simp at hag
      exact ⟨hag.2, hag.1⟩
  | readError =>
      simp only [agrees, ht, List.head?_cons, PeerSocket.receives] at hag
      rw [hdue hcalm.1 ⟨t, .inl (by rw [ht]; exact List.mem_cons_self)⟩, hcalm.1.1] at hag
      cases hag
  | writeError hw hr =>
      simp only [agrees, ht, List.head?_cons] at hag
      simp only [UnreadFirst, ht, List.head?_cons] at hc
      rcases hr with rfl | rfl
      · rw [show (s.socket c).sends _ none = (s.socket c).failed from rfl, hcalm.1.1] at hag
        cases hag
      · simp [PeerSocket.sends, hcalm.1.1] at hag
        exact absurd hag (hc hw)
  | error => exact hk c .handleError rfl rfl hcalm
  | force => exact absurd rfl hforce

/-- What `poll` finds of a connection agrees with its socket. -/
theorem polled_reports {l : LoopId} {ready : List (Int × EpollMask)} {place : Nat}
    {rest : List (Frame Code)} {q : LoopPoller × List (ChannelId × Events)} {rev : Events}
    (ht : s.server.stack t = .poll l :: rest)
    (hag : s.agrees t (.poll (.poller ready) place) = true)
    (hc : s.UnreadFirst (.run t (.poll (.poller ready) place)))
    (hq : (s.server.shared.app.poller l).poll ready = some q) (hrev : (.conn c, rev) ∈ q.2) :
    (rev.read = true → (s.socket c).urgent = false → (s.socket c).readable = true) ∧
      (rev.error = true → (s.socket c).failed = true) ∧
      (rev.close = true → (s.socket c).failed = false → (s.socket c).Drained) := by
  obtain ⟨r, hr, e, he, hd, rfl⟩ := LoopPoller.poll_mem hq hrev
  have howner : s.owner l r.1 = some c := by
    obtain ⟨events, data⟩ := e
    subst hd
    simp only [owner, he]
  simp only [agrees, ht, List.head?_cons, List.all_eq_true] at hag
  have hrep := hag r hr
  rw [howner, Option.all_some, PeerSocket.reports] at hrep
  simp only [Bool.and_eq_true] at hrep
  obtain ⟨⟨⟨hread, hpri⟩, herror⟩, hclose⟩ := hrep
  refine ⟨fun h hu => ?_, fun h => ?_, fun h hf => ?_⟩
  · have hrev : (r.2.epollin || r.2.epollpri || r.2.epollrdhup) = true := h
    rw [hu, Bool.or_false] at hpri
    cases hp : r.2.epollpri with
    | true =>
        rw [hp] at hpri
        exact hpri
    | false =>
        rw [hp, Bool.or_false] at hrev
        rw [hrev] at hread
        exact hread
  · rw [show r.2.epollerr = true from h] at herror
    exact herror
  · have hup : r.2.epollhup = true := h
    rw [hup, hf] at hclose
    simp only [UnreadFirst, ht, List.head?_cons] at hc
    have hfin : (s.socket c).fin = true := by
      simp at hclose
      exact hclose.1
    exact ⟨hfin, hc r hr hup c (by rw [howner]; rfl)⟩

/-- The server's step, over sockets that stay as they are. -/
theorem reported_step (hr : (TcpServer.lts cfg epollPoller).Reach s.server)
    (hag : s.agrees t ch = true) (hc : s.UnreadFirst (.run t ch))
    (hdue : ∀ c, (s.socket c).Ordinary → Due s.server c → (s.socket c).readable = true)
    (hs : (TcpServer.lts cfg epollPoller).step s.server (t, ch) = some s')
    (h : AppInv (Reported s.socket) (Hangs s.socket) s.server) :
    AppInv (Reported s.socket) (Hangs s.socket) s' := by
  refine h.step hs (sound hr) (fun {a io x next rest} ht hch hx ha => ?_)
    (fun {l e place r rest} ht hch _ hx => ?_) fun {a} _ hapi c k he hk => ?_
  · subst hch
    have hruns := exec_runs hx
    have hbound : Bound t a s.server.shared.app :=
      (base hr).all.stack t _ (by rw [ht]; exact List.mem_cons_self) _ rfl
    obtain ⟨_, _, hext⟩ := runs_base hruns (base hr).app hbound
    refine ⟨⟨fun c hrev hcalm => ?_, fun c hmade hcalm => ?_⟩, fun g hg p hp c k he hk hcalm => ?_,
      fun u b hb c k he hk hcalm => hb c k he hk (hcalm.back hext)⟩
    · rcases runs_revents hruns (c := c) with hsame | hnone
      · rw [hsame] at hrev
        exact h.app.pending c hrev (hcalm.back hext)
      · rw [hnone] at hrev
        rcases hrev with hrev | hrev <;> cases hrev
    · rcases runs_mem_ran hruns hmade with hold | rfl
      · exact h.app.made c hold (hcalm.back hext)
      · exact ha c _ rfl rfl (hcalm.back hext)
    · -- What a piece leaves, and what `handleEvent` calls.
      cases hruns with
      | @conn d j _ y evs next hpiece =>
          obtain ⟨rfl, hhang⟩ := connRuns_hangup hpiece hk g hg p hp he
          refine hangup_drained ht hag hc (hdue c) ha hhang ?_ (hcalm.back hext)
          rintro rfl
          refine hcalm.2 ?_
          rw [setConn_log_self]
          exact List.mem_append_right _ List.mem_cons_self
      | handleEvent =>
          rcases mem_handleEvent hg with ⟨_, rfl⟩ | ⟨d, j, rfl, rfl, hj⟩ <;> cases hp <;> cases he
          rcases hj with ⟨hrev, rfl⟩ | ⟨hrev, rfl⟩ | ⟨_, rfl⟩ | ⟨_, rfl⟩
          · exact h.app.pending _ (.inl hrev) (hcalm.back hext)
          · exact h.app.pending _ (.inr hrev) (hcalm.back hext)
          · cases hk
          · cases hk
      | removeConnectionInLoop =>
          rw [mem_removeConnectionInLoop hg] at hp
          cases hp
          cases he
          cases hk
      | _ =>
          simp [TcpServer.listen, TcpServer.newConnection] at hg <;> subst hg <;> cases hp <;>
            cases he <;> cases hk
  · subst hch
    have hext := (poll_base hx (base hr).app).2.2
    refine ⟨⟨fun c hrev hcalm => ?_, fun c hmade hcalm => ?_⟩, fun b hb c k he => ?_,
      fun u b hb c k he hk hcalm => hb c k he hk (hcalm.back hext)⟩
    · obtain ⟨ready, q, rfl, hq, _, ⟨_, hsame⟩ | ⟨rev, hmem, hnew⟩⟩ := poll_conn hx c
      · rw [hsame] at hrev
        exact h.app.pending c hrev (hcalm.back hext)
      · obtain ⟨q', hq', rfl⟩ := Option.map_eq_some_iff.mp hq
        obtain ⟨_, herror, hclose⟩ := polled_reports ht hag hc hq' hmem
        rw [hnew] at hrev
        rcases hrev with hrev | hrev
        · rw [hcalm.1.1] at herror
          cases herror hrev
        · exact hclose hrev hcalm.1.1
    · obtain ⟨_, _, _, _, hrev, _⟩ := poll_revents hx
      rw [show r.1.log = s.server.shared.app.log from hrev.log] at hmade
      exact h.app.made c hmade (hcalm.back hext)
    · obtain ⟨_, rfl⟩ := poll_codes hx b hb
      cases he
  · subst he
    cases k <;> first | exact absurd hapi Bool.false_ne_true | cases hk

/-- `handleRead` comes to be due by a report of `poll`. -/
theorem due_step (hr : (TcpServer.lts cfg epollPoller).Reach s.server)
    (hag : s.agrees t ch = true) (hc : s.UnreadFirst (.run t ch))
    (hu : (s.socket c).urgent = false) (hdue : Due s.server c → (s.socket c).readable = true)
    (hs : (TcpServer.lts cfg epollPoller).step s.server (t, ch) = some s') (h : Due s' c) :
    (s.socket c).readable = true := by
  obtain ⟨f, rest, x, next, ht, hruns, rfl⟩ := step_runs hs
  obtain ⟨u, hon⟩ := h
  have hwf : Wrapped f := (wrapped hr).stack t f (by rw [ht]; exact List.mem_cons_self)
  -- Frames that serve the connection come from `handleEvent` or from `poll`.
  have hold : (∀ g ∈ next, serves c .handleRead g = false) →
      ((x.app.conn c).channel_.revents_.read = true →
        (s.server.shared.app.conn c).channel_.revents_.read = true) →
      (s.socket c).readable = true := by
    intro hno hrev
    refine hdue ⟨u, ?_⟩
    rcases hon with hon | ⟨hon, hread⟩
    · rcases Config.mem_of_mem_resume ht hon with ⟨_, hnew⟩ | hon
      · exact absurd (hno _ hnew) (by simp [serves])
      · exact .inl hon
    · rcases Config.mem_of_mem_resume ht hon with ⟨_, hnew⟩ | hon
      · exact absurd (hno _ hnew) (by simp [serves])
      · exact .inr ⟨hon, hrev hread⟩
  have hfunctor : ∀ {cb : Frame Code}, (cb = .user ∨ ∃ a, cb = .code a ∧ Job a) →
      ∀ g ∈ [cb], serves c .handleRead g = false := by
    rintro cb hcb g hg
    rw [List.mem_singleton.mp hg]
    rcases hcb with rfl | ⟨a, rfl, ha⟩
    · rfl
    · exact job_serves ha rfl
  cases hruns with
  | @call a ha =>
      refine hold (fun g hg => ?_) id
      simp only [List.mem_cons, List.not_mem_nil, or_false] at hg
      rcases hg with rfl | rfl
      · exact api_serves ha rfl
      · rfl
  | @code a io y next hx =>
      have hserver := exec_runs hx
      have hrev : (y.conn c).channel_.revents_.read = true →
          (s.server.shared.app.conn c).channel_.revents_.read = true := by
        intro hread
        rcases runs_revents hserver (c := c) with hsame | hnone
        · rw [hsame] at hread
          exact hread
        · rw [hnone] at hread
          cases hread
      by_cases hserve : ∃ g ∈ next, serves c .handleRead g = true
      · obtain ⟨g, hg, hsv⟩ := hserve
        obtain ⟨rfl, _, hread⟩ := runs_serves hserver rfl hg hsv
        exact hdue ⟨t, .inr ⟨by rw [ht]; exact List.mem_cons_self, hread⟩⟩
      · exact hold (fun g hg => Bool.eq_false_iff.mpr fun hsv => hserve ⟨g, hg, hsv⟩) hrev
  | runHere => exact hold (hfunctor (wrapped_closed.run hwf).2) id
  | functor => exact hold (hfunctor hwf) id
  | polling hx =>
      obtain ⟨_, _, _, hq, hact, _⟩ := poll_conn hx c
      obtain ⟨_, _, rfl⟩ := Option.map_eq_some_iff.mp hq
      cases hact
  | @polled l _ _ codes place hx =>
      obtain ⟨ready, q, rfl, hq, hact, ⟨hno, hsame⟩ | ⟨rev, hmem, hnew⟩⟩ := poll_conn hx c
      · refine hold (fun g hg => Bool.eq_false_iff.mpr fun hsv => ?_) fun hread => ?_
        · obtain ⟨p, active⟩ := q
          obtain ⟨active, rfl, rfl⟩ := Option.map_eq_some_iff.mp hact.symm
          rcases mem_iteration hg with ⟨b, hb, rfl⟩ | rfl | rfl | rfl
          · obtain ⟨a, ha, rfl⟩ := List.mem_map.mp hb
            obtain ⟨k, rev⟩ := a
            rcases serves_eq hsv with he | he
            · cases he
            · cases he
              exact hno rev ha
          all_goals cases hsv
        · rw [← hsame]
          exact hread
      · obtain ⟨q', hq', rfl⟩ := Option.map_eq_some_iff.mp hq
        obtain ⟨hread, _⟩ := polled_reports ht hag hc hq' hmem
        rcases hon with hon | ⟨_, hr'⟩
        · rcases Config.mem_of_mem_resume ht hon with ⟨_, hg⟩ | hon
          · rcases mem_iteration hg with ⟨b, hb, he⟩ | he | he | he <;> cases he
            obtain ⟨_, he⟩ := polled_handleEvent hx hb
            cases he
          · exact hdue ⟨u, .inl hon⟩
        · refine hread ?_ hu
          rw [← hnew]
          exact hr'
  | doPendingFunctors =>
      refine hold (fun g hg => ?_) id
      obtain ⟨_, _, rfl⟩ := List.mem_map.mp hg
      rfl
  | _ => exact hold (by simp [serves]) id

theorem epollPoller_once : epollPoller.Once := by
  intro p xs e p' active h
  obtain ⟨q, hq, heq⟩ := Option.map_eq_some_iff.mp h
  cases heq
  exact LoopPoller.poll_nodup hq

/-- Once `handleRead` has run, none is due. -/
theorem not_due (hr : (TcpServer.lts cfg epollPoller).Reach s.server) {rest : List (Frame Code)}
    (ht : s.server.stack t = TcpConnection.piece c .handleRead :: rest)
    (hs : (TcpServer.lts cfg epollPoller).step s.server (t, ch) = some s') : ¬ Due s' c := by
  obtain ⟨f, rest', x, next, ht', hruns, rfl⟩ := step_runs hs
  rw [ht] at ht'
  cases ht'
  have hbase := base hr
  have hread : ∀ {u g}, g ∈ s.server.stack u → serves c .handleRead g = true →
      u = .loop (s.server.shared.app.conn c).loop_ := by
    intro u g hg hsv
    rcases serves_eq hsv with rfl | rfl
    · have hb : Bound u (.conn c .handleRead) s.server.shared.app := hbase.all.stack u _ hg _ rfl
      exact hb.2.2 rfl
    · have hb : Bound u (.handleEvent (.conn c)) s.server.shared.app := hbase.all.stack u _ hg _ rfl
      exact hb.1
  have htop : TcpConnection.piece c .handleRead ∈ s.server.stack t := by
    rw [ht]
    exact List.mem_cons_self
  have hnone : ∀ u, ∀ g ∈ (s.server.resume t x next rest).stack u,
      serves c .handleRead g = false := by
    intro u g hg
    by_cases hu : u = t
    · subst hu
      rw [Config.resume_stack_self] at hg
      rcases List.mem_append.mp hg with hg | hg
      · cases hruns with
        | code hx =>
            have hserver : TcpServer.Runs cfg epollPoller u s.server.shared.app
                (.conn c .handleRead) _ _ next := exec_runs hx
            refine Bool.eq_false_iff.mpr fun hsv => ?_
            cases (runs_serves hserver rfl hg hsv).1
      · have hord := alone hr epollPoller_once (c := c) (k := .handleRead) rfl u
        rw [ht, List.pairwise_cons] at hord
        exact hord.1 g hg (by simp [serves])
    · rw [Config.resume_stack_of_ne _ hu] at hg
      refine Bool.eq_false_iff.mpr fun hsv => hu ?_
      rw [hread hg hsv, hread htop (by simp [serves])]
  rintro ⟨u, hu | ⟨hu, _⟩⟩ <;> exact absurd (hnone u _ hu) (by simp [serves])

end Step

/-! ## The stream -/

/-- What is known of the sockets along a run. -/
structure Delivering (x : State LoopPoller) (w : ConnId → PeerSocket) : Prop where
  code : AppInv (Reported w) (Hangs w) x
  due : ∀ c, (w c).Ordinary → Due x c → (w c).readable = true
  sent : ∀ c, (w c).sent = (w c).appended ++ (w c).unread
  announced : ∀ c, (w c).announced = (w c).appended ∨
    Established x.shared.app c ∧ (x.shared.app.conn c).messageCallback_ = false

theorem mono {w w' : ConnId → PeerSocket} {x : State LoopPoller}
    (h : AppInv (Reported w) (Hangs w) x)
    (hord : ∀ c, (w' c).Ordinary → (w c).Ordinary)
    (hdrained : ∀ c, (w c).Drained → (w' c).Drained) :
    AppInv (Reported w') (Hangs w') x := by
  have hback : ∀ {y : TcpServer LoopPoller} {c}, Calm w' y c → Calm w y c :=
    fun hcalm => ⟨hord _ hcalm.1, hcalm.2⟩
  have hcode : ∀ {u b}, Hangs w u b x.shared.app → Hangs w' u b x.shared.app :=
    fun hb c k he hk hcalm => hdrained c (hb c k he hk (hback hcalm))
  exact ⟨⟨fun c hrev hcalm => hdrained c (h.app.pending c hrev (hback hcalm)),
      fun c hmade hcalm => hdrained c (h.app.made c hmade (hback hcalm))⟩,
    fun t f hf p hp => hcode (h.all.stack t f hf p hp),
    fun l q hq p hp => hcode (h.all.queue l q hq p hp)⟩

section Stream

variable {s : Peered} {s' : State LoopPoller} {t : ThreadId} {c : ConnId}
  {ch : Choice Code (Io (List (Int × EpollMask)))}

/-- The socket of a connection whose `handleRead` was given data; no other
changes. -/
theorem sockets_eq (s : Peered) (s' : State LoopPoller) (t : ThreadId)
    (ch : Choice Code (Io (List (Int × EpollMask)))) :
    s.sockets t ch s' = s.socket ∨
      ∃ c rest d, s.server.stack t = TcpConnection.piece c .handleRead :: rest ∧
        ch = .app (.received (.bytes d)) ∧
        s.sockets t ch s' = Function.update s.socket c ((s.socket c).read d
          ((s'.shared.app.conn c).inputBuffer_.bytes.drop
            (s.server.shared.app.conn c).inputBuffer_.bytes.length)
          (decide (.callback .message ∈
            (s'.shared.app.log c).drop (s.server.shared.app.log c).length))) := by
  unfold sockets
  split
  · next c d htop =>
      obtain ⟨rest, ht⟩ := List.head?_eq_some_iff.mp htop
      exact .inr ⟨c, rest, d, ht, rfl, rfl⟩
  · exact .inl rfl

theorem read_eq (hr : (TcpServer.lts cfg epollPoller).Reach s.server) {d : List UInt8}
    {rest : List (Frame Code)} (ht : s.server.stack t = TcpConnection.piece c .handleRead :: rest)
    (hs : (TcpServer.lts cfg epollPoller).step s.server (t, .app (.received (.bytes d))) = some s') :
    (s'.shared.app.conn c).inputBuffer_.bytes =
        (s.server.shared.app.conn c).inputBuffer_.bytes ++ d ∧
      ∃ evs, s'.shared.app.log c = s.server.shared.app.log c ++ .ran .handleRead :: evs ∧
        (d = [] ∨ (s.server.shared.app.conn c).messageCallback_ = false ∨
          .callback .message ∈ evs) := by
  cases step_conn hs (base hr) (wrapped hr) c with
  | @piece k io evs next rest' ht' hch hruns hlog =>
      rw [ht] at ht'
      cases ht'
      cases hch
      obtain ⟨hbytes, hmsg⟩ := connRuns_read hruns
      exact ⟨hbytes, evs, hlog, hmsg⟩
  | idle _ _ hcode => exact absurd ht (hcode _ _)
  | new hc =>
      have hb : Bound t (.conn c .handleRead) s.server.shared.app :=
        (base hr).all.stack t _ (by rw [ht]; exact List.mem_cons_self) _ rfl
      exact absurd hb.1 (by rw [hc]; exact Nat.lt_irrefl _)

/-- `messageCallback_` is set for good. -/
theorem unset_step (hr : (TcpServer.lts cfg epollPoller).Reach s.server)
    (hs : (TcpServer.lts cfg epollPoller).step s.server (t, ch) = some s')
    (hest : Established s.server.shared.app c)
    (h : (s.server.shared.app.conn c).messageCallback_ = false) :
    Established s'.shared.app c ∧ (s'.shared.app.conn c).messageCallback_ = false := by
  refine ⟨(step_extends hs (base hr)).established hest, ?_⟩
  cases step_conn hs (base hr) (wrapped hr) c with
  | piece _ _ hruns => rw [(connRuns_const hruns).2.2.1, h]
  | idle hi =>
      obtain ⟨r, hx⟩ := hi.conn
      rw [hx, h]
  | new hc => exact absurd hest.1 (by rw [hc]; exact Nat.lt_irrefl _)

theorem forall_socket {R : ConnId → PeerSocket → Prop} {w : ConnId → PeerSocket} {k : PeerSocket}
    (hself : R c k) (hother : ∀ b, R b (w b)) : ∀ b, R b (Function.update w c k b) :=
  (Function.forall_update_iff w fun b k => R b k).mpr ⟨hself, fun b _ => hother b⟩

/-- A step that reads nothing. -/
theorem Delivering.same (h : Delivering s.server s.socket)
    (hr : (TcpServer.lts cfg epollPoller).Reach s.server) (hag : s.agrees t ch = true)
    (hc : s.UnreadFirst (.run t ch))
    (hs : (TcpServer.lts cfg epollPoller).step s.server (t, ch) = some s') :
    Delivering s' s.socket := by
  refine ⟨reported_step hr hag hc h.due hs h.code,
    fun c hord => due_step hr hag hc hord.2 (h.due c hord) hs, h.sent, fun c => ?_⟩
  rcases h.announced c with hsame | ⟨hest, hno⟩
  · exact .inl hsame
  · exact .inr (unset_step hr hs hest hno)

/-- `handleRead` of connection `c` got `d`, from the front of what was unread. -/
theorem Delivering.read {w : ConnId → PeerSocket} {d later : List UInt8} {announces : Bool}
    (h : Delivering s' w) (hfront : (w c).unread = d ++ later) (hdue : ¬ Due s' c)
    (hmsg : d = [] ∨ (Established s'.shared.app c ∧
      (s'.shared.app.conn c).messageCallback_ = false) ∨ announces = true) :
    Delivering s' (Function.update w c ((w c).read d d announces)) := by
  refine ⟨mono h.code ?_ ?_, ?_, ?_, ?_⟩
  · exact forall_socket (R := fun b k => k.Ordinary → (w b).Ordinary) id fun _ => id
  · refine forall_socket (R := fun b k => (w b).Drained → k.Drained) (fun hd => ⟨hd.1, ?_⟩) fun _ => id
    rw [PeerSocket.read, hd.2, List.drop_nil]
  · exact forall_socket (R := fun b k => k.Ordinary → Due s' b → k.readable = true)
      (fun _ hd => absurd hd hdue) h.due
  · refine forall_socket (R := fun _ k => k.sent = k.appended ++ k.unread) ?_ h.sent
    show (w c).sent = ((w c).appended ++ d) ++ (w c).unread.drop d.length
    rw [h.sent c, hfront, List.drop_left, List.append_assoc]
  · refine forall_socket (R := fun b k => k.announced = k.appended ∨
      Established s'.shared.app b ∧ (s'.shared.app.conn b).messageCallback_ = false) ?_ h.announced
    show (if announces then (w c).appended ++ d else (w c).announced) = (w c).appended ++ d ∨ _
    rcases hmsg with rfl | hno | hyes
    · rw [List.append_nil]
      cases announces with
      | true => exact .inl rfl
      | false => exact h.announced c
    · exact .inr hno
    · rw [hyes]
      exact .inl rfl

theorem delivering_run (hr : (TcpServer.lts cfg epollPoller).Reach s.server)
    (hag : s.agrees t ch = true) (hc : s.UnreadFirst (.run t ch))
    (hs : (TcpServer.lts cfg epollPoller).step s.server (t, ch) = some s')
    (h : Delivering s.server s.socket) : Delivering s' (s.sockets t ch s') := by
  have hsame := h.same hr hag hc hs
  rcases sockets_eq s s' t ch with heq | ⟨c, rest, d, ht, rfl, heq⟩
  · rw [heq]
    exact hsame
  · obtain ⟨hbytes, evs, hlog, hmsg⟩ := read_eq hr ht hs
    have hb : Bound t (.conn c .handleRead) s.server.shared.app :=
      (base hr).all.stack t _ (by rw [ht]; exact List.mem_cons_self) _ rfl
    have hfront : d <+: (s.socket c).unread := by
      simp only [agrees, ht, List.head?_cons, PeerSocket.receives, Bool.and_eq_true] at hag
      exact List.isPrefixOf_iff_prefix.mp hag.1
    obtain ⟨later, hlater⟩ := hfront
    rw [hbytes, List.drop_left, hlog, List.drop_left] at heq
    rw [heq]
    refine hsame.read hlater.symm (not_due hr ht hs) ?_
    rcases hmsg with hd | hno | hmem
    · exact .inl hd
    · exact .inr (.inl (unset_step hr hs (hb.2.1 (by simp)) hno))
    · exact .inr (.inr (decide_eq_true (List.mem_cons_of_mem _ hmem)))

/-- A peer's step leaves the server as it is. -/
theorem Delivering.peer {w : ConnId → PeerSocket} {k : PeerSocket} (h : Delivering s' w)
    (hk : (w c).Acts k) : Delivering s' (Function.update w c k) := by
  refine ⟨mono h.code ?_ ?_, ?_, ?_, ?_⟩
  · exact forall_socket (R := fun b k => k.Ordinary → (w b).Ordinary) hk.ordinary fun _ => id
  · exact forall_socket (R := fun b k => (w b).Drained → k.Drained) hk.drained fun _ => id
  · exact forall_socket (R := fun b k => k.Ordinary → Due s' b → k.readable = true)
      (fun ho hd => hk.readable (h.due c (hk.ordinary ho) hd)) h.due
  · exact forall_socket (R := fun _ k => k.sent = k.appended ++ k.unread)
      (hk.stream (h.sent c)) h.sent
  · refine forall_socket (R := fun b k => k.announced = k.appended ∨
      Established s'.shared.app b ∧ (s'.shared.app.conn b).messageCallback_ = false) ?_ h.announced
    rw [hk.announced, hk.appended]
    exact h.announced c

end Stream

/-! ## Along a run -/

theorem step_run {s s' : Peered} {t : ThreadId} {ch : Choice Code (Io (List (Int × EpollMask)))}
    (h : (lts cfg).step s (.run t ch) = some s') :
    s.agrees t ch = true ∧
      (TcpServer.lts cfg epollPoller).step s.server (t, ch) = some s'.server ∧
      s'.socket = s.sockets t ch s'.server := by
  simp only [lts, step] at h
  split at h
  · next hag =>
      obtain ⟨x, hx, rfl⟩ := Option.map_eq_some_iff.mp h
      exact ⟨hag, hx, rfl⟩
  · cases h

/-- A step that is not the server's is a peer's. -/
theorem step_peer {s s' : Peered} {a : PeerStep} (h : (lts cfg).step s a = some s')
    (ha : ∀ t ch, a ≠ .run t ch) :
    ∃ c k, (s.socket c).Acts k ∧ s' = s.setSocket c k := by
  cases a with
  | run t ch => exact absurd rfl (ha t ch)
  | send c d =>
      simp only [lts, step] at h
      split at h
      · cases h
      · next hfin =>
          cases h
          exact ⟨c, _, .send (Bool.not_eq_true _ ▸ hfin), rfl⟩
  | urge c =>
      simp only [lts, step] at h
      split at h <;> cases h
      exact ⟨c, _, .urge, rfl⟩
  | close c =>
      cases h
      exact ⟨c, _, .close, rfl⟩
  | fail c =>
      cases h
      exact ⟨c, _, .fail, rfl⟩

/-- The server's part of a run is a run of the server. -/
theorem reach_server {C : Peered → PeerStep → Prop} {s : Peered} (h : (lts cfg).ReachIf C s) :
    (TcpServer.lts cfg epollPoller).Reach s.server := by
  induction h with
  | init hs => exact .init (by rw [hs]; rfl)
  | @step s s' a _ _ hs ih =>
      cases a with
      | run t ch => exact ih.step (step_run hs).2.1
      | _ =>
          obtain ⟨c, k, -, rfl⟩ := step_peer hs (by simp)
          exact ih

theorem delivering_step {s s' : Peered} {a : PeerStep}
    (hr : (TcpServer.lts cfg epollPoller).Reach s.server) (hc : s.UnreadFirst a)
    (hs : (lts cfg).step s a = some s') (h : Delivering s.server s.socket) :
    Delivering s'.server s'.socket := by
  cases a with
  | run t ch =>
      obtain ⟨hag, hx, hw⟩ := step_run hs
      rw [hw]
      exact delivering_run hr hag hc hx h
  | _ =>
      obtain ⟨c, k, hk, rfl⟩ := step_peer hs (by simp)
      exact h.peer hk

theorem delivering {s : Peered} (h : (lts cfg).ReachIf UnreadFirst s) :
    Delivering s.server s.socket := by
  refine h.inv_of (K := fun s => (TcpServer.lts cfg epollPoller).Reach s.server)
    (I := fun s => Delivering s.server s.socket) (fun _ hr => reach_server hr) (fun s hs => ?_)
    fun s a s' hr hI hc hs => ?_
  · rw [show s = _ from hs]
    refine ⟨⟨⟨fun c hrev => ?_, fun c hmade => (by cases hmade)⟩, fun t f hf p hp c k he => ?_,
      fun _ _ hq => (by cases hq)⟩, fun c _ hdue => ?_, fun _ => rfl, fun _ => .inl rfl⟩
    · rcases hrev with hrev | hrev <;> cases hrev
    · rw [started_dest hf p hp] at he
      cases he
    · obtain ⟨t, ht | ⟨_, hrev⟩⟩ := hdue
      · cases started_dest ht _ rfl
      · cases hrev
  · exact delivering_step hr hc hs hI

/-- Along every run in which a hang-up is reported only when nothing is unread,
and `handleWrite` has something to send, all that a peer sent before it closed is
appended and announced before the disconnect is reported. -/
theorem delivered_first {s : Peered} (h : (lts cfg).ReachIf UnreadFirst s) (c : ConnId) :
    DeliveredFirst s c := by
  intro hmade hfailed hurgent hforce
  have hI := delivering h
  obtain ⟨hfin, hunread⟩ := hI.code.app.made c hmade ⟨⟨hfailed, hurgent⟩, hforce⟩
  have hsent := hI.sent c
  rw [hunread, List.append_nil] at hsent
  refine ⟨hfin, hsent.symm, fun hmc => ?_⟩
  rcases hI.announced c with hsame | ⟨_, hno⟩
  · rw [hsame, hsent]
  · rw [hmc] at hno
    cases hno

/-- The steps of a server whose peers do nothing. -/
def serverSteps (as : List (ThreadId × Choice Code (Io (List (Int × EpollMask))))) : List PeerStep :=
  as.map fun a => .run a.1 a.2

/-- Connection 0 on descriptor 7, up to the user's code in its first callback. -/
def connected : List PeerStep :=
  serverSteps (listening [] ++ accepting [] [(-1, { epollin := true })])

/-- The peer sends two bytes and closes; both are read before the end of the
stream is. -/
theorem delivered_first_hi :
    ∃ s : Peered, .ran .handleClose ∈ s.server.shared.app.log 0 ∧
      (s.socket 0).sent = [104, 105] ∧ (s.socket 0).announced = [104, 105] := by
  obtain ⟨s, hs, hp⟩ := Lts.exists_reachIf (lts echoConfig) UnreadFirst
    (connected ++ serverSteps [(.loop 0, .ret), (.loop 0, .go), (.loop 0, .go)] ++
      [.send 0 [104, 105], .close 0] ++
      serverSteps [(.loop 0, .poll (.poller [(7, { epollin := true })]) 0), (.loop 0, .app .none),
        (.loop 0, .app (.received (.bytes [104, 105]))), (.loop 0, .ret), (.loop 0, .go),
        (.loop 0, .go), (.loop 0, .poll (.poller [(7, { epollin := true })]) 0),
        (.loop 0, .app .none), (.loop 0, .app (.received (.bytes []))), (.loop 0, .app .none)])
    (fun s => decide (.ran .handleClose ∈ s.server.shared.app.log 0 ∧
      (s.socket 0).sent = [104, 105] ∧ (s.socket 0).failed = false ∧
      (s.socket 0).urgent = false ∧ .ran .storeForceClose ∉ s.server.shared.app.log 0 ∧
      (s.server.shared.app.conn 0).messageCallback_ = true)) rfl (by decide +kernel)
  obtain ⟨hmade, hsent, hfailed, hurgent, hforce, hmc⟩ := of_decide_eq_true hp
  refine ⟨s, hmade, hsent, ?_⟩
  rw [(delivered_first hs 0 hmade hfailed hurgent hforce).2.2 hmc, hsent]

/-- After a local `shutdown` the peer sends a byte and closes: the hang-up is
handled before the byte is read. -/
theorem hangup_before_data :
    ¬ ∀ (s : Peered) (c : ConnId), (lts echoConfig).Reach s → DeliveredFirst s c := by
  intro h
  obtain ⟨s, hs, hp⟩ := Lts.exists_reach (lts echoConfig)
    (connected ++ serverSteps [(.loop 0, .call (.conn 0 .shutdown)), (.loop 0, .app .none),
        (.loop 0, .app .none), (.loop 0, .go), (.loop 0, .app .none), (.loop 0, .ret),
        (.loop 0, .go), (.loop 0, .go)] ++ [.send 0 [33], .close 0] ++
      serverSteps [(.loop 0, .poll (.poller [(7, { epollin := true, epollhup := true })]) 0),
        (.loop 0, .app .none), (.loop 0, .app .none)])
    (fun s => decide (.ran .handleClose ∈ s.server.shared.app.log 0 ∧
      (s.socket 0).sent = [33] ∧ (s.socket 0).appended = [] ∧ (s.socket 0).failed = false ∧
      (s.socket 0).urgent = false ∧ .ran .storeForceClose ∉ s.server.shared.app.log 0)) rfl
    (by decide +kernel)
  obtain ⟨hmade, hsent, happ, hfailed, hurgent, hforce⟩ := of_decide_eq_true hp
  have hall := (h s 0 hs hmade hfailed hurgent hforce).2.1
  rw [hsent, happ] at hall
  cases hall

end Peered

end Muduox.Net
