import Muduox.Proofs.EchoStream
import Muduox.Proofs.TransientErrors
import Muduox.Proofs.WriteInterest

/-!
# The echo server keeps its connections

`handleClose` follows the end of the stream, an error, a hang-up, or
`forceClose`. The echo server calls neither `forceClose` nor `shutdown`, so a
peer that does not close and whose socket does not fail leaves only the calls
that come back empty-handed: a `readv` that finds nothing, and a `send` of
nothing. Without urgent data `handleRead` runs for data that is there (`Up.due`),
and what the echo server sends is never empty (`Fed`), so `isWriting` means that
there is output.
-/

namespace Muduox.Net

/-- The message a piece is called with. -/
def ConnCode.message : ConnCode → Option Message
  | .send m | .sendBuffer m | .sendInLoop m => some m
  | _ => none

namespace TcpServer

open Threads Reactor TcpConnection

variable {P E : Type} {cfg : ServerConfig} {poller : Poller P E} {t : ThreadId}

/-- Code that is not called with an empty message. -/
def Filled (_ : ThreadId) (a : Code) (_ : TcpServer P) : Prop :=
  ∀ c k m, a = .conn c k → k.message = some m → m.bytes.1 ≠ []

theorem filled_piece {c : ConnId} {k : ConnCode} {s : TcpServer P} (h : k.message = none) :
    Filled t (.conn c k) s := by
  intro d j m hj hm
  cases hj
  rw [h] at hm
  cases hm

theorem connRuns_filled {c : ConnId} {x x' : TcpConnection} {k : ConnCode} {io : Io E}
    {evs : List Event} {next : List (Frame Code)} {s s' : TcpServer P}
    (h : x.Runs c t k io x' evs next) (hk : Filled t (.conn c k) s) :
    ∀ g ∈ next, ∀ p ∈ g.dest t, Filled p.1 p.2 s' := by
  have hsame : ∀ {m : Message} {u : ThreadId}, k.message = some m →
      Filled u (.conn c (.sendInLoop m)) s' := by
    intro m u hm d j m' hj hm'
    cases hj
    cases hm'
    exact hk c k m rfl hm
  intro g hg p hp
  cases h.leaves g hg with
  | sendHere =>
      cases hp
      exact hsame rfl
  | sendThere hk =>
      cases hp
      rcases hk with rfl | rfl <;> exact hsame rfl
  | user => cases hp
  | update | remove | removeConnection =>
      cases hp
      exact fun _ _ _ hj => by cases hj
  | _ =>
      cases hp
      exact filled_piece rfl

theorem runs_filled {a : Code} {io : Io E} {s s' : TcpServer P} {next : List (Frame Code)}
    (h : Runs cfg poller t s a io s' next) (ha : Filled t a s) :
    ∀ g ∈ next, ∀ p ∈ g.dest t, Filled p.1 p.2 s' := by
  cases h with
  | conn h => exact connRuns_filled h ha
  | handleEvent =>
      intro g hg p hp
      rcases mem_handleEvent hg with ⟨_, rfl⟩ | ⟨c, k, -, rfl, hk⟩
      · cases hp
        exact fun _ _ _ hj => by cases hj
      · cases hp
        refine filled_piece ?_
        rcases hk with ⟨_, rfl⟩ | ⟨_, rfl⟩ | ⟨_, rfl⟩ | ⟨_, rfl⟩ <;> rfl
  | removeConnectionInLoop =>
      intro g hg p hp
      rw [mem_removeConnectionInLoop hg] at hp
      cases hp
      exact filled_piece rfl
  | newConnection =>
      intro g hg p hp
      cases List.mem_singleton.mp hg
      cases hp
      exact filled_piece rfl
  | _ => simp [Frame.dest, Filled, TcpServer.listen]

theorem filled_step {s s' : State P} {ch : Choice Code (Io E)}
    (hs : (lts cfg poller).step s (t, ch) = some s') (hsound : Sound s)
    (h : AppInv (fun _ => True) Filled s)
    (hcall : ∀ a, ch = .call a → Filled t a s.shared.app) :
    AppInv (fun _ => True) Filled s' := by
  refine h.step hs hsound
    (fun _ _ hx ha => ⟨trivial, runs_filled (exec_runs hx) ha, fun _ _ => id⟩)
    (fun _ _ _ hx => ⟨trivial, fun b hb => ?_, fun _ _ => id⟩) fun hch _ => hcall _ hch
  obtain ⟨_, rfl⟩ := poll_codes hx b hb
  exact fun _ _ _ hj => by cases hj

/-- A message is announced only when there is one. -/
theorem connRuns_announces {c : ConnId} {x x' : TcpConnection} {io : Io E} {evs : List Event}
    {next : List (Frame Code)} (h : x.Runs c t .handleRead io x' evs next)
    (hmsg : .callback .message ∈ evs) : x'.inputBuffer_.bytes ≠ [] := by
  cases h with
  | @readMessage _ r hret hb =>
      show _ ≠ []
      rw [hb]
      intro hnil
      have hnone := (List.append_eq_nil_iff.mp hnil).2
      cases r with
      | error e => cases hret
      | bytes d =>
          rw [show d = [] from hnone] at hret
          cases hret
  | readUnannounced | readEof | readError => cases hmsg

end TcpServer

namespace EchoServer

open Threads Reactor TcpServer TcpConnection

variable {s s' : EchoServer} {t : ThreadId} {ch : Choice Code (Io (List (Int × EpollMask)))}
  {c : ConnId} {l : LoopId} {k : ConnCode} {f : Frame Code} {rest : List (Frame Code)}

/-! ## What is sent -/

/-- Nothing empty is sent. -/
structure Fed (s : EchoServer) : Prop where
  code : AppInv (fun _ => True) Filled s.net.server
  input : ∀ l c, s.callback l = .send c → (s.app.conn c).inputBuffer_.bytes ≠ []

/-- A loop whose callback is about to send is in user code. -/
theorem Echoing.sends (hE : Echoing s) (h : s.callback l = .send c) :
    Serves s.app l c ∧ ∃ rest, s.net.server.stack (.loop l) = .user :: rest := by
  obtain ⟨g, hi⟩ := hE.inside
  have hst := hi.stages l
  rw [h] at hst
  generalize s.net.server.stack (.loop l) = st at hst
  generalize g l = o at hst
  cases hst with
  | begun hc => exact ⟨hc, _, rfl⟩

/-- The pieces of what user code calls that the echo server runs. -/
theorem Echoing.called (hE : Echoing s) (ht : s.net.server.stack t = piece c k :: rest)
    (hk : k.called = true) :
    (∃ m, k = .send m ∨ k = .sendInLoop m) ∨ ∃ n, k = .retrieveInput n := by
  have hquiet : (∀ b ∈ piece c k :: rest, Quiet b) → False := fun hq => by
    rw [hq _ List.mem_cons_self c k rfl] at hk
    cases hk
  cases t with
  | user n => exact (hquiet fun b hb => hE.users n b (by rw [ht]; exact hb)).elim
  | loop l =>
      obtain ⟨g, hi⟩ := hE.inside
      have hst := hi.stages l
      rw [ht] at hst
      generalize hstack : piece c k :: rest = st at hst
      generalize s.callback l = e at hst
      generalize g l = o at hst
      cases hst with
      | idle hq => exact (hquiet fun b hb => hq b (by rw [← hstack]; exact hb)).elim
      | begun => cases hstack
      | @sending _ _ m _ _ _ hk' =>
          cases hstack
          exact .inl ⟨m, hk'⟩
      | @sent _ fs _ _ _ hfs =>
          cases fs with
          | nil => cases hstack
          | cons b fs =>
              obtain ⟨rfl, _⟩ := List.cons.inj hstack
              rcases hfs _ List.mem_cons_self with hb | hb
              · cases hb
              · cases hb
                cases hk
      | retrieving =>
          cases hstack
          exact .inr ⟨_, rfl⟩

theorem Step.call_filled (h : Step s s' t ch) (hF : Fed s) {a : Code} (hch : ch = .call a) :
    Filled t a s.app := by
  subst hch
  obtain ⟨f, rest, y, next, ht, hruns, -⟩ := step_runs h.ran
  cases hruns
  have hallow := h.allowed
  unfold allows at hallow
  rw [ht] at hallow
  cases t with
  | user n => cases hallow
  | loop l =>
      have hgoes : s.goesOn l (.call a) = true := hallow
      unfold goesOn at hgoes
      split at hgoes
      · next he => cases he
      · next _ _ c d m hcb he =>
          cases he
          obtain ⟨-, hm⟩ := Bool.and_eq_true_iff.mp hgoes
          rintro _ _ _ ⟨⟩ ⟨⟩
          rw [beq_iff_eq.mp hm]
          exact hF.input l c hcb
      · next he =>
          cases he
          exact filled_piece rfl
      · cases hgoes

theorem Fed.run (hF : Fed s) (hE : Echoing s) (h : Step s s' t ch) : Fed s' := by
  refine ⟨filled_step h.ran (sound h.reach) hF.code fun a => h.call_filled hF, fun l c hcb => ?_⟩
  obtain ⟨f, rest, y, next, ht, hruns, hs'⟩ := step_runs h.ran
  have hold : s.callback l = .send c → f = .user ∨ t ≠ .loop l := by
    intro hsend
    by_contra hno
    obtain ⟨huser, hl⟩ := not_or.mp hno
    obtain ⟨rest', hst⟩ := (hE.sends hsend).2
    rw [← not_not.mp hl, ht] at hst
    exact huser (List.cons.inj hst).1
  by_cases hl : t = .loop l
  · subst hl
    by_cases huser : f = .user
    · subst huser
      rw [h.callback_user ht, Function.update_self] at hcb
      split at hcb <;> cases hcb
    have hnot : s.callback l ≠ .send c := fun hsend => (hold hsend).elim huser fun hl => hl rfl
    by_cases hread : ∃ d, f = piece d .handleRead
    · obtain ⟨d, rfl⟩ := hread
      cases h.conn d with
      | @piece j io evs next' rest' hj hch hr hlog _ =>
          cases (List.cons.inj (ht.symm.trans hj)).1
          rw [h.callback_read ht hlog] at hcb
          split at hcb
          · next hmsg =>
              rw [Function.update_self] at hcb
              cases hcb
              exact connRuns_announces hr hmsg
          · exact absurd hcb hnot
      | idle _ _ hcode => exact absurd ht (hcode _ _)
      | new hc => exact absurd (h.thread ht rfl).2.1 (hc ▸ Nat.lt_irrefl _)
    · rw [h.callback_other ht (fun hu => absurd hu huser) fun d hd => hread ⟨d, hd⟩] at hcb
      exact absurd hcb hnot
  · rw [h.callback_of_ne hl] at hcb
    obtain ⟨g, hi⟩ := hE.inside
    rw [(hi.same h ht fun k hf => hl ?_).input]
    · exact hF.input l c hcb
    · rw [hf] at ht
      rw [h.mine hE ht, (hE.sends hcb).1.loop]

/-- The echo server calls nothing that loses the interest of a channel. -/
theorem Fed.keepsInterest (hF : Fed s) (hE : Echoing s) : KeepsInterest s.net.server (t, ch) := by
  unfold KeepsInterest
  split
  · next c k io hhead hch =>
      obtain ⟨rest, ht⟩ := List.head?_eq_some_iff.mp hhead
      intro hslip
      have hcalled : k.called = true := by
        unfold Slips at hslip
        split at hslip <;> first
          | rfl
          | exact hslip.elim
      rcases hE.called ht hcalled with ⟨m, rfl | rfl⟩ | ⟨n, rfl⟩
      · exact hslip
      · have hm : Filled t (.conn c (.sendInLoop m)) s.app :=
          hF.code.all.stack t _ (by rw [ht]; exact List.mem_cons_self) _ rfl
        unfold Slips at hslip
        split at hslip
        · next he => cases he
        · next he =>
            cases he
            exact hm c _ _ rfl rfl hslip.2.2
        · next he => cases he
        · next he => cases he
        · exact hslip
      · exact hslip
  · trivial

/-! ## One connection -/

/-- The peer has not closed and sent no urgent data, and no call on the socket has
failed. -/
def Held (k : PeerSocket) : Prop := k.fin = false ∧ k.Ordinary

/-- What is known of a connection whose peer holds it. -/
structure Up (s : EchoServer) (c : ConnId) : Prop where
  code : AppInv (Open c) (Spares c) s.net.server
  due : Peered.Due s.net.server c → (s.net.socket c).readable = true
  used : .ran .connectDestroyed ∉ s.app.log c

/-- It is connected once it was established. -/
theorem Up.state (hU : Up s c) (hE : Echoing s) (h : (s.app.conn c).state_ ≠ .kConnecting) :
    (s.app.conn c).state_ = .kConnected := by
  obtain ⟨g, hi⟩ := hE.inside
  have hclosed := hU.code.app.state
  have hclosing := hi.streams.state c
  cases hs : (s.app.conn c).state_ with
  | kConnected => rfl
  | kConnecting => exact absurd hs h
  | kDisconnecting => exact absurd hs hclosing
  | kDisconnected => exact absurd hs hclosed

/-- What a call of `poll` may find. -/
theorem agrees_poll {s : Peered} (ht : s.server.stack t = .poll l :: rest) :
    s.agrees t ch = true ↔ ∀ ready place, ch = .poll (.poller ready) place →
      ∀ r ∈ ready, ∀ d, s.owner l r.1 = some d → (s.socket d).reports (s.shut d) r.2 = true := by
  unfold Peered.agrees
  rw [ht]
  cases ch with
  | poll io place => cases io <;> simp [Option.all_eq_true]
  | _ => simp

/-- The sockets, with all but that of connection `c` in a state that allows
`poll` any answer. -/
def veiled (s : Peered) (c : ConnId) : Peered :=
  { s with socket := Function.update (fun _ => { failed := true }) c (s.socket c) }

theorem veiled_self (s : Peered) (c : ConnId) : (veiled s c).socket c = s.socket c :=
  Function.update_self (f := fun _ => ({ failed := true } : PeerSocket)) ..

theorem veiled_of_ne (s : Peered) {c d : ConnId} (h : d ≠ c) :
    (veiled s c).socket d = { failed := true } :=
  Function.update_of_ne (f := fun _ => ({ failed := true } : PeerSocket)) h ..

theorem veiled_agrees {s : Peered} (ht : s.server.stack t = .poll l :: rest)
    (hag : s.agrees t ch = true) : (veiled s c).agrees t ch = true := by
  refine (agrees_poll (s := veiled s c) ht).mpr fun ready place hch r hr d hd => ?_
  by_cases hdc : d = c
  · subst hdc
    rw [veiled_self]
    exact (agrees_poll ht).mp hag ready place hch r hr d hd
  · rw [veiled_of_ne s hdc]
    simp [PeerSocket.reports, PeerSocket.readable]

theorem veiled_unreadFirst {s : Peered} (ht : s.server.stack t = .poll l :: rest)
    (hag : s.agrees t ch = true) (hk : Held (s.socket c)) :
    (veiled s c).UnreadFirst (.run t ch) := by
  have ht' : (veiled s c).server.stack t = .poll l :: rest := ht
  unfold Peered.UnreadFirst
  dsimp only
  rw [ht']
  cases ch with
  | poll io place =>
      cases io with
      | poller ready =>
          intro r hr hup d hd
          by_cases hdc : d = c
          · subst hdc
            have hrep := (agrees_poll ht).mp hag ready place rfl r hr d hd
            simp [PeerSocket.reports, hup, hk.1, hk.2.1] at hrep
          · rw [veiled_of_ne s hdc]
      | _ => trivial
  | _ => trivial

section Up

variable (hI : ∀ d, Interested (s.app.conn d) (s.app.log d))
include hI

theorem unreadFirst (ht : s.net.server.stack t = f :: rest) (hf : ∀ l, f ≠ .poll l) :
    s.net.UnreadFirst (.run t ch) := by
  unfold Peered.UnreadFirst
  dsimp only
  rw [ht]
  split
  · next l _ _ he => exact absurd (Option.some.inj he) (hf l)
  · next d _ => exact (hI d).writing
  · trivial

/-- What is due was there to be read when the step began. -/
theorem Step.readable_before (h : Step s s' t ch) (hk : Held (s.net.socket c))
    (hdue : Peered.Due s.net.server c → (s.net.socket c).readable = true)
    (hdue' : Peered.Due s'.net.server c) : (s.net.socket c).readable = true := by
  obtain ⟨f, rest, y, next, ht, -, -⟩ := step_runs h.ran
  by_cases hpoll : ∃ l, f = .poll l
  · obtain ⟨l, rfl⟩ := hpoll
    have hread := Peered.due_step (s := veiled s.net c) (c := c) h.reach
      (veiled_agrees ht h.agreed) (veiled_unreadFirst ht h.agreed hk)
      (by rw [veiled_self]; exact hk.2.2) (fun hd => by rw [veiled_self]; exact hdue hd) h.ran hdue'
    rwa [veiled_self] at hread
  · exact Peered.due_step h.reach h.agreed
      (unreadFirst hI ht fun l hl => hpoll ⟨l, hl⟩) hk.2.2 hdue h.ran hdue'

theorem Step.due (h : Step s s' t ch) (hk : Held (s.net.socket c))
    (hdue : Peered.Due s.net.server c → (s.net.socket c).readable = true)
    (hdue' : Peered.Due s'.net.server c) : (s'.net.socket c).readable = true := by
  obtain ⟨f, rest, y, next, ht, -, -⟩ := step_runs h.ran
  by_cases hf : f = piece c .handleRead
  · subst hf
    exact absurd hdue' (Peered.not_due h.reach ht h.ran)
  · rw [h.socket_of_ne ht hf]
    exact h.readable_before hI hk hdue hdue'

end Up

/-- The echo server forces no connection closed. -/
theorem Step.no_forceClose (h : Step s s' t ch) : ch ≠ .call (.conn c .forceClose) := by
  rintro rfl
  obtain ⟨f, rest, y, next, ht, hruns, -⟩ := step_runs h.ran
  cases hruns
  have hallow := h.allowed
  unfold allows at hallow
  rw [ht] at hallow
  cases t with
  | user n => cases hallow
  | loop l =>
      have hgoes : s.goesOn l (.call (.conn c .forceClose)) = true := hallow
      unfold goesOn at hgoes
      split at hgoes <;> first
        | (next he => cases he)
        | cases hgoes

/-- `readv` finds something. -/
theorem Step.received (h : Step s s' t ch) (hk : Held (s.net.socket c))
    (hdue : Peered.Due s.net.server c → (s.net.socket c).readable = true)
    (ht : s.net.server.stack t = piece c .handleRead :: rest) {r : RecvResult}
    (hch : ch = .app (.received r)) : ∃ d, r = .bytes d ∧ d ≠ [] := by
  subst hch
  have hread := hdue ⟨t, .inl (by rw [ht]; exact List.mem_cons_self)⟩
  have hag := h.agreed
  unfold Peered.agrees at hag
  rw [ht] at hag
  have hrec : (s.net.socket c).receives r = true := hag
  cases r with
  | error e =>
      simp [PeerSocket.receives, hk.2.1, hread] at hrec
  | bytes d =>
      refine ⟨d, rfl, ?_⟩
      rintro rfl
      simp [PeerSocket.receives, hk.1] at hrec

/-- What `poll` reports of the connection is neither an error nor a hang-up. -/
theorem Step.polled (h : Step s s' t ch) (hk : Held (s.net.socket c)) (hU : Open c s.app)
    (ht : s.net.server.stack t = .poll l :: rest) {io : Io (List (Int × EpollMask))} {place : Nat}
    (hch : ch = .poll io place) {r : TcpServer LoopPoller × Option (List Code)}
    (hx : TcpServer.poll epollPoller l io s.app = some r) :
    (r.1.conn c).channel_.revents_.error = false ∧
      (r.1.conn c).channel_.revents_.close = false := by
  obtain ⟨ready, q, rfl, hq, -, ⟨-, hsame⟩ | ⟨rev, hmem, hnew⟩⟩ := poll_conn hx c
  · rw [hsame]
    exact ⟨hU.error, hU.close⟩
  · obtain ⟨q', hq', rfl⟩ := Option.map_eq_some_iff.mp hq
    have hag : (veiled s.net c).agrees t (.poll (.poller ready) place) = true :=
      veiled_agrees ht (hch ▸ h.agreed)
    obtain ⟨-, herror, hclose⟩ := Peered.polled_reports (s := veiled s.net c) ht hag
      (veiled_unreadFirst ht (hch ▸ h.agreed) hk) hq' hmem
    rw [veiled_self] at herror hclose
    rw [hnew]
    refine ⟨Bool.eq_false_iff.mpr fun he => ?_, Bool.eq_false_iff.mpr fun hc => ?_⟩
    · have hfailed := herror he
      rw [hk.2.1] at hfailed
      cases hfailed
    · have hfin := (hclose hc hk.2.1).1
      rw [hk.1] at hfin
      cases hfin

/-- `send` takes something. -/
theorem Step.sent_some (h : Step s s' t ch) (hk : Held (s.net.socket c))
    (ht : s.net.server.stack t = piece c .handleWrite :: rest)
    (hout : (s.app.conn c).outputBuffer_.bytes ≠ []) {r : Option Nat}
    (hch : ch = .app (.sent r)) : ∃ n, r = some n ∧ n ≠ 0 := by
  subst hch
  have hag := h.agreed
  unfold Peered.agrees at hag
  rw [ht] at hag
  have hsends : (s.net.socket c).sends (s.app.conn c).outputBuffer_.bytes r = true := hag
  cases r with
  | none => simp [PeerSocket.sends, hk.2.1] at hsends
  | some n =>
      refine ⟨n, rfl, ?_⟩
      rintro rfl
      simp [PeerSocket.sends, hk.2.1, hout] at hsends

/-- A `handleWrite` for a channel that is not writing asks the socket nothing. -/
theorem Step.no_write (h : Step s s' t ch)
    (ht : s.net.server.stack t = piece c .handleWrite :: rest)
    (hw : (s.app.conn c).channel_.isWriting = false) {r : Option Nat} (hch : ch = .app (.sent r))
    (n : Option Nat) :
    (TcpServer.lts config epollPoller).step s.net.server (t, .app (.sent n)) =
      some s'.net.server := by
  subst hch
  obtain ⟨f, rest', y, next, ht', hx, hs'⟩ := Code.step_eq_some.mp h.ran
  rw [ht] at ht'
  cases ht'
  have hsame : ∀ r, Reactor.exec (TcpServer.app config epollPoller) t (piece c .handleWrite)
      (.app (.sent r)) s.net.server.shared =
        some ({ s.net.server.shared with
          app := s.app.setConn c .handleWrite ⟨s.app.conn c, [], []⟩ }, []) := fun r => by
    simp [Reactor.exec, TcpServer.app, TcpServer.exec, TcpConnection.exec, handleWrite, hw]
  exact Code.step_eq_some.mpr ⟨_, _, y, next, ht, (hsame n).trans ((hsame r).symm.trans hx), hs'⟩

/-- Nothing that a step does to the connection disconnects it. -/
theorem Step.passing (h : Step s s' t ch) (hI : Interested (s.app.conn c) (s.app.log c))
    (hk : Held (s.net.socket c)) (hU : Up s c) :
    ∃ ch', (TcpServer.lts config epollPoller).step s.net.server (t, ch') =
      some s'.net.server ∧ Passing config epollPoller c s.net.server (t, ch') := by
  obtain ⟨f, rest, y, next, ht, hruns, -⟩ := step_runs h.ran
  by_cases hw : ∃ r, f = piece c .handleWrite ∧ ch = .app (.sent r)
  · obtain ⟨r, rfl, hch⟩ := hw
    by_cases hwriting : (s.app.conn c).channel_.isWriting = true
    · obtain ⟨n, rfl, hn⟩ := h.sent_some hk ht (hI.writing hwriting) hch
      subst hch
      refine ⟨_, h.ran, ?_, ?_⟩
      · simp only [Transient, ht, List.head?_cons]
        exact fun _ he => hn (Option.some.inj he)
      · simp only [Steady, ht, List.head?_cons]
        exact fun _ _ he => by cases he
    · refine ⟨_, h.no_write ht (Bool.eq_false_iff.mpr hwriting) hch (some 1), ?_, ?_⟩
      · simp only [Transient, ht, List.head?_cons]
        exact fun _ he => by cases he
      · simp only [Steady, ht, List.head?_cons]
        exact fun _ _ he => by cases he
  · refine ⟨ch, h.ran, ?_, ?_⟩
    · simp only [Transient]
      split
      · next a => exact fun he => h.no_forceClose (c := c) (by rw [he])
      · next l io place hhead =>
          rw [ht] at hhead
          cases hhead
          exact fun r hx => h.polled hk hU.code.app ht rfl (Option.mem_def.mp hx)
      · next d r hhead =>
          rw [ht] at hhead
          cases hhead
          rintro rfl
          obtain ⟨d', rfl, hd⟩ := h.received hk hU.due ht rfl
          exact bne_iff_ne.mpr hd
      · next d r hhead =>
          rw [ht] at hhead
          cases hhead
          exact fun hd => absurd ⟨r, by rw [hd], rfl⟩ hw
      · trivial
    · simp only [Steady]
      split
      · next d r hhead =>
          rw [ht] at hhead
          cases hhead
          rintro rfl
          obtain ⟨d', rfl, hd⟩ := h.received hk hU.due ht rfl
          exact Int.natCast_nonneg _
      · next d r hhead =>
          rw [ht] at hhead
          cases hhead
          exact fun hd => absurd ⟨r, by rw [hd], rfl⟩ hw
      · trivial

theorem Step.up (h : Step s s' t ch) (hK : Kept s.net.server) (hE : Echoing s)
    (hk : Held (s.net.socket c)) (hU : Up s c) : Up s' c := by
  obtain ⟨ch', hs, hpass⟩ := h.passing (hK.conn c) hk hU
  refine ⟨open_step h.reach hU.code hpass hs, h.due hK.conn hk hU.due, fun hmem => ?_⟩
  rcases conn_ran (h.conn c) hmem with hold | ⟨rest, ht⟩
  · exact hU.used hold
  · have hdown : Down (s.app.conn c) :=
      hK.code.all.stack t _ (by rw [ht]; exact List.mem_cons_self) (t, .conn c .connectDestroyed)
        rfl
    exact hdown.past (hU.state hE hdown.begun)

/-! ## Along a run -/

theorem Held.of_acts {k k' : PeerSocket} (hk : k.Acts k') (h : Held k') : Held k := by
  refine ⟨?_, hk.ordinary h.2⟩
  cases hk with
  | close => cases h.1
  | send | urge | fail => exact h.1

/-- A step of the echo server is one of the server, or one of a peer. -/
theorem step_cases {s s' : EchoServer} {a : PeerStep}
    (hr : (TcpServer.lts config epollPoller).Reach s.net.server) (h : lts.step s a = some s') :
    (∃ t ch, a = .run t ch ∧ Step s s' t ch) ∨
      (∀ t ch, a ≠ .run t ch) ∧
        ∃ d k, (s.net.socket d).Acts k ∧ s' = { s with net := s.net.setSocket d k } := by
  cases a with
  | run t ch => exact .inl ⟨t, ch, rfl, step_run hr h⟩
  | _ => exact .inr ⟨by simp, step_peer h (by simp)⟩

/-- Only the peer closes, and nothing opens a socket again. -/
theorem Step.held (h : Step s s' t ch) (hk : Held (s'.net.socket c)) :
    Held (s.net.socket c) := by
  rw [h.socket] at hk
  rcases Peered.sockets_eq s.net s'.net.server t ch with he | ⟨d, _, b, _, _, he⟩
  · rw [he] at hk
    exact hk
  · rw [he] at hk
    by_cases hcd : c = d
    · subst hcd
      rw [Function.update_self] at hk
      exact hk
    · rw [Function.update_of_ne hcd] at hk
      exact hk

theorem fed {s : EchoServer} (h : lts.Reach s) :
    (TcpServer.lts config epollPoller).ReachIf KeepsInterest s.net.server ∧ Fed s := by
  refine Lts.ReachIf.inv_of
    (K := fun s => (TcpServer.lts config epollPoller).Reach s.net.server ∧ Echoing s)
    (I := fun s => (TcpServer.lts config epollPoller).ReachIf KeepsInterest s.net.server ∧ Fed s)
    (fun _ hr => echoing hr) (fun s hs => ?_) (fun s a s' hK hI _ hs => ?_) h
  · subst hs
    refine ⟨.init rfl, ⟨trivial, ?_, fun _ _ hq => by cases hq⟩, fun _ _ hcb => by cases hcb⟩
    intro t f hf p hp
    rw [started_dest hf p hp]
    exact fun _ _ _ hj => by cases hj
  · rcases step_cases hK.1 hs with ⟨t, ch, -, hstep⟩ | ⟨-, d, k, -, rfl⟩
    · exact ⟨hI.1.step (hI.2.keepsInterest hK.2) hstep.ran, hI.2.run hK.2 hstep⟩
    · exact ⟨hI.1, hI.2.code, hI.2.input⟩

theorem up {s : EchoServer} (h : lts.Reach s) : Held (s.net.socket c) → Up s c := by
  refine Lts.ReachIf.inv_of (K := fun s => lts.Reach s)
    (I := fun s => Held (s.net.socket c) → Up s c) (fun _ hr => hr.reach) (fun s hs _ => ?_)
    (fun s a s' hr hI _ hs hk => ?_) h
  · subst hs
    have hstart : (TcpServer.lts config epollPoller).ReachIf (Passing config epollPoller c)
        (started epollPoller) := .init rfl
    refine ⟨opened hstart, fun hdue => ?_, fun hmem => by cases hmem⟩
    obtain ⟨t, hmem | ⟨hmem, -⟩⟩ := hdue
    · rcases started_cases hmem with ⟨_, he⟩ | he | he <;> cases he
    · rcases started_cases hmem with ⟨_, he⟩ | he | he <;> cases he
  · rcases step_cases (echoing hr).1 hs with ⟨t, ch, -, hstep⟩ | ⟨-, d, k, hacts, rfl⟩
    · exact hstep.up (kept (fed hr).1) (echoing hr).2 (hstep.held hk) (hI (hstep.held hk))
    · by_cases hcd : c = d
      · subst hcd
        have hk' : Held k := by
          rwa [show (s.net.setSocket c k).socket c = k from Function.update_self ..] at hk
        have hU := hI (.of_acts hacts hk')
        refine ⟨hU.code, fun hdue => ?_, hU.used⟩
        show ((s.net.setSocket c k).socket c).readable = true
        rw [show (s.net.setSocket c k).socket c = k from Function.update_self ..]
        exact hacts.readable (hU.due hdue)
      · have hsame : (s.net.setSocket d k).socket c = s.net.socket c :=
          Function.update_of_ne hcd ..
        have hU := hI (by rw [← hsame]; exact hk)
        refine ⟨hU.code, fun hdue => ?_, hU.used⟩
        show ((s.net.setSocket d k).socket c).readable = true
        rw [hsame]
        exact hU.due hdue

/-- While its peer has not closed and sent no urgent data, and no call on its socket
has failed, an established connection of the echo server stays connected. -/
theorem stays_up {s : EchoServer} (h : lts.Reach s) (hest : Established s.app c)
    (hk : Held (s.net.socket c)) :
    (s.app.conn c).state_ = .kConnected ∧ .ran .handleClose ∉ s.app.log c ∧
      .ran .connectDestroyed ∉ s.app.log c := by
  have hU := up h hk
  exact ⟨hU.state (echoing h).2 (established_state (echoing h).1 c hest.2), hU.code.app.log,
    hU.used⟩

/-- It stays connected when only one of the two bytes went back. -/
theorem stays_up_hi : ∃ s : EchoServer, (s.net.socket 0).sent = [104, 105] ∧
    (s.app.conn 0).state_ = .kConnected ∧ .ran .handleClose ∉ s.app.log 0 ∧
      .ran .connectDestroyed ∉ s.app.log 0 := by
  obtain ⟨s, hs, hp⟩ := Lts.exists_reach lts (greeted ++ answered)
    (fun s => decide ((s.net.socket 0).sent = [104, 105] ∧ (s.net.socket 0).fin = false ∧
      (s.net.socket 0).failed = false ∧ (s.net.socket 0).urgent = false ∧ 0 < s.app.accepted ∧
      .ran .connectEstablished ∈ s.app.log 0)) rfl (by decide +kernel)
  obtain ⟨hsent, hfin, hfailed, hurgent, hacc, hup⟩ := of_decide_eq_true hp
  exact ⟨s, hsent, stays_up hs ⟨hacc, hup⟩ ⟨hfin, hfailed, hurgent⟩⟩

/-- Without the condition on urgent data, one such byte loses the connection:
`EPOLLPRI` calls `handleRead`, whose `readv` finds nothing. -/
theorem urgent_byte_drops : ¬ ∀ (s : EchoServer) (c : ConnId), lts.Reach s →
    Established s.app c → (s.net.socket c).fin = false → (s.net.socket c).failed = false →
      .ran .handleClose ∉ s.app.log c := by
  intro h
  obtain ⟨s, hs, hp⟩ := Lts.exists_reach lts (greeted ++ answered ++ [.urge 0] ++
      Peered.serverSteps [(.loop 1, .poll (.poller [(7, { epollpri := true })]) 0),
        (.loop 1, .app .none), (.loop 1, .app (.received (.error 11))), (.loop 1, .app .none),
        (.loop 1, .app .none)])
    (fun s => decide ((0 < s.app.accepted ∧ .ran .connectEstablished ∈ s.app.log 0) ∧
      (s.net.socket 0).fin = false ∧ (s.net.socket 0).failed = false ∧
      .ran .handleClose ∈ s.app.log 0)) rfl (by decide +kernel)
  obtain ⟨hest, hfin, hfailed, hmade⟩ := of_decide_eq_true hp
  exact h s 0 hs hest hfin hfailed hmade

end EchoServer

end Muduox.Net
