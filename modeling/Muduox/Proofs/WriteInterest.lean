import Muduox.Proofs.StateOrder

/-!
# Write interest and pending output

`isWriting()` stands for "output is pending" in `sendInLoop`, `shutdownInLoop`
and `handleWrite`. Whoever appends to `outputBuffer_` enables writing after it,
and the drain in `handleWrite` disables it, so the two agree as long as what is
appended is not empty. `send(Buffer*)` never looks, and `sendInLoop` gets past
its test with an empty message when the socket refuses the direct write
(`Slips`). Then `handleWrite` sends nothing, is told that nothing was sent, and
takes that for an error.

`connectDestroyed` disables writing over whatever is queued. By then `state_` is
`kDisconnected` (`Closing`), and it stays so, except for a thread that stores
`kDisconnecting` late.
-/

namespace Muduox.Net

namespace TcpServer

open Threads Reactor TcpConnection

variable {P E : Type} {cfg : ServerConfig} {poller : Poller P E}

/-- A piece that would enable writing for an empty payload, or open a closed
connection over queued output. -/
def Slips (x : TcpConnection) (t : ThreadId) (k : ConnCode) (io : Io E) : Prop :=
  match k, io with
  | .sendBuffer m, _ => x.state_ = .kConnected ∧ t = .loop x.loop_ ∧
      x.channel_.isWriting = false ∧ m.bytes.1 = []
  | .sendInLoop m, .sent none => x.state_ = .kConnected ∧ x.channel_.isWriting = false ∧
      m.bytes.1 = []
  | .storeShutdown, _ | .storeForceClose, _ =>
      x.state_ = .kDisconnected ∧ x.outputBuffer_.bytes ≠ []
  | _, _ => False

instance (x : TcpConnection) (t : ThreadId) (k : ConnCode) (io : Io E) :
    Decidable (Slips x t k io) := by
  unfold Slips
  split <;> infer_instance

/-- The piece that runs next does not slip. -/
def KeepsInterest (s : State P) (b : ThreadId × Choice Code (Io E)) : Prop :=
  match (s.stack b.1).head?, b.2 with
  | some (.code (.conn c k)), .app io => ¬ Slips (s.shared.app.conn c) b.1 k io
  | _, _ => True

instance (s : State P) (b : ThreadId × Choice Code (Io E)) : Decidable (KeepsInterest s b) := by
  obtain ⟨t, ch⟩ := b
  unfold KeepsInterest
  split <;> infer_instance

/-- Closed, as far as output goes: none will be added, and what is queued has
`kDisconnected` over it. -/
structure Down (x : TcpConnection) : Prop where
  begun : x.state_ ≠ .kConnecting
  past : x.state_ ≠ .kConnected
  output : x.outputBuffer_.bytes = [] ∨ x.state_ = .kDisconnected

/-- The code that takes a connection out of the server finds it closed. -/
def Closing (_ : ThreadId) (a : Code) (s : TcpServer P) : Prop :=
  match a with
  | .removeConnection c | .removeConnectionInLoop c | .conn c .connectDestroyed =>
      Down (s.conn c)
  | _ => True

/-- Write interest is pending output, but for what was closed. -/
structure Interested (x : TcpConnection) (log : List Event) : Prop where
  fresh : log = [] → x.outputBuffer_.bytes = []
  begun : .ran .connectEstablished ∈ log → x.state_ ≠ .kConnecting
  writing : x.channel_.isWriting = true → x.outputBuffer_.bytes ≠ []
  queued : x.outputBuffer_.bytes ≠ [] → x.channel_.isWriting = true ∨ x.state_ = .kDisconnected

/-- Before the user hears that a connection is up or down, nothing was sent on
it, or it is closed. -/
def Settled (s : State P) (c : ConnId) : Prop :=
  TcpConnection.piece c .connectionCallback ∈ s.stack (.loop (s.shared.app.conn c).loop_) →
    (s.shared.app.conn c).outputBuffer_.bytes = [] ∨ (s.shared.app.conn c).state_ = .kDisconnected

section Piece

variable {c : ConnId} {t : ThreadId} {x x' : TcpConnection} {k : ConnCode} {io : Io E}
  {evs log : List Event} {next : List (Frame Code)}

theorem Appended.ne_nil {d : List UInt8} (hx : Appended x x' d)
    (h : d = [] → x.outputBuffer_.bytes ≠ []) : x'.outputBuffer_.bytes ≠ [] := by
  rw [hx.bytes]
  intro hnil
  obtain ⟨hout, hd⟩ := List.append_eq_nil_iff.mp hnil
  exact h hd hout

/-- `kConnecting` is never stored. -/
theorem connRuns_begun (hr : x.Runs c t k io x' evs next)
    (h : k ≠ .connectEstablished → x.state_ ≠ .kConnecting) : x'.state_ ≠ .kConnecting := by
  rw [connRuns_state hr]
  cases k <;> first | exact h (by simp) | simp [ConnCode.stores]

theorem connRuns_interested (h : Interested x log) (hr : x.Runs c t k io x' evs next)
    (hslip : ¬ Slips x t k io) (hfirst : k = .connectEstablished → log = [])
    (hbegun : k ≠ .connectEstablished → .ran .connectEstablished ∈ log)
    (hdown : k = .connectDestroyed → Down x) : Interested x' (log ++ .ran k :: evs) := by
  have hlog : log ++ .ran k :: evs = [] → x'.outputBuffer_.bytes = [] := by simp
  have hbegun' : .ran .connectEstablished ∈ log ++ .ran k :: evs → x'.state_ ≠ .kConnecting :=
    fun _ => connRuns_begun hr fun hk => h.begun (hbegun hk)
  have happ : ∀ {d : List UInt8}, Appended x x' d → x'.outputBuffer_.bytes ≠ [] →
      Interested x' (log ++ .ran k :: evs) := fun hx hne =>
    ⟨hlog, hbegun', fun _ => hne, fun _ => .inl hx.isWriting⟩
  cases hr with
  | connectEstablished =>
      exact ⟨hlog, hbegun', h.writing,
        fun hout => absurd (h.fresh (hfirst rfl)) hout⟩
  | connectDestroyed =>
      refine ⟨hlog, hbegun', (fun hw => by cases hw), fun hout => ?_⟩
      exact .inr ((hdown rfl).output.resolve_left hout)
  | @writePart b n hw _ hlt hb =>
      have hne : b.bytes ≠ [] := by
        rw [hb, Ne, List.drop_eq_nil_iff]
        omega
      exact ⟨hlog, hbegun', fun _ => hne, fun _ => .inl hw⟩
  | writeAll _ _ hb =>
      exact ⟨hlog, hbegun', (fun hw => by cases hw), fun hout => absurd hb hout⟩
  | handleClose => exact ⟨hlog, hbegun', h.writing, fun _ => .inr rfl⟩
  | @sendBufferHere m _ hs ht hx =>
      refine happ hx (Appended.ne_nil hx fun hm => h.writing ?_)
      by_contra hw
      exact hslip ⟨hs, ht, Bool.eq_false_iff.mpr hw, hm⟩
  | @sentPart m _ n _ _ _ _ hn hx =>
      refine happ hx (Appended.ne_nil hx fun hm => ?_)
      rw [List.drop_eq_nil_iff] at hm
      omega
  | @queued m r _ ht hs hx hq =>
      refine happ hx (Appended.ne_nil hx fun hm => ?_)
      rcases hq with hw | hout | rfl
      · exact h.writing hw
      · exact hout
      · refine h.writing ?_
        by_contra hw
        exact hslip ⟨hs, Bool.eq_false_iff.mpr hw, hm⟩
  | storeShutdown | storeForceClose =>
      refine ⟨hlog, hbegun', h.writing, fun hout => ?_⟩
      exact .inl ((h.queued hout).resolve_right fun hd => hslip ⟨hd, hout⟩)
  | _ => exact ⟨hlog, hbegun', h.writing, h.queued⟩

/-- Nothing opens a connection again that was closed. -/
theorem connRuns_down (h : Down x) (hr : x.Runs c t k io x' evs next)
    (hslip : ¬ Slips x t k io) (hk : k ≠ .connectEstablished) : Down x' := by
  have hold := h.past
  refine ⟨connRuns_begun hr fun _ => h.begun, connRuns_connected hr hk hold, ?_⟩
  cases hr with
  | connectEstablished => exact absurd rfl hk
  | @writePart _ n _ _ hlt hb =>
      refine .inr (h.output.resolve_left fun hnil => ?_)
      rw [hnil] at hlt
      exact absurd hlt (Nat.not_lt_zero n)
  | writeAll _ _ hb => exact .inl hb
  | handleClose => exact .inr rfl
  | sendBufferHere hs | sentPart _ hs | queued _ hs => exact absurd hs hold
  | storeShutdown | storeForceClose =>
      refine .inl ?_
      by_contra hout
      exact hslip ⟨h.output.resolve_left hout, hout⟩
  | _ => exact h.output

/-- What other threads do to a connection whose callback is to come. -/
theorem connRuns_settled (hr : x.Runs c t k io x' evs next) (ht : t ≠ .loop x.loop_)
    (hk : k.anyThread = false → t = .loop x.loop_) (hslip : ¬ Slips x t k io)
    (h : x.outputBuffer_.bytes = [] ∨ x.state_ = .kDisconnected) :
    x'.outputBuffer_.bytes = [] ∨ x'.state_ = .kDisconnected := by
  have hany : k.anyThread = true := by
    by_contra hno
    exact ht (hk (Bool.eq_false_iff.mpr hno))
  cases hr with
  | storeShutdown | storeForceClose =>
      refine .inl ?_
      by_contra hout
      exact hslip ⟨h.resolve_left hout, hout⟩
  | sendBufferHere _ ht' => exact absurd ht' ht
  | _ => first | exact h | cases hany

/-- The pieces that leave a call of the connection callback. -/
theorem connRuns_callback (hr : x.Runs c t k io x' evs next)
    (hmem : TcpConnection.piece c .connectionCallback ∈ next)
    (hfirst : k = .connectEstablished → x.outputBuffer_.bytes = []) :
    x'.outputBuffer_.bytes = [] ∨ x'.state_ = .kDisconnected := by
  cases hr with
  | connectEstablished => exact .inl (hfirst rfl)
  | handleClose => exact .inr rfl
  | sendBufferHere | sentPart | queued => exact absurd hmem piece_notMem_updateUnlessWriting
  | _ => simp at hmem

end Piece

/-! ## Along a run -/

/-- What the code of the server that is not a connection's leaves finds its
connection closed, if the code that ran did. -/
theorem runs_closing {t : ThreadId} {a : Code} {io : Io E} {s s' : TcpServer P}
    {next : List (Frame Code)} (h : Runs cfg poller t s a io s' next) (ha : Closing t a s)
    (hcb : ∀ c, a = .conn c .connectionCallback → (s.conn c).state_ ≠ .kConnected →
      Down (s.conn c)) : ∀ g ∈ next, ∀ p ∈ g.dest t, Closing p.1 p.2 s' := by
  cases h with
  | @conn c k io x evs next h =>
      intro g hg p hp
      cases h.leaves g hg with
      | user => cases hp
      | removeConnection hs =>
          cases hp
          show Down ((s.setConn c _ _).conn c)
          rw [setConn_conn_self]
          cases h with
          | connectionUp hs' => exact absurd hs' hs
          | connectionDown => exact hcb c rfl hs
      | _ =>
          cases hp
          trivial
  | handleEvent =>
      intro g hg p hp
      rcases mem_handleEvent hg with
        ⟨_, rfl⟩ | ⟨_, _, _, rfl, ⟨_, rfl⟩ | ⟨_, rfl⟩ | ⟨_, rfl⟩ | ⟨_, rfl⟩⟩ <;>
          cases hp <;> trivial
  | removeConnection => simpa [Frame.dest, Closing] using ha
  | removeConnectionInLoop =>
      intro g hg p hp
      rw [mem_removeConnectionInLoop hg] at hp
      cases hp
      exact ha
  | _ => simp [TcpServer.listen, TcpServer.newConnection, Frame.dest, Closing]

theorem Down.idle {x x' : TcpConnection} {log log' : List Event} (h : Down x)
    (hi : Idle x log x' log') : Down x' := by
  obtain ⟨r, rfl⟩ := hi.conn
  exact ⟨h.begun, h.past, h.output⟩

/-- `Closing` speaks of closed connections only. -/
theorem Closing.keep {s s' : TcpServer P} {u : ThreadId} {b : Code} (h : Closing u b s)
    (hdown : ∀ c, Down (s.conn c) → Down (s'.conn c)) : Closing u b s' := by
  unfold Closing at h ⊢
  split at h
  · exact hdown _ h
  · exact hdown _ h
  · exact hdown _ h
  · trivial

theorem api_closing {t : ThreadId} {s : TcpServer P} {a : Code} (h : api t s a = true) :
    Closing t a s := by
  unfold api at h
  split at h <;> trivial

/-- What holds along a run without slips. -/
structure Kept (s : State P) : Prop where
  conn : ∀ c, Interested (s.shared.app.conn c) (s.shared.app.log c)
  settled : ∀ c, Settled s c
  code : AppInv (fun _ => True) Closing s

section Step

variable {s s' : State P} {t : ThreadId} {ch : Choice Code (Io E)} {c : ConnId}

theorem not_slips (hc : KeepsInterest s (t, ch)) {k : ConnCode} {rest : List (Frame Code)}
    {io : Io E} (ht : s.stack t = TcpConnection.piece c k :: rest) (hch : ch = .app io) :
    ¬ Slips (s.shared.app.conn c) t k io := by
  subst hch
  unfold KeepsInterest at hc
  simpa only [ht, List.head?_cons] using hc

theorem interested_step (hr : (lts cfg poller).ReachIf KeepsInterest s) (h : Kept s)
    (hc : KeepsInterest s (t, ch)) (hs : (lts cfg poller).step s (t, ch) = some s')
    (c : ConnId) : Interested (s'.shared.app.conn c) (s'.shared.app.log c) := by
  cases step_conn hs (base hr) (wrapped hr) c with
  | @piece k _ _ _ _ ht hch hruns hlog hs' =>
      rw [hlog]
      have hmem : TcpConnection.piece c k ∈ s.stack t := by rw [ht]; exact List.mem_cons_self
      have hbound : Bound t (.conn c k) s.shared.app := (base hr).all.stack t _ hmem _ rfl
      refine connRuns_interested (h.conn c) hruns (not_slips hc ht hch)
        (fun hk => nothing_before hr (hk ▸ ht)) (fun hk => (hbound.2.1 hk).2) fun hk => ?_
      subst hk
      exact h.code.all.stack t _ hmem _ rfl
  | idle hi =>
      have hold := h.conn c
      obtain ⟨r, hx⟩ := hi.conn
      have hmem : ∀ {e : Event}, (∀ b, e ≠ .removed b) →
          e ∈ s'.shared.app.log c → e ∈ s.shared.app.log c := by
        intro e he hl
        rcases hi.log with h | ⟨b, h⟩ <;> rw [h] at hl
        · exact hl
        · exact (List.mem_append.mp hl).resolve_right (by simpa using he b)
      have hnil : s'.shared.app.log c = [] → s.shared.app.log c = [] := by
        rcases hi.log with h | ⟨b, h⟩ <;> rw [h] <;> simp
      rw [hx]
      exact ⟨fun hl => hold.fresh (hnil hl), fun hl => hold.begun (hmem (by simp) hl),
        hold.writing, hold.queued⟩
  | new _ hconn hlog =>
      rw [hlog]
      refine ⟨fun _ => ?_, (fun hl => by cases hl), fun hw => ?_, fun hout => ?_⟩
      · rw [hconn.eq]
        exact WfBuffer.new_bytes
      · rw [hconn.eq] at hw
        cases hw
      · rw [hconn.eq] at hout
        exact absurd WfBuffer.new_bytes hout

theorem settled_step (hr : (lts cfg poller).ReachIf KeepsInterest s) (h : Kept s)
    (hc : KeepsInterest s (t, ch)) (hs : (lts cfg poller).step s (t, ch) = some s')
    (c : ConnId) : Settled s' c := by
  intro hmem
  cases step_conn hs (base hr) (wrapped hr) c with
  | @piece k _ _ next rest ht hch hruns hlog hs' =>
      have hslip := not_slips hc ht hch
      have hbound : Bound t (.conn c k) s.shared.app :=
        (base hr).all.stack t _ (by rw [ht]; exact List.mem_cons_self) _ rfl
      obtain ⟨hl, _⟩ := connRuns_const hruns
      rw [hl, hs'] at hmem
      by_cases hloop : t = .loop (s.shared.app.conn c).loop_
      · -- On its own stack the callback comes right behind the piece that leaves it.
        rw [← hloop, Config.resume_stack_self] at hmem
        rcases List.mem_append.mp hmem with hnew | hold
        · refine connRuns_callback hruns hnew fun hk => ?_
          exact (h.conn c).fresh (nothing_before hr (hk ▸ ht))
        · have hord := prompt hr t
          rw [ht, List.pairwise_cons] at hord
          cases hord.1 _ hold rfl
      · rw [Config.resume_stack_of_ne _ (Ne.symm hloop)] at hmem
        exact connRuns_settled hruns hloop hbound.2.2 hslip (h.settled c hmem)
  | idle hi hstack =>
      obtain ⟨r, hx⟩ := hi.conn
      have hl : (s'.shared.app.conn c).loop_ = (s.shared.app.conn c).loop_ := by rw [hx]
      rw [hl, hstack _ _ rfl] at hmem
      rw [hx]
      exact h.settled c hmem
  | new _ _ _ hstack => exact absurd hmem (hstack _ _)

/-- What is closed stays closed. -/
theorem runs_down {a : Code} {io : Io E} {x x' : TcpServer P} {next : List (Frame Code)}
    (h : Runs cfg poller t x a io x' next) (hbase : Base poller x)
    (hfirst : a = .conn c .connectEstablished → x.log c = [])
    (hslip : ∀ k, a = .conn c k → ¬ Slips (x.conn c) t k io) (hd : Down (x.conn c)) :
    Down (x'.conn c) := by
  have hest : Established x c := by
    by_contra hno
    exact hd.begun (hbase.connecting c hno)
  cases runs_touches h c with
  | piece hr =>
      refine connRuns_down hd hr (hslip _ rfl) fun hk => ?_
      have hlog := hest.2
      rw [hfirst (by rw [hk])] at hlog
      cases hlog
  | idle _ hi => exact hd.idle hi
  | new hnew => exact absurd hest.1 (by rw [hnew]; exact Nat.lt_irrefl _)

theorem closing_step (hr : (lts cfg poller).ReachIf KeepsInterest s) (h : Kept s)
    (hc : KeepsInterest s (t, ch)) (hs : (lts cfg poller).step s (t, ch) = some s') :
    AppInv (fun _ => True) Closing s' := by
  refine h.code.step hs (sound hr) (fun {a io x next rest} ht hch hx ha => ?_) (fun _ _ _ hx => ?_)
    fun _ => api_closing
  · have hruns := exec_runs hx
    have hmem : Frame.code a ∈ s.stack t := by rw [ht]; exact List.mem_cons_self
    refine ⟨trivial, runs_closing hruns ha fun c he hup => ?_, fun u b hb => hb.keep fun c => ?_⟩
    · subst he
      obtain ⟨_, hest, hl⟩ : Bound t (.conn c .connectionCallback) s.shared.app :=
        (base hr).all.stack t _ hmem _ rfl
      refine ⟨(h.conn c).begun (hest (by simp)).2, hup, h.settled c ?_⟩
      rw [← hl rfl]
      exact hmem
    · refine runs_down hruns (base hr).app (fun he => ?_) fun k he => ?_
      · exact nothing_before hr (by rw [ht, he])
      · exact not_slips hc (by rw [ht, he]) hch
  · refine ⟨trivial, fun b hb => ?_, fun u b hb => hb.keep fun c hd => hd.idle (poll_idle hx c)⟩
    obtain ⟨ch, rfl⟩ := poll_codes hx b hb
    trivial

end Step

theorem kept_started : Kept (started poller) := by
  have hstack : ∀ t, ∀ f ∈ (started poller).stack t, ∀ p ∈ f.dest t,
      Closing p.1 p.2 (started poller).shared.app := by
    intro t f hf p hp
    rw [started_dest hf p hp]
    trivial
  refine ⟨fun c => ⟨fun _ => WfBuffer.new_bytes, fun hl => ?_, fun hw => ?_, fun hout => ?_⟩,
    fun c hmem => .inl WfBuffer.new_bytes, trivial, hstack, fun _ _ hq => by cases hq⟩
  · cases hl
  · cases hw
  · exact absurd WfBuffer.new_bytes hout

theorem kept {s : State P} (h : (lts cfg poller).ReachIf KeepsInterest s) : Kept s :=
  run_inv h kept_started fun {s b s'} hr hI hc hs => by
    obtain ⟨t, ch⟩ := b
    exact ⟨interested_step hr hI hc hs, settled_step hr hI hc hs, closing_step hr hI hc hs⟩

/-- Along every run without slips, a connection that is up or on its way down is
writing if and only if it has output pending; and `handleWrite` has something to
send whenever it sends. -/
theorem writing_iff_pending {s : State P} (h : (lts cfg poller).ReachIf KeepsInterest s)
    (c : ConnId) :
    ((s.shared.app.conn c).state_ = .kConnected ∨ (s.shared.app.conn c).state_ = .kDisconnecting →
      ((s.shared.app.conn c).channel_.isWriting = true ↔
        (s.shared.app.conn c).outputBuffer_.bytes ≠ [])) ∧
    ((s.shared.app.conn c).channel_.isWriting = true →
      (s.shared.app.conn c).outputBuffer_.bytes ≠ []) := by
  have hold := (kept h).conn c
  refine ⟨fun hs => ⟨hold.writing, fun hout => ?_⟩, hold.writing⟩
  refine (hold.queued hout).resolve_right fun hd => ?_
  rcases hs with hs | hs <;> rw [hd] at hs <;> cases hs

/-- Connection 0 sends five bytes, of which the socket takes two. -/
theorem writing_iff_pending_hello :
    ∃ s : State (List ChannelId), (s.shared.app.conn 0).state_ = .kConnected ∧
      (s.shared.app.conn 0).outputBuffer_.bytes = [108, 108, 111] ∧
      (s.shared.app.conn 0).channel_.isWriting = true := by
  obtain ⟨s, hs, hp⟩ := Lts.exists_reachIf (lts echoConfig anyPoller) KeepsInterest greeting
    (fun s => decide ((s.shared.app.conn 0).state_ = .kConnected ∧
      (s.shared.app.conn 0).outputBuffer_.bytes = [108, 108, 111])) rfl (by decide +kernel)
  obtain ⟨hup, hout⟩ := of_decide_eq_true hp
  exact ⟨s, hup, hout, ((writing_iff_pending hs 0).1 (.inl hup)).mpr (by rw [hout]; simp)⟩

/-- An empty message. -/
def nothing : Message := ⟨.loop 0, ⟨[], by decide⟩⟩

/-- The first callback sends an empty `Buffer`. -/
theorem empty_buffer_writes :
    ¬ ∀ (s : State (List ChannelId)) (c : ConnId), (lts echoConfig anyPoller).Reach s →
      (s.shared.app.conn c).state_ = .kConnected ∨ (s.shared.app.conn c).state_ = .kDisconnecting →
      ((s.shared.app.conn c).channel_.isWriting = true ↔
        (s.shared.app.conn c).outputBuffer_.bytes ≠ []) := by
  intro h
  obtain ⟨s, hs, hp⟩ := Lts.exists_reach (lts echoConfig anyPoller)
    (connecting.append [(.loop 0, .call (.conn 0 (.sendBuffer nothing))),
      (.loop 0, .app .none), (.loop 0, .app (.poller [])), (.loop 0, .ret), (.loop 0, .go),
      (.loop 0, .go)])
    (fun s => decide ((s.shared.app.conn 0).state_ = .kConnected ∧
      (s.shared.app.conn 0).channel_.isWriting = true ∧
      (s.shared.app.conn 0).outputBuffer_.bytes = [])) rfl (by decide +kernel)
  obtain ⟨hup, hw, hout⟩ := of_decide_eq_true hp
  exact ((h s 0 hs (.inl hup)).mp hw) hout

end TcpServer

end Muduox.Net
