import Muduox.Proofs.ConnectionRuns
import Muduox.Proofs.OutputStream

/-!
# Half-closing over unsent output

`socket_->shutdownWrite()` is called in two places. `shutdownInLoop` calls it
when the channel is not writing, and output that is queued keeps the channel
writing (`armed`) until `connectDestroyed`, which ends with a null `socket_`.
`handleWrite` calls it after the write-complete callback when `state_` is
`kDisconnecting`; that the buffer was empty before the callback says nothing
about what it holds afterwards. If the callback sends more than the socket takes
and then shuts down, output is queued when the write side is closed.

What keeps `handleWrite` right is that nobody stores `kDisconnecting` while it
is between its drain and that test with output queued again (`StoresDrained`):
in `kDisconnecting` nothing is queued, so what was empty stays so (`drained`).
-/

namespace Muduox.Net

/-- The write side was shut down only with nothing left to send. -/
def NoEarlyHalfClose (log : List Event) : Prop := ∀ d, .shutdownWrite d ∈ log → d = []

namespace TcpServer

open Threads Reactor TcpConnection

variable {P E : Type} {cfg : ServerConfig} {poller : Poller P E}

/-- The connection whose `state_` a frame is about to set to `kDisconnecting`. -/
def storesTo : Frame Code → Option ConnId
  | .code (.conn c .storeShutdown) | .code (.conn c .storeForceClose) => some c
  | _ => none

/-- `handleWrite` of connection `c` has drained the buffer and not yet tested
`state_`. -/
def Draining (s : State P) (c : ConnId) : Prop :=
  TcpConnection.piece c .shutdownIfDisconnecting ∈
    s.stack (.loop (s.shared.app.conn c).loop_)

/-- Nobody stores `kDisconnecting` while `handleWrite` is at its write-complete
callback and output has been queued again. -/
def StoresDrained (s : State P) (b : ThreadId × Choice Code (Io E)) : Prop :=
  ∀ c ∈ (s.stack b.1).head?.bind storesTo,
    Draining s c → (s.shared.app.conn c).outputBuffer_.bytes = []

instance (s : State P) (c : ConnId) : Decidable (Draining s c) :=
  inferInstanceAs (Decidable (_ ∈ s.stack (.loop (s.shared.app.conn c).loop_)))

instance (s : State P) (b : ThreadId × Choice Code (Io E)) : Decidable (StoresDrained s b) :=
  inferInstanceAs (Decidable (∀ c ∈ (s.stack b.1).head?.bind storesTo, _ → _))

/-- What is queued keeps the channel writing, until `connectDestroyed`. -/
def Armed (s : State P) (c : ConnId) : Prop :=
  (s.shared.app.conn c).outputBuffer_.bytes ≠ [] →
    (s.shared.app.conn c).channel_.isWriting = true ∨ (s.shared.app.conn c).socket_ = false ∨
      TcpConnection.piece c .resetSocket ∈ s.stack (.loop (s.shared.app.conn c).loop_)

/-- Why `handleWrite` does not shut down the write side of `c` over what is queued. -/
structure Guarded (s : State P) (c : ConnId) : Prop where
  drained : (s.shared.app.conn c).state_ = .kDisconnecting → Draining s c →
    (s.shared.app.conn c).outputBuffer_.bytes = []
  clean : NoEarlyHalfClose (s.shared.app.log c)

section Piece

variable {c : ConnId} {t : ThreadId} {x x' : TcpConnection} {k : ConnCode} {io : Io E}
  {evs : List Event} {next : List (Frame Code)}

/-- Output that a piece leaves queued is armed, if it was before. -/
theorem connRuns_armed {R : Prop} (h : x.Runs c t k io x' evs next)
    (ha : x.outputBuffer_.bytes ≠ [] → x.channel_.isWriting = true ∨ x.socket_ = false ∨ R)
    (hout : x'.outputBuffer_.bytes ≠ []) :
    x'.channel_.isWriting = true ∨ x'.socket_ = false ∨ k ≠ .resetSocket ∧ R ∨
      t = .loop x.loop_ ∧ TcpConnection.piece c .resetSocket ∈ next := by
  have hold : k ≠ .resetSocket → x.outputBuffer_.bytes ≠ [] →
      x.channel_.isWriting = true ∨ x.socket_ = false ∨ k ≠ .resetSocket ∧ R ∨
        t = .loop x.loop_ ∧ TcpConnection.piece c .resetSocket ∈ next := by
    intro hk ho
    rcases ha ho with h | h | h
    · exact .inl h
    · exact .inr (.inl h)
    · exact .inr (.inr (.inl ⟨hk, h⟩))
  cases h with
  | connectDestroyed ht => exact .inr (.inr (.inr ⟨ht, by simp⟩))
  | resetSocket => exact .inr (.inl rfl)
  | writePart hw => exact .inl hw
  | writeAll _ _ hb => exact absurd hb hout
  | sendBufferHere _ _ hx | sentPart _ _ _ _ _ hx | queued _ _ hx => exact .inl hx.isWriting
  | _ => exact hold (by simp) hout

/-- What was drained stays so while `state_` is `kDisconnecting`. -/
theorem connRuns_drained {D : Prop} (h : x.Runs c t k io x' evs next)
    (hd : x.state_ = .kDisconnecting → D → x.outputBuffer_.bytes = [])
    (hstore : k = .storeShutdown ∨ k = .storeForceClose → D → x.outputBuffer_.bytes = [])
    (hs : x'.state_ = .kDisconnecting)
    (hD : D ∨ TcpConnection.piece c .shutdownIfDisconnecting ∈ next) :
    x'.outputBuffer_.bytes = [] := by
  cases h with
  | connectEstablished | handleClose => cases hs
  | storeShutdown => exact hstore (.inl rfl) (hD.resolve_right (by simp))
  | storeForceClose => exact hstore (.inr rfl) (hD.resolve_right (by simp))
  | writePart _ _ _ hb =>
      have := hd hs (hD.resolve_right (by simp))
      rw [hb, this, List.drop_nil]
  | writeAll _ _ hb => exact hb
  | sendBufferHere hc _ hx | sentPart _ hc _ _ _ hx | queued _ hc hx =>
      rw [hx.state, hc] at hs
      cases hs
  | _ => exact hd hs (hD.resolve_right (by simp))

/-- The two places that shut down the write side. -/
theorem connRuns_shutdownWrite (h : x.Runs c t k io x' evs next) {d : List UInt8}
    (hd : .shutdownWrite d ∈ evs) :
    d = x.outputBuffer_.bytes ∧ x.socket_ = true ∧
      (k = .shutdownIfDisconnecting ∧ x.state_ = .kDisconnecting ∨
        k = .shutdownInLoop ∧ t = .loop x.loop_ ∧ x.channel_.isWriting = false) := by
  have hevent : .shutdownWrite d ∈ x.shutdownWrite.events →
      d = x.outputBuffer_.bytes ∧ x.socket_ = true := by
    intro hd
    rw [TcpConnection.shutdownWrite, List.mem_singleton] at hd
    split at hd
    · next hs => exact ⟨Event.shutdownWrite.inj hd, hs⟩
    · cases hd
  cases h with
  | halfClose hs => exact ⟨(hevent hd).1, (hevent hd).2, .inl ⟨rfl, hs⟩⟩
  | shutdownNow ht hw => exact ⟨(hevent hd).1, (hevent hd).2, .inr ⟨rfl, ht, hw⟩⟩
  | _ => simp at hd

end Piece

theorem NoEarlyHalfClose.append {log evs : List Event} (h : NoEarlyHalfClose log)
    (he : ∀ d, .shutdownWrite d ∈ evs → d = []) : NoEarlyHalfClose (log ++ evs) := by
  intro d hd
  rcases List.mem_append.mp hd with hd | hd
  · exact h d hd
  · exact he d hd

/-- The frame that ran is gone, the others on the loop's stack are not. -/
theorem piece_stays {s s' : State P} {c : ConnId} {t u : ThreadId} {j k : ConnCode}
    {next rest : List (Frame Code)} (ht : s.stack t = TcpConnection.piece c k :: rest)
    (hs' : s' = s.resume t s'.shared next rest) (hj : j ≠ k)
    (hmem : TcpConnection.piece c j ∈ s.stack u) : TcpConnection.piece c j ∈ s'.stack u := by
  rw [hs']
  exact Config.mem_resume ht hmem (.inl (by simpa using hj))

theorem armed_step {s s' : State P} {t : ThreadId} {ch : Choice Code (Io E)} {c : ConnId}
    (h : Armed s c) (hs : ConnStep cfg c t ch s s') : Armed s' c := by
  intro hout
  cases hs with
  | piece ht hch hr hlog hs' =>
      obtain ⟨hl, _⟩ := connRuns_const hr
      rw [hl]
      rcases connRuns_armed hr h hout with hw | hsock | ⟨hk, hmem⟩ | ⟨ht', hmem⟩
      · exact .inl hw
      · exact .inr (.inl hsock)
      · exact .inr (.inr (piece_stays ht hs' (Ne.symm hk) hmem))
      · refine .inr (.inr ?_)
        rw [hs', ← ht', Config.resume_stack_self]
        exact List.mem_append_left _ hmem
  | idle hi hstack =>
      obtain ⟨r, hx⟩ := hi.conn
      have hl : (s'.shared.app.conn c).loop_ = (s.shared.app.conn c).loop_ := by rw [hx]
      rw [hl, hstack _ _ rfl]
      rw [hx] at hout ⊢
      exact h hout
  | new _ hconn =>
      rw [hconn.eq] at hout
      exact absurd WfBuffer.new_bytes hout

theorem armed {C : State P → ThreadId × Choice Code (Io E) → Prop} {s : State P}
    (h : (lts cfg poller).ReachIf C s) (c : ConnId) : Armed s c :=
  run_inv (I := fun s => Armed s c) h (fun hout => absurd WfBuffer.new_bytes hout)
    fun hr hI _ hs => armed_step hI (step_conn hs (base hr) (wrapped hr) c)

/-- When `shutdownInLoop` shuts down the write side, nothing is queued. -/
theorem shutdownInLoop_empty {s : State P} {c : ConnId} {t : ThreadId}
    {rest : List (Frame Code)} (h : Armed s c) (hprompt : Ordered Prompt s)
    (ht : s.stack t = TcpConnection.piece c .shutdownInLoop :: rest)
    (hl : t = .loop (s.shared.app.conn c).loop_)
    (hsock : (s.shared.app.conn c).socket_ = true)
    (hw : (s.shared.app.conn c).channel_.isWriting = false) :
    (s.shared.app.conn c).outputBuffer_.bytes = [] := by
  by_contra hout
  rcases h hout with hw' | hs' | hmem
  · rw [hw] at hw'
    cases hw'
  · rw [hsock] at hs'
    cases hs'
  · -- Between `disableAll` and `socket_.reset()` only the poller runs.
    have hord := hprompt t
    rw [ht, List.pairwise_cons] at hord
    rw [← hl, ht] at hmem
    rcases List.mem_cons.mp hmem with he | hmem
    · cases he
    · cases hord.1 _ hmem rfl

theorem Guarded.piece {s s' : State P} {c : ConnId} {t : ThreadId} {k : ConnCode} {io : Io E}
    {evs : List Event} {next rest : List (Frame Code)} (h : Guarded s c) (harmed : Armed s c)
    (hbase : AppInv (Base poller) Bound s) (hprompt : Ordered Prompt s)
    (hc : StoresDrained s (t, Choice.app io))
    (ht : s.stack t = TcpConnection.piece c k :: rest)
    (hr : (s.shared.app.conn c).Runs c t k io (s'.shared.app.conn c) evs next)
    (hlog : s'.shared.app.log c = s.shared.app.log c ++ .ran k :: evs)
    (hs' : s' = s.resume t s'.shared next rest) : Guarded s' c := by
  have hbound : Bound t (.conn c k) s.shared.app :=
    hbase.all.stack t (TcpConnection.piece c k) (by rw [ht]; exact List.mem_cons_self) _ rfl
  obtain ⟨hl, _⟩ := connRuns_const hr
  refine ⟨fun hs hd => ?_, ?_⟩
  · refine connRuns_drained hr h.drained (fun hk hD => ?_) hs ?_
    · refine hc c ?_ hD
      rw [ht]
      rcases hk with rfl | rfl <;> rfl
    · rw [Draining, hl, hs'] at hd
      rcases Config.mem_of_mem_resume ht hd with ⟨_, hnew⟩ | hold
      · exact .inr hnew
      · exact .inl hold
  · rw [hlog]
    refine NoEarlyHalfClose.append h.clean fun d hd => ?_
    rcases List.mem_cons.mp hd with he | hd
    · cases he
    obtain ⟨rfl, hsock, ⟨rfl, hs⟩ | ⟨rfl, ht', hw⟩⟩ := connRuns_shutdownWrite hr hd
    · refine h.drained hs ?_
      rw [Draining, ← hbound.2.2 rfl, ht]
      exact List.mem_cons_self
    · exact shutdownInLoop_empty harmed hprompt ht ht' hsock hw

theorem guarded_step {s s' : State P} {b : ThreadId × Choice Code (Io E)}
    (hr : (lts cfg poller).ReachIf StoresDrained s) (h : ∀ c, Guarded s c)
    (hc : StoresDrained s b) (hs : (lts cfg poller).step s b = some s') (c : ConnId) :
    Guarded s' c := by
  obtain ⟨t, ch⟩ := b
  cases step_conn hs (base hr) (wrapped hr) c with
  | piece ht hch hruns hlog hs' =>
      subst hch
      exact (h c).piece (armed hr c) (base hr) (prompt hr) hc ht hruns hlog hs'
  | idle hi hstack =>
      obtain ⟨r, hx⟩ := hi.conn
      have hl : (s'.shared.app.conn c).loop_ = (s.shared.app.conn c).loop_ := by rw [hx]
      refine ⟨fun hst hd => ?_, ?_⟩
      · rw [Draining, hl, hstack _ _ rfl] at hd
        rw [hx] at hst ⊢
        exact (h c).drained hst hd
      · rcases hi.log with he | ⟨b, he⟩ <;> rw [he]
        · exact (h c).clean
        · exact NoEarlyHalfClose.append (h c).clean (by simp)
  | new _ hconn hlog hstack =>
      refine ⟨fun hs => ?_, fun d hd => ?_⟩
      · rw [hconn.eq] at hs
        cases hs
      · rw [hlog] at hd
        cases hd

theorem guarded_started (c : ConnId) : Guarded (started poller) c := by
  refine ⟨fun hs => ?_, fun _ hd => ?_⟩
  · cases hs
  · cases hd

/-- Along every run in which `kDisconnecting` is stored over drained output
only, no connection's write side is shut down while `outputBuffer_` holds
anything. -/
theorem no_early_half_close {s : State P} (h : (lts cfg poller).ReachIf StoresDrained s)
    (c : ConnId) : NoEarlyHalfClose (s.shared.app.log c) :=
  (run_inv (I := fun s => ∀ c, Guarded s c) h guarded_started
    (fun hr hI hc hs => guarded_step hr hI hc hs) c).clean

/-- The first callback sends, the socket takes two bytes of five, and the callback
shuts down: the write side stays open until `handleWrite` has drained the rest. -/
theorem no_early_half_close_queued :
    ∃ s : State (List ChannelId), .sent [108, 108, 111] ∈ s.shared.app.log 0 ∧
      (s.shared.app.log 0).getLast? = some (.shutdownWrite []) ∧
      NoEarlyHalfClose (s.shared.app.log 0) := by
  obtain ⟨s, hs, hp⟩ := Lts.exists_reachIf (lts echoConfig anyPoller) StoresDrained
    (greeting ++ [(.loop 0, .call (.conn 0 .shutdown)), (.loop 0, .app .none),
      (.loop 0, .app .none), (.loop 0, .go), (.loop 0, .app .none)] ++ writable ++
      [(.loop 0, .app (.sent (some 3))), (.loop 0, .app (.poller [])), (.loop 0, .app .none),
      (.loop 0, .ret), (.loop 0, .app .none)])
    (fun s => decide (.sent [108, 108, 111] ∈ s.shared.app.log 0 ∧
      (s.shared.app.log 0).getLast? = some (.shutdownWrite []))) rfl (by decide +kernel)
  obtain ⟨hsent, hlast⟩ := of_decide_eq_true hp
  exact ⟨s, hsent, hlast, no_early_half_close hs 0⟩

/-- The write-complete callback sends, the socket takes two bytes of five, and
the callback shuts down: the write side is closed over the other three. -/
theorem callback_shutdown_early :
    ¬ ∀ (s : State (List ChannelId)) (c : ConnId), (lts echoConfig anyPoller).Reach s →
      NoEarlyHalfClose (s.shared.app.log c) := by
  intro h
  obtain ⟨s, hs, hp⟩ := Lts.exists_reach (lts echoConfig anyPoller)
    (greeting ++ writable ++ [(.loop 0, .app (.sent (some 3))), (.loop 0, .app (.poller [])),
      (.loop 0, .app .none), (.loop 0, .call (.conn 0 (.send hello))), (.loop 0, .app .none),
      (.loop 0, .app (.sent (some 2))), (.loop 0, .app (.poller [])),
      (.loop 0, .call (.conn 0 .shutdown)), (.loop 0, .app .none), (.loop 0, .app .none),
      (.loop 0, .go), (.loop 0, .app .none), (.loop 0, .ret), (.loop 0, .app .none)])
    (fun s => decide (.shutdownWrite [108, 108, 111] ∈ s.shared.app.log 0)) rfl
    (by decide +kernel)
  exact absurd (h s 0 hs _ (of_decide_eq_true hp)) (by decide)

end TcpServer

end Muduox.Net
