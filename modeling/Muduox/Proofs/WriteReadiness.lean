import Muduox.Proofs.DispatchOrder
import Muduox.Proofs.IocpContexts
import Muduox.Proofs.OutputStream

/-!
# Pending output over a completion port

A send of no bytes is posted when `update` asked for it, and its packet is one
report. Under epoll a socket that still takes bytes is reported again; here
somebody has to call `update`, and `handleWrite` does so only when it is done. So
a part that is left by `handleWrite` waits for nothing, unless the channel is in
`pendingPosts_` for another reason. If `handleWrite` leaves no part (`Drains`),
then whenever a loop is about to wait, a connection that writes has its send
posted or will have it retried: in between, some frame of its loop is on the way
to see to it (`tends`).
-/

namespace Muduox.Net

namespace TcpServer

open Threads Reactor TcpConnection IocpPoller IocpRound

variable {cfg : ServerConfig} {s s' : State SoundIocp} {c : ConnId}

/-- `handleWrite` sends all there is when it sends, unless the channel will be
posted anyway, or an error was reported. -/
def Drains (s : State SoundIocp) (b : ThreadId × Choice Code (Io (IocpChoice ChannelId))) : Prop :=
  match (s.stack b.1).head?, b.2 with
  | some (.code (.conn c .handleWrite)), .app (.sent (some n)) =>
      (s.shared.app.conn c).channel_.isWriting = true → 0 < n →
        .ran .handleError ∉ s.shared.app.log c →
        .conn c ∉ (s.shared.app.poller (s.shared.app.conn c).loop_).1.pendingPosts_ →
        (s.shared.app.conn c).outputBuffer_.bytes.length ≤ n
  | _, _ => True

instance (s : State SoundIocp) (b : ThreadId × Choice Code (Io (IocpChoice ChannelId))) :
    Decidable (Drains s b) := by
  unfold Drains
  split <;> infer_instance

/-- Every connection registered with `p` that writes pending output, and for
which no error was reported, has a send outstanding or is retried. -/
def OutputArmed (x : TcpServer SoundIocp) (p : IocpPoller ChannelId) : Prop :=
  ∀ c, p.context_ (.conn c) ≠ none → (x.conn c).channel_.isWriting = true →
    (x.conn c).outputBuffer_.bytes ≠ [] → .ran .handleError ∉ x.log c →
    (∃ i, p.context_ (.conn c) = some i ∧ (p.contexts i).write.pending = true ∧
        0 < (p.contexts i).write.outstanding) ∨ .conn c ∈ p.pendingPosts_

/-! ## One round -/

section Round

variable {K : Type} [DecidableEq K] {p : IocpPoller K} {xs : K → Channel} {r r' : IocpRound K}
  {k : K} {i : Nat}

/-- The packet of the send is a report. -/
theorem complete_writes {q : Packet} (h : Found p r) (hk : p.context_ k = some i)
    (hwriting : (xs k).isWriting = true) (hr : complete xs r q = some r')
    (hI : (r.poller.contexts i).write.pending = true ∨ (r.channelRevents k).write = true ∨
      (r.channelRevents k).error = true) :
    (r'.poller.contexts i).write.pending = true ∨ (r'.channelRevents k).write = true ∨
      (r'.channelRevents k).error = true := by
  by_cases hi : q.ctx = i
  · subst hi
    have hrev := complete_revents h hk hr
    rw [hwriting] at hrev
    cases hread : q.isRead with
    | true =>
        rw [complete_self h hk hr, if_pos hread, completeRead_write]
        rw [complete_self h hk hr, if_pos hread] at hrev
        rw [hrev]
        rcases hI with hI | hI | hI
        · exact .inl hI
        · exact .inr (.inl (by simp [Events.or, hI]))
        · exact .inr (.inr (by simp [Events.or, hI]))
    | false =>
        refine .inr ?_
        rw [hrev, hread]
        cases q.ok <;> simp [Events.or]
  · obtain ⟨hctx, hrev⟩ := complete_of_ne h hk hi hr
    rw [hctx, hrev]
    exact hI

theorem round_writes {l : List Packet} (h : Found p r) (hk : p.context_ k = some i)
    (hwriting : (xs k).isWriting = true) (hr : l.foldlM (complete xs) r = some r')
    (hpend : (r.poller.contexts i).write.pending = true) :
    (r'.poller.contexts i).write.pending = true ∨ (r'.channelRevents k).write = true ∨
      (r'.channelRevents k).error = true := by
  refine (foldlM_inv (I := fun r => Found p r ∧ ((r.poller.contexts i).write.pending = true ∨
    (r.channelRevents k).write = true ∨ (r.channelRevents k).error = true))
    (fun _ hI hx => ⟨complete_found hI.1 hx, complete_writes hI.1 hk hwriting hx hI.2⟩)
    ⟨h, .inl hpend⟩ hr).2

/-- Whoever had a send posted still has, or hears of it. -/
theorem poll_writes {q : IocpPoller K} {e : IocpChoice K} {active : List (K × Events)}
    (hp : p.Sound) (h : p.poll xs e = some (q, active)) (hwriting : (xs k).isWriting = true)
    (hkept : Pending IocpContext.write p k) :
    Pending IocpContext.write q k ∨ (∃ rev, (k, rev) ∈ active) ∧
      ∀ rev, (k, rev) ∈ active → rev.write = true ∨ rev.error = true := by
  obtain ⟨p₁, r, hsound, hretried, hdq, rfl⟩ := poll_eq hp h
  have hfound := hdq.found hsound
  have hkept₁ := hkept.retried hp hretried hretried.write
    fun i hi hmem hno => (hretried.done k i hi hmem hno).2 hwriting
  rcases hkept₁ with ⟨i, hi, hpend⟩ | hmem
  · rcases round_writes (.start hsound) hi hwriting hdq.packets hpend with hpend | hrev
    · exact .inl (.inl ⟨i, by rw [hfound.same.context_]; exact hi, hpend⟩)
    · have hne : r.channelRevents k ≠ kNoneEvent := by
        intro hnone
        rw [hnone] at hrev
        rcases hrev with hrev | hrev <;> cases hrev
      refine .inr ⟨⟨_, hdq.reported hsound hne⟩, fun rev hrev' => ?_⟩
      rw [hdq.unique hrev' (hfound.revents k hne)]
      exact hrev
  · exact .inl (.inr (by rw [hfound.posts]; exact hmem))

end Round

/-! ## On the way to it -/

/-- Connection `c` is to hear of its socket: registered, writing, and no error was
reported for it. -/
def Wants (x : TcpServer SoundIocp) (c : ConnId) : Prop :=
  (x.poller (x.conn c).loop_).1.context_ (.conn c) ≠ none ∧
    (x.conn c).channel_.isWriting = true ∧ .ran .handleError ∉ x.log c

def Posted (x : TcpServer SoundIocp) (c : ConnId) : Prop :=
  Pending IocpContext.write (x.poller (x.conn c).loop_).1 (.conn c)

/-- The code that posts the send of connection `c`, drains its output or reports
an error. -/
def tends (x : TcpServer SoundIocp) (c : ConnId) : Frame Code → Prop
  | .code (.update ch) => ch = .conn c
  | .code (.handleEvent ch) => ch = .conn c ∧
      ((x.conn c).channel_.revents_.write = true ∨ (x.conn c).channel_.revents_.error = true)
  | .code (.conn d k) => d = c ∧ (k = .handleWrite ∨ k = .handleError)
  | _ => False

def Watched (s : State SoundIocp) (c : ConnId) : Prop :=
  Wants s.shared.app c → Posted s.shared.app c ∨
    ∃ f ∈ s.stack (.loop (s.shared.app.conn c).loop_), tends s.shared.app c f

/-- A step that has nothing to do with it. -/
structure Passes (x x' : TcpServer SoundIocp) (c : ConnId) (f : Frame Code) : Prop where
  loop : (x'.conn c).loop_ = (x.conn c).loop_
  wants : Wants x c
  posted : Posted x c → Posted x' c
  tends : ∀ g, tends x c g → tends x' c g
  other : ¬ TcpServer.tends x c f

theorem Watched.resume (h : Watched s c) {t : ThreadId} {f : Frame Code}
    {x : Reactor Code (TcpServer SoundIocp)} {next rest : List (Frame Code)}
    (ht : s.stack t = f :: rest)
    (hstep : Wants x.app c → (Posted x.app c ∨ t = .loop (x.app.conn c).loop_ ∧
      ∃ g ∈ next, tends x.app c g) ∨ Passes s.shared.app x.app c f) :
    Watched (s.resume t x next rest) c := by
  intro hw
  rcases hstep hw with (hposted | ⟨hl, g, hg, hgt⟩) | hp
  · exact .inl hposted
  · refine .inr ⟨g, ?_, hgt⟩
    rw [Config.resume_shared, ← hl, Config.resume_stack_self]
    exact List.mem_append_left _ hg
  · rcases h hp.wants with hposted | ⟨g, hg, hgt⟩
    · exact .inl (hp.posted hposted)
    · refine .inr ⟨g, ?_, hp.tends g hgt⟩
      rw [Config.resume_shared, hp.loop]
      refine Config.mem_resume ht hg (.inl ?_)
      rintro rfl
      exact hp.other hgt

/-- Neither the events of the connection change nor what its poller knows. -/
theorem passes {x x' : TcpServer SoundIocp} {f : Frame Code} (hw : Wants x' c)
    (hl : (x'.conn c).loop_ = (x.conn c).loop_)
    (hrev : (x'.conn c).channel_.revents_ = (x.conn c).channel_.revents_)
    (hpoller : x'.poller (x.conn c).loop_ = x.poller (x.conn c).loop_)
    (hwriting : (x.conn c).channel_.isWriting = true)
    (hlog : ∀ ev ∈ x.log c, ev ∈ x'.log c) (hf : ¬ tends x c f) : Passes x x' c f := by
  obtain ⟨hreg, _, herr⟩ := hw
  rw [hl, hpoller] at hreg
  refine ⟨hl, ⟨hreg, hwriting, fun hm => herr (hlog _ hm)⟩, fun hp => ?_, fun g hg => ?_, hf⟩
  · unfold Posted
    rw [hl, hpoller]
    exact hp
  · unfold tends at hg ⊢
    rw [hrev]
    exact hg

/-! ## Step by step -/

section Piece

variable {E : Type} {d : ConnId} {t : ThreadId} {x x' : TcpConnection} {k : ConnCode} {io : Io E}
  {evs : List Event} {next : List (Frame Code)}

/-- Writing is enabled together with an `update`. -/
theorem connRuns_enables (h : x.Runs d t k io x' evs next) (hw : x'.channel_.isWriting = true) :
    x.channel_.isWriting = true ∨ t = .loop x.loop_ ∧ TcpConnection.update d ∈ next := by
  have hupd : t = .loop x.loop_ → x.channel_.isWriting = true ∨
      t = .loop x.loop_ ∧ TcpConnection.update d ∈ x.updateUnlessWriting d := by
    intro ht
    unfold updateUnlessWriting
    split
    · next hw => exact .inl hw
    · exact .inr ⟨ht, List.mem_cons_self⟩
  cases h with
  | sendBufferHere _ ht | sentPart ht | queued ht => exact hupd ht
  | connectDestroyed | writeAll => cases hw
  | _ => exact .inl hw

/-- After `handleWrite` a channel writes because an error is on its way, or a part
is left. -/
theorem connRuns_leaves (h : x.Runs d t .handleWrite io x' evs next)
    (hw : x'.channel_.isWriting = true) :
    TcpConnection.piece d .handleError ∈ next ∨
      ∃ n, io = .sent (some n) ∧ x.channel_.isWriting = true ∧ 0 < n ∧
        n < x.outputBuffer_.bytes.length := by
  cases h with
  | writeFailed => exact .inl List.mem_cons_self
  | writePart hw hn hlt => exact .inr ⟨_, rfl, hw, hn, hlt⟩
  | writeAll => cases hw
  | notWriting hno =>
      rw [hno] at hw
      cases hw

end Piece

section Step

variable {t : ThreadId} {a : Code} {io : Io (IocpChoice ChannelId)} {x : TcpServer SoundIocp}
  {next rest : List (Frame Code)}

/-- A step's code either leaves the connection alone or sees to it. -/
abbrev Sees (s : State SoundIocp) (x : TcpServer SoundIocp) (c : ConnId) (t : ThreadId)
    (f : Frame Code) (next : List (Frame Code)) : Prop :=
  (Posted x c ∨ t = .loop (x.conn c).loop_ ∧ ∃ g ∈ next, tends x c g) ∨
    Passes s.shared.app x c f

/-- A piece of the connection's own. -/
theorem piece_sees {k : ConnCode} {y : TcpConnection} {evs : List Event}
    (hr : (lts cfg iocpPoller).ReachIf Drains s) (hc : Drains s (t, .app io))
    (ht : s.stack t = TcpConnection.piece c k :: rest)
    (h : (s.shared.app.conn c).Runs c t k io y evs next)
    (hw : Wants (s.shared.app.setConn c k ⟨y, evs, next⟩) c) :
    Sees s (s.shared.app.setConn c k ⟨y, evs, next⟩) c t (TcpConnection.piece c k) next := by
  obtain ⟨hreg, hwriting, herr⟩ := hw
  have hw' : Wants (s.shared.app.setConn c k ⟨y, evs, next⟩) c := ⟨hreg, hwriting, herr⟩
  obtain ⟨hl, _⟩ := connRuns_const h
  rw [setConn_conn_self] at hwriting
  rw [setConn_log_self] at herr
  have hbound : Bound t (.conn c k) s.shared.app :=
    (base hr).all.stack t _ (by rw [ht]; exact List.mem_cons_self) _ rfl
  have hloop : k.anyThread = false →
      t = .loop ((s.shared.app.setConn c k ⟨y, evs, next⟩).conn c).loop_ := by
    rw [setConn_conn_self]
    dsimp only
    rw [hl]
    exact hbound.2.2
  by_cases hk : k = .handleWrite
  · subst hk
    rcases connRuns_leaves h hwriting with hmem | ⟨n, rfl, hold, hn, hlt⟩
    · exact .inl (.inr ⟨hloop rfl, _, hmem, rfl, .inr rfl⟩)
    · -- A part is left: the channel is in `pendingPosts_`.
      refine .inl (.inl (.inr ?_))
      rw [setConn_conn_self]
      show ChannelId.conn c ∈ (s.shared.app.poller y.loop_).1.pendingPosts_
      rw [hl]
      by_contra hno
      simp only [Drains, ht, List.head?_cons] at hc
      have hle := hc hold hn (fun hm => herr (List.mem_append_left _ hm)) hno
      omega
  · rcases connRuns_enables h hwriting with hold | ⟨hthread, hmem⟩
    · refine .inr (passes hw' ?_ ?_ rfl hold (fun ev hev => ?_) ?_)
      · rw [setConn_conn_self]
        exact hl
      · rw [setConn_conn_self]
        exact connRuns_revents h
      · rw [setConn_log_self]
        exact List.mem_append_left _ hev
      · rintro ⟨_, he | he⟩
        · exact hk he
        · rw [he] at herr
          exact herr (List.mem_append_right _ List.mem_cons_self)
    · refine .inl (.inr ⟨?_, _, hmem, rfl⟩)
      rw [setConn_conn_self]
      dsimp only
      rw [hl]
      exact hthread

/-- `handleEvent` of the connection's channel. -/
theorem handleEvent_sees (hr : (lts cfg iocpPoller).ReachIf Drains s)
    (ht : s.stack t = .code (.handleEvent (.conn c)) :: rest)
    (hw : Wants (s.shared.app.handleEvent (.conn c)).1 c) :
    Sees s (s.shared.app.handleEvent (.conn c)).1 c t (.code (.handleEvent (.conn c)))
      (s.shared.app.handleEvent (.conn c)).2 := by
  have hconn : (s.shared.app.handleEvent (.conn c)).1.conn c =
      { s.shared.app.conn c with
        channel_ := (s.shared.app.conn c).channel_.setRevents kNoneEvent } := setChannel_conn_self _
  have hbound : Bound t (.handleEvent (.conn c)) s.shared.app :=
    (base hr).all.stack t _ (by rw [ht]; exact List.mem_cons_self) _ rfl
  have hthread : t = .loop ((s.shared.app.handleEvent (.conn c)).1.conn c).loop_ := by
    rw [hconn]
    exact hbound.1
  by_cases hrev : (s.shared.app.conn c).channel_.revents_.write = true ∨
      (s.shared.app.conn c).channel_.revents_.error = true
  · refine .inl (.inr ⟨hthread, ?_⟩)
    rcases hrev with hrev | hrev
    · exact ⟨_, List.mem_map_of_mem (mem_handlers.mpr (.inr (.inr (.inr ⟨hrev, rfl⟩)))), rfl, .inl rfl⟩
    · exact ⟨_, List.mem_map_of_mem (mem_handlers.mpr (.inl ⟨hrev, rfl⟩)), rfl, .inr rfl⟩
  · refine .inr ?_
    obtain ⟨hreg, hwriting, herr⟩ := hw
    rw [hconn] at hreg hwriting
    refine ⟨by rw [hconn], ⟨hreg, hwriting, herr⟩, fun hp => ?_, fun g hg => ?_, fun hf => hrev hf.2⟩
    · unfold Posted
      rw [hconn]
      exact hp
    · unfold tends at hg ⊢
      split at hg
      · exact hg
      · exact absurd hg.2 hrev
      · exact hg
      · exact hg

/-- Another poller, or another channel of the same. -/
theorem passes_poller {l : LoopId} {p : SoundIocp} {f : Frame Code}
    (hw : Wants (s.shared.app.setPoller l p) c)
    (hb : l = (s.shared.app.conn c).loop_ → Beside (s.shared.app.poller l).1 p.1 (.conn c))
    (hf : ¬ tends s.shared.app c f) : Passes s.shared.app (s.shared.app.setPoller l p) c f := by
  by_cases hl : l = (s.shared.app.conn c).loop_
  · subst hl
    have hbeside := hb rfl
    obtain ⟨hreg, hwriting, herr⟩ := hw
    rw [show (s.shared.app.setPoller _ p).conn c = s.shared.app.conn c from rfl,
      setPoller_poller_self, hbeside.context_] at hreg
    refine ⟨rfl, ⟨hreg, hwriting, herr⟩, fun hp => ?_, fun _ hg => hg, hf⟩
    unfold Posted
    rw [show (s.shared.app.setPoller _ p).conn c = s.shared.app.conn c from rfl,
      setPoller_poller_self]
    exact hp.beside hbeside
  · exact passes hw rfl rfl (setPoller_poller_of_ne _ _ _ (Ne.symm hl)) hw.2.1 (fun _ => id) hf

theorem update_sees {ch : ChannelId} {e : IocpChoice ChannelId} {p : SoundIocp}
    (h : iocpPoller.updateChannel (s.shared.app.poller (s.shared.app.ownerLoop ch)) ch
      (s.shared.app.channel ch) e = some p)
    (hw : Wants (s.shared.app.setPoller (s.shared.app.ownerLoop ch) p) c) :
    Sees s (s.shared.app.setPoller (s.shared.app.ownerLoop ch) p) c t (.code (.update ch)) next := by
  have hupd : (s.shared.app.poller (s.shared.app.ownerLoop ch)).1.updateChannel ch
      (s.shared.app.channel ch) e.bound (ch = .acceptor) = some p.1 := by
    simp only [iocpPoller] at h
    split at h <;> cases h
    assumption
  have hsound := (s.shared.app.poller (s.shared.app.ownerLoop ch)).2
  by_cases hch : ch = .conn c
  · subst hch
    refine .inl (.inl ?_)
    obtain ⟨hreg, hwriting, _⟩ := hw
    have hself : (s.shared.app.setPoller (s.shared.app.ownerLoop (.conn c)) p).poller
        (s.shared.app.conn c).loop_ = p := setPoller_poller_self ..
    rw [show (s.shared.app.setPoller _ p).conn c = s.shared.app.conn c from rfl, hself] at hreg
    unfold Posted
    rw [show (s.shared.app.setPoller _ p).conn c = s.shared.app.conn c from rfl, hself]
    rcases updateChannel_posts hsound hupd hreg (.inr hwriting) with ⟨hacc, _⟩ | hmem
    · simp at hacc
    · exact .inr hmem
  · refine .inr (passes_poller hw (fun _ => updateChannel_beside hsound hupd (Ne.symm hch)) hch)

theorem remove_sees {ch : ChannelId} {p : SoundIocp}
    (h : iocpPoller.removeChannel (s.shared.app.poller (s.shared.app.ownerLoop ch)) ch
      (s.shared.app.channel ch) = some p)
    (hw : Wants (s.shared.app.setPoller (s.shared.app.ownerLoop ch) p) c) :
    Sees s (s.shared.app.setPoller (s.shared.app.ownerLoop ch) p) c t (.code (.remove ch)) next := by
  have hrem : (s.shared.app.poller (s.shared.app.ownerLoop ch)).1.removeChannel ch
      (s.shared.app.channel ch) = some p.1 := by
    simp only [iocpPoller] at h
    split at h <;> cases h
    assumption
  have hsound := (s.shared.app.poller (s.shared.app.ownerLoop ch)).2
  refine .inr (passes_poller hw (fun hl => removeChannel_beside hsound hrem ?_) id)
  rintro rfl
  obtain ⟨hreg, _⟩ := hw
  have hself : (s.shared.app.setPoller (s.shared.app.ownerLoop (.conn c)) p).poller
      (s.shared.app.conn c).loop_ = p := setPoller_poller_self ..
  rw [show (s.shared.app.setPoller _ p).conn c = s.shared.app.conn c from rfl, hself] at hreg
  exact (removeChannel_registered hrem hreg).2 rfl

/-- What any code of the server does about connection `c`. -/
theorem code_sees (hr : (lts cfg iocpPoller).ReachIf Drains s) (hc : Drains s (t, .app io))
    (ht : s.stack t = .code a :: rest) (h : Runs cfg iocpPoller t s.shared.app a io x next)
    (hw : Wants x c) : Sees s x c t (.code a) next := by
  have hbound : Bound t a s.shared.app :=
    (base hr).all.stack t _ (by rw [ht]; exact List.mem_cons_self) _ rfl
  have hlog : ∀ ev ∈ s.shared.app.log c, ev ∈ x.log c := fun _ hev =>
    ((runs_base h (base hr).app hbound).2.2.log c).subset hev
  have hsame : x.conn c = s.shared.app.conn c → x.poller = s.shared.app.poller →
      ¬ tends s.shared.app c (.code a) → Sees s x c t (.code a) next := by
    intro hconn hpoller hf
    refine .inr (passes hw ?_ ?_ ?_ ?_ hlog hf)
    · rw [hconn]
    · rw [hconn]
    · rw [hpoller]
    · rw [← hconn]
      exact hw.2.1
  cases h with
  | @conn d k _ y evs _ h =>
      by_cases hdc : c = d
      · subst hdc
        exact piece_sees hr hc ht h hw
      · exact hsame (setConn_conn_of_ne _ _ _ _ hdc) rfl fun hf => hdc hf.1.symm
  | @handleEvent ch =>
      by_cases hch : ch = .conn c
      · subst hch
        exact handleEvent_sees hr ht hw
      · exact hsame (setChannel_conn_of_ne hch _) (by cases ch <;> rfl) fun hf => hch hf.1
  | update h => exact update_sees h hw
  | remove h => exact remove_sees h hw
  | newConnection =>
      by_cases hacc : c = s.shared.app.accepted
      · obtain ⟨_, hwriting, _⟩ := hw
        have hnew : (Function.update s.shared.app.conn s.shared.app.accepted _ c).channel_.isWriting =
          true := hwriting
        rw [hacc, Function.update_self] at hnew
        cases hnew
      · exact hsame (Function.update_of_ne hacc ..) rfl id
  | _ => exact hsame rfl rfl id

/-- On the stack of a loop that polls nothing is on the way. -/
theorem poll_idles {l : LoopId} {f : Frame Code} (hr : (lts cfg iocpPoller).ReachIf Drains s)
    (ht : s.stack t = .poll l :: rest) (hf : f ∈ Frame.poll l :: rest) :
    ¬ tends s.shared.app c f := by
  have hturn : turns f = true := by
    rcases List.mem_cons.mp hf with rfl | hf
    · rfl
    · exact poll_rest hr ht f hf
  intro htend
  cases f <;> first | exact htend | cases hturn

/-- What `poll` does about it: over an empty stack nothing is on the way, so the
send was posted or is now. -/
theorem polled_sees {l : LoopId} {codes : List Code} {place : Nat}
    (hr : (lts cfg iocpPoller).ReachIf Drains s) (h : Watched s c)
    (ht : s.stack t = .poll l :: rest)
    (hx : poll iocpPoller l io s.shared.app = some (x, some codes)) (hw : Wants x c) :
    Sees s x c t (.poll l) ((s.shared.loop l).iteration l codes place) := by
  obtain ⟨e, q, rfl, hq, hact, hrev⟩ := poll_conn hx c
  obtain ⟨e', q', he, hq', hrest, _⟩ := poll_revents hx
  cases he
  rw [hq] at hq'
  cases hq'
  obtain ⟨active, hq2, hpoll⟩ := iocpPoller_poll hq
  rw [hq2] at hact hrev
  rw [Option.getD_some] at hrev
  have hcodes : codes = active.map fun a => .handleEvent a.1 := Option.some.inj hact
  obtain ⟨rev, hconn⟩ := hrest.conn c
  have hconn' : x.conn c = { s.shared.app.conn c with
      channel_ := (s.shared.app.conn c).channel_.setRevents rev } := hconn
  have hpoller : x.poller = (s.shared.app.setPoller l q.1).poller := hrest.pollers
  have hlog : x.log = s.shared.app.log := hrest.log
  obtain ⟨hreg, hwriting, herr⟩ := hw
  have hwriting' : (s.shared.app.conn c).channel_.isWriting = true := by
    rw [hconn'] at hwriting
    exact hwriting
  rw [hlog] at herr
  rw [hconn', hpoller] at hreg
  by_cases hl : l = (s.shared.app.conn c).loop_
  · subst hl
    have hself : (s.shared.app.setPoller (s.shared.app.conn c).loop_ q.1).poller
        (s.shared.app.conn c).loop_ = q.1 := setPoller_poller_self ..
    have hreg' : q.1.1.context_ (.conn c) ≠ none := by
      rw [← hself]
      exact hreg
    have hwants : Wants s.shared.app c := ⟨iocpPoller.registered_poll hq hreg', hwriting', herr⟩
    have hthread : t = .loop (s.shared.app.conn c).loop_ := (sound hr).poll_thread ht
    have hposted : Posted s.shared.app c := by
      refine (h hwants).resolve_right ?_
      rintro ⟨f, hf, htend⟩
      rw [← hthread, ht] at hf
      exact poll_idles hr ht hf htend
    have hchannel : (s.shared.app.channel (.conn c)).isWriting = true := hwriting'
    rcases poll_writes (s.shared.app.poller _).2 hpoll hchannel hposted with
      hkept | ⟨⟨rev', hmem⟩, hall⟩
    · refine .inl (.inl ?_)
      unfold Posted
      rw [hconn', hpoller]
      dsimp only
      rw [hself]
      exact hkept
    · refine .inl (.inr ⟨?_, .code (.handleEvent (.conn c)), code_mem_iteration ?_, rfl, ?_⟩)
      · rw [hconn']
        exact hthread
      · rw [hcodes]
        exact List.mem_map.mpr ⟨_, hmem, rfl⟩
      · rcases hrev with ⟨hno, _⟩ | ⟨r, hr', heq⟩
        · exact absurd hmem (hno rev')
        · rw [heq]
          exact hall r hr'
  · have hwants : Wants x c :=
      ⟨by rw [hconn', hpoller]; exact hreg, hwriting, by rw [hlog]; exact herr⟩
    refine .inr (passes (x := s.shared.app) hwants ?_ ?_ ?_ hwriting' ?_ id)
    · rw [hconn']
    · rcases hrev with ⟨_, hsame⟩ | ⟨r, hmem, _⟩
      · exact hsame
      · -- A poller reports its own loop's channels.
        have hown := ((base hr).app.registered l (.conn c) (iocpPoller.poll_registered
          (hq.trans (by rw [← hq2])) hmem)).1
        exact absurd hown hl
    · rw [hpoller]
      exact setPoller_poller_of_ne _ _ _ (Ne.symm hl)
    · rw [hlog]
      exact fun _ => id

theorem watched_step {b : ThreadId × Choice Code (Io (IocpChoice ChannelId))}
    (hr : (lts cfg iocpPoller).ReachIf Drains s) (hc : Drains s b)
    (hs : (lts cfg iocpPoller).step s b = some s') (h : Watched s c) : Watched s' c := by
  obtain ⟨t, ch⟩ := b
  obtain ⟨f, rest, x, next, ht, hruns, rfl⟩ := step_runs hs
  have hquiet : x.app = s.shared.app → ¬ tends s.shared.app c f →
      Watched (s.resume t x next rest) c := by
    intro hx hf
    refine h.resume ht fun hw => .inr ?_
    rw [hx] at hw ⊢
    exact passes hw rfl rfl rfl hw.2.1 (fun _ => id) hf
  cases hruns with
  | code hx => exact h.resume ht (code_sees hr hc ht (exec_runs hx))
  | polled hx => exact h.resume ht (polled_sees hr h ht hx)
  | polling hx =>
      obtain ⟨_, _, _, hq, hact, _⟩ := poll_conn hx c
      obtain ⟨active, hq2, _⟩ := iocpPoller_poll hq
      rw [hq2] at hact
      cases hact
  | _ => exact hquiet rfl id

end Step

theorem watched (h : (lts cfg iocpPoller).ReachIf Drains s) (c : ConnId) : Watched s c :=
  run_inv h (fun hw => absurd rfl hw.1) fun hr hI hc hs => watched_step hr hc hs hI

/-- Along every run in which `handleWrite` leaves no part, a loop's call of `poll`
begins to wait with the output of all its connections armed, whatever the posts
it retries come to. -/
theorem output_armed {t : ThreadId} {l : LoopId} {rest : List (Frame Code)}
    (h : (lts cfg iocpPoller).ReachIf Drains s) (ht : s.stack t = .poll l :: rest)
    (e : IocpChoice ChannelId) :
    ∃ p, (s.shared.app.poller l).1.retryPosts s.shared.app.channel e = some p ∧
      OutputArmed s.shared.app p := by
  obtain ⟨p, hp, hsound, hretried⟩ :=
    retryPosts_retried (s.shared.app.poller l).2 s.shared.app.channel e
  refine ⟨p, hp, fun c hreg hwriting _ herr => ?_⟩
  have hchannel : (s.shared.app.channel (.conn c)).isWriting = true := hwriting
  have hreg' := hreg
  rw [hretried.same.context_] at hreg'
  have hl : l = (s.shared.app.conn c).loop_ := ((base h).app.registered l (.conn c) hreg').1
  have hthread : t = .loop (s.shared.app.conn c).loop_ := by
    rw [← hl]
    exact (sound h).poll_thread ht
  have hposted : Posted s.shared.app c := by
    refine (watched h c ⟨by rw [← hl]; exact hreg', hwriting, herr⟩).resolve_right ?_
    rintro ⟨f, hf, htend⟩
    rw [← hthread, ht] at hf
    exact poll_idles h ht hf htend
  unfold Posted at hposted
  rw [← hl] at hposted
  have hkept := hposted.retried (s.shared.app.poller l).2 hretried hretried.write
    fun i hi hmem hno => (hretried.done _ i hi hmem hno).2 hchannel
  rcases hkept with ⟨i, hi, hpend⟩ | hmem
  · refine .inl ⟨i, hi, hpend, ?_⟩
    have hlive := (hsound.live i _ ((hsound.context _ i).mp hi)).2
    rw [hlive, hpend]
    exact Nat.one_pos
  · exact .inr hmem

def windowsConfig : ServerConfig := { echoConfig with platform := .windows }

/-- A server on one loop whose connection 0 sends five bytes, of which the socket
takes two; the loop is about to wait. -/
def sendingHello : List (ThreadId × Choice Code (Io (IocpChoice ChannelId))) :=
  let quiet : IocpChoice ChannelId := {}
  listening quiet ++ accepting quiet { selected := [.acceptor] } ++
    [(.loop 0, .call (.conn 0 (.send hello))), (.loop 0, .app .none),
      (.loop 0, .app (.sent (some 2))), (.loop 0, .app (.poller {})), (.loop 0, .ret),
      (.loop 0, .go), (.loop 0, .go)]

theorem output_armed_hello :
    ∃ (s : State SoundIocp) (rest : List (Frame Code)) (p : IocpPoller ChannelId),
      s.stack (.loop 0) = .poll 0 :: rest ∧
        (s.shared.app.conn 0).outputBuffer_.bytes = [108, 108, 111] ∧ OutputArmed s.shared.app p := by
  obtain ⟨s, hs, hp⟩ := Lts.exists_reachIf (lts windowsConfig iocpPoller) Drains sendingHello
    (fun s => decide (s.stack (.loop 0) = [.poll 0] ∧
      (s.shared.app.conn 0).outputBuffer_.bytes = [108, 108, 111])) rfl (by decide +kernel)
  obtain ⟨hstack, hout⟩ := of_decide_eq_true hp
  obtain ⟨p, _, harmed⟩ := output_armed hs hstack {}
  exact ⟨s, [], p, hstack, hout, harmed⟩

/-- The send completes, and `handleWrite` gets rid of one more byte. -/
theorem partial_write_disarms :
    ¬ ∀ (s : State SoundIocp) (t : ThreadId) (l : LoopId) (rest : List (Frame Code))
      (e : IocpChoice ChannelId) (p : IocpPoller ChannelId),
      (lts windowsConfig iocpPoller).Reach s → s.stack t = .poll l :: rest →
      (s.shared.app.poller l).1.retryPosts s.shared.app.channel e = some p →
      OutputArmed s.shared.app p := by
  intro h
  obtain ⟨s, hs, hp⟩ := Lts.exists_reach (lts windowsConfig iocpPoller)
    (sendingHello ++ [(.loop 0, .poll (.poller { packets := [⟨1, false, true, true⟩], order := [.conn 0] }) 0),
      (.loop 0, .app .none), (.loop 0, .app (.sent (some 1))), (.loop 0, .go), (.loop 0, .go)])
    (fun s => decide (s.stack (.loop 0) = [.poll 0] ∧
      (s.shared.app.conn 0).outputBuffer_.bytes = [108, 111] ∧
      (s.shared.app.conn 0).channel_.isWriting = true ∧
      .ran .handleError ∉ s.shared.app.log 0 ∧
      (s.shared.app.poller 0).1.context_ (.conn 0) = some 1 ∧
      ((s.shared.app.poller 0).1.contexts 1).write.pending = false ∧
      (s.shared.app.poller 0).1.pendingPosts_ = [])) rfl (by decide +kernel)
  obtain ⟨hstack, hout, hwriting, herr, hctx, hpend, hposts⟩ := of_decide_eq_true hp
  have hretry : (s.shared.app.poller 0).1.retryPosts s.shared.app.channel {} =
      some (s.shared.app.poller 0).1 := by
    unfold retryPosts
    rw [hposts]
    rfl
  rcases h s (.loop 0) 0 [] {} _ hs hstack hretry 0 (by rw [hctx]; simp) hwriting (by rw [hout]; simp)
    herr with ⟨i, hi, hyes, _⟩ | hmem
  · rw [hctx] at hi
    cases hi
    rw [hpend] at hyes
    cases hyes
  · rw [hposts] at hmem
    cases hmem

end TcpServer

end Muduox.Net
