import Muduox.Proofs.FunctorOrder
import Muduox.Proofs.Lifecycle

/-!
# Functors that hold a raw connection

`send`, `shutdown` and `forceClose` push functors that capture `this`. The test
of `state_` that should keep them off a closed connection comes before the push,
on another thread, so all that orders such a functor before `connectDestroyed`
is the queue of the IO loop, which both go through. A push that comes before the
push of `connectDestroyed` is in time, and a later one is not: its functor runs
on a connection that is reset, or gone.

The functors of a loop that did not start yet are one sequence, the rest of the
batch and then the queue (`line`). In it no raw functor of a connection comes
after its `connectDestroyed`, and none is left once that has started.
-/

namespace Muduox.Net

/-- The pieces the three calls make functors of, with a raw `this`. -/
def ConnCode.raw : ConnCode → Bool
  | .sendInLoop _ | .shutdownInLoop | .handleClose => true
  | _ => false

namespace TcpServer

open Threads Reactor TcpConnection

variable {P E : Type} {cfg : ServerConfig} {poller : Poller P E}

/-- The functors of loop `l` that did not start, in their order. -/
abbrev line (l : LoopId) (s : State P) : List (Frame Code) := batchOf l s ++ queueOf l s.shared

/-- `connectDestroyed` of connection `c` was queued. -/
def Doomed (s : State P) (c : ConnId) : Prop :=
  let l := (s.shared.app.conn c).loop_
  .ran .connectDestroyed ∈ s.shared.app.log c ∨
    TcpConnection.piece c .connectDestroyed ∈ s.stack (.loop l) ∨
    TcpConnection.piece c .connectDestroyed ∈ line l s

/-- A functor with a raw `this` is pushed before `connectDestroyed` is. -/
def PushedInTime (s : State P) (b : ThreadId × Choice Code (Io E)) : Prop :=
  match (s.stack b.1).head? with
  | some (.queueInLoop _ (.code (.conn c k))) => k.raw = true → ¬ Doomed s c
  | _ => True

instance (s : State P) (c : ConnId) : Decidable (Doomed s c) := by
  unfold Doomed
  infer_instance

instance (s : State P) (b : ThreadId × Choice Code (Io E)) : Decidable (PushedInTime s b) := by
  unfold PushedInTime
  split <;> infer_instance

/-- No raw functor, and no call of `shutdownInLoop`, runs on a connection that
is reset or has no owner. -/
structure FunctorsLive (s : State P) : Prop where
  functor : ∀ c k t l rest, s.stack t = .functor l (TcpConnection.piece c k) :: rest →
    k.raw = true → (s.shared.app.conn c).socket_ = true ∧
      (s.shared.app.accepted < 2 ^ 31 → Owned s c)
  shutdown : ∀ c t rest, s.stack t = TcpConnection.piece c .shutdownInLoop :: rest →
    (s.shared.app.conn c).socket_ = true

/-! ## A connection that leaves the server is closed -/

/-- The code that takes connection `c` out of the server. -/
def removes (c : ConnId) : Code → Prop
  | .removeConnection d | .removeConnectionInLoop d | .conn d .connectDestroyed => d = c
  | _ => False

theorem api_removes {t : ThreadId} {s : TcpServer P} {a : Code} (h : api t s a = true)
    (c : ConnId) : ¬ removes c a := by
  unfold api at h
  split at h <;> first | exact id | cases h

/-- It is left by such code, or by the connection callback of a connection that
is not up. -/
theorem runs_removes {t : ThreadId} {a : Code} {io : Io E} {s s' : TcpServer P}
    {next : List (Frame Code)} (h : Runs cfg poller t s a io s' next) {c : ConnId} :
    ∀ g ∈ next, ∀ p ∈ g.dest t, removes c p.2 →
      removes c a ∨ a = .conn c .connectionCallback ∧ (s.conn c).state_ ≠ .kConnected := by
  cases h with
  | @conn d k io x evs next h =>
      intro g hg p hp hc
      cases h.leaves g hg with
      | user => cases hp
      | removeConnection hs =>
          cases hp
          obtain rfl : d = c := hc
          exact .inr ⟨rfl, hs⟩
      | _ =>
          cases hp
          cases hc
  | handleEvent =>
      intro g hg p hp hc
      rcases mem_handleEvent hg with
        ⟨_, rfl⟩ | ⟨_, _, _, rfl, ⟨_, rfl⟩ | ⟨_, rfl⟩ | ⟨_, rfl⟩ | ⟨_, rfl⟩⟩ <;>
          cases hp <;> cases hc
  | removeConnection => simp [Frame.dest, removes]
  | removeConnectionInLoop =>
      intro g hg p hp hc
      rw [mem_removeConnectionInLoop hg] at hp
      cases hp
      exact .inl hc
  | _ => simp [TcpServer.listen, TcpServer.newConnection, Frame.dest, removes]

theorem poll_removes {l : LoopId} {io : Io E} {s : TcpServer P}
    {r : TcpServer P × Option (List Code)} (h : poll poller l io s = some r) (c : ConnId) :
    ∀ b ∈ r.2.getD [], ¬ removes c b := by
  intro b hb
  obtain ⟨ch, rfl⟩ := poll_codes h b hb
  exact id

/-- Connection `c` is closed, or being closed. -/
def Shut (s : TcpServer P) (c : ConnId) : Prop :=
  Established s c ∧ (s.conn c).state_ ≠ .kConnected

/-- The code that takes a connection out of the server finds it shut. -/
def Leaving (_ : ThreadId) (a : Code) (s : TcpServer P) : Prop := ∀ c, removes c a → Shut s c

/-- What was taken out is shut. -/
def Destroyed (s : TcpServer P) : Prop :=
  ∀ c, .ran .connectDestroyed ∈ s.log c → Shut s c

/-- What is shut stays shut. -/
theorem runs_shut {t : ThreadId} {a : Code} {io : Io E} {s s' : TcpServer P}
    {next : List (Frame Code)} {c : ConnId} (h : Runs cfg poller t s a io s' next)
    (hext : Extends s s') (hfirst : a = .conn c .connectEstablished → s.log c = [])
    (hs : Shut s c) : Shut s' c := by
  refine ⟨hext.established hs.1, ?_⟩
  cases runs_touches h c with
  | piece hr =>
      refine connRuns_connected hr (fun hk => ?_) hs.2
      have hlog := hs.1.2
      rw [hfirst (by rw [hk])] at hlog
      cases hlog
  | idle _ hi =>
      obtain ⟨r, hx⟩ := hi.conn
      rw [hx]
      exact hs.2
  | new hnew => exact absurd hs.1.1 (by rw [hnew]; exact Nat.lt_irrefl _)

theorem leaving_step {C : State P → ThreadId × Choice Code (Io E) → Prop} {s s' : State P}
    {t : ThreadId} {ch : Choice Code (Io E)} (hr : (lts cfg poller).ReachIf C s)
    (h : AppInv Destroyed Leaving s) (hs : (lts cfg poller).step s (t, ch) = some s') :
    AppInv Destroyed Leaving s' := by
  refine h.step hs (sound hr) (fun {a io x next rest} ht hch hx ha => ?_) (fun {_ _ _ r _} _ _ ht hx => ?_)
    fun _ ha c hc => absurd hc (api_removes ha c)
  · have hruns := exec_runs hx
    have hmem : Frame.code a ∈ s.stack t := by rw [ht]; exact List.mem_cons_self
    have hbound : Bound t a s.shared.app := (base hr).all.stack t _ hmem _ rfl
    obtain ⟨_, _, hext⟩ := runs_base hruns (base hr).app hbound
    have hshut : ∀ c, Shut s.shared.app c → Shut x c := fun c =>
      runs_shut hruns hext fun he => nothing_before hr (by rw [ht, he])
    refine ⟨fun c hd => ?_, fun g hg p hp c hc => ?_, fun u b hb c hc => hshut c (hb c hc)⟩
    · by_cases hk : a = .conn c .connectDestroyed
      · exact hshut c (ha c (by rw [hk]; rfl))
      · exact hshut c (h.app c ((runs_mem_ran hruns hd).resolve_right hk))
    · rcases runs_removes hruns g hg p hp hc with hold | ⟨rfl, hdown⟩
      · exact hshut c (ha c hold)
      · exact hshut c ⟨hbound.2.1 (by simp), hdown⟩
  · obtain ⟨_, q, _, _, hrev, _⟩ := poll_revents hx
    have hshut : ∀ c, Shut s.shared.app c → Shut r.1 c := by
      intro c hc
      obtain ⟨_, hx⟩ := hrev.conn c
      refine ⟨hrev.established.mpr hc.1, ?_⟩
      rw [hx]
      exact hc.2
    refine ⟨fun c hd => hshut c (h.app c ?_), fun b hb c hc => absurd hc (poll_removes hx c b hb),
      fun u b hb c hc => hshut c (hb c hc)⟩
    rw [hrev.log] at hd
    exact hd

theorem leaving {C : State P → ThreadId × Choice Code (Io E) → Prop} {s : State P}
    (h : (lts cfg poller).ReachIf C s) : AppInv Destroyed Leaving s := by
  refine run_inv h ⟨fun c hd => (by cases hd), fun t f hf p hp c hc => ?_, fun _ _ hq => by cases hq⟩
    fun {s b s'} hr hI _ hs => ?_
  · rw [started_dest hf p hp] at hc
    exact absurd hc id
  · obtain ⟨t, ch⟩ := b
    exact leaving_step hr hI hs

/-! ## `socket_` goes with `connectDestroyed` -/

/-- Until `connectDestroyed` starts, `socket_` is there and nobody resets it. -/
structure Socketed (s : State P) (c : ConnId) : Prop where
  coming : ∀ t, TcpConnection.piece c .resetSocket ∈ s.stack t →
    .ran .connectDestroyed ∈ s.shared.app.log c
  reset : .ran .resetSocket ∈ s.shared.app.log c → .ran .connectDestroyed ∈ s.shared.app.log c
  socket : (s.shared.app.conn c).socket_ = false → .ran .connectDestroyed ∈ s.shared.app.log c

/-- Who touches `socket_`. -/
theorem connRuns_socket {c : ConnId} {t : ThreadId} {x x' : TcpConnection} {k : ConnCode}
    {io : Io E} {evs : List Event} {next : List (Frame Code)} (h : x.Runs c t k io x' evs next) :
    (k ≠ .connectDestroyed → TcpConnection.piece c .resetSocket ∉ next) ∧
      (k ≠ .resetSocket → x'.socket_ = x.socket_) := by
  cases h with
  | sendBufferHere _ _ hx | sentPart _ _ _ _ _ hx | queued _ _ hx =>
      exact ⟨fun _ => piece_notMem_updateUnlessWriting, fun _ => by rw [hx.rest]⟩
  | connectDestroyed => exact ⟨fun h => absurd rfl h, fun _ => rfl⟩
  | resetSocket => exact ⟨by simp, fun h => absurd rfl h⟩
  | _ => exact ⟨by simp, fun _ => rfl⟩

theorem socketed_step {s s' : State P} {t : ThreadId} {ch : Choice Code (Io E)} {c : ConnId}
    (h : Socketed s c) (hs : ConnStep cfg c t ch s s') : Socketed s' c := by
  cases hs with
  | @piece k io evs next rest ht hch hr hlog hs' =>
      obtain ⟨hnext, hsock⟩ := connRuns_socket hr
      have hmem : TcpConnection.piece c k ∈ s.stack t := by rw [ht]; exact List.mem_cons_self
      have hold : .ran .connectDestroyed ∈ s.shared.app.log c →
          .ran .connectDestroyed ∈ s'.shared.app.log c := fun hd => by
        rw [hlog]
        exact List.mem_append_left _ hd
      have hnew : k = .connectDestroyed → .ran .connectDestroyed ∈ s'.shared.app.log c := by
        rintro rfl
        rw [hlog]
        exact List.mem_append_right _ List.mem_cons_self
      refine ⟨fun u hu => ?_, fun hran => ?_, fun hsocket => ?_⟩
      · by_cases hk : k = .connectDestroyed
        · exact hnew hk
        · rw [hs'] at hu
          rcases Config.mem_of_mem_resume ht hu with ⟨_, hu⟩ | hu
          · exact absurd hu (hnext hk)
          · exact hold (h.coming u hu)
      · rw [hlog] at hran
        rcases List.mem_append.mp hran with hran | hran
        · exact hold (h.reset hran)
        · rcases List.mem_cons.mp hran with he | he
          · cases he
            exact hold (h.coming t hmem)
          · exact absurd he ((connRuns_events hr).1 _)
      · by_cases hk : k = .resetSocket
        · subst hk
          exact hold (h.coming t hmem)
        · exact hold (h.socket (by rw [← hsock hk]; exact hsocket))
  | idle hi hstack =>
      obtain ⟨r, hx⟩ := hi.conn
      have hlog : ∀ k, .ran k ∈ s'.shared.app.log c ↔ .ran k ∈ s.shared.app.log c := by
        intro k
        rcases hi.log with he | ⟨b, he⟩ <;> rw [he]
        simp
      refine ⟨fun u hu => ?_, ?_, fun hsocket => ?_⟩
      · rw [hstack u _ rfl] at hu
        rw [hlog]
        exact h.coming u hu
      · rw [hlog, hlog]
        exact h.reset
      · rw [hlog]
        rw [hx] at hsocket
        exact h.socket hsocket
  | new _ hconn hlog hstack =>
      refine ⟨fun u hu => absurd hu (hstack u _), fun hran => ?_, fun hsocket => ?_⟩
      · rw [hlog] at hran
        cases hran
      · rw [hconn.eq] at hsocket
        cases hsocket

theorem socketed {C : State P → ThreadId × Choice Code (Io E) → Prop} {s : State P}
    (h : (lts cfg poller).ReachIf C s) (c : ConnId) : Socketed s c := by
  refine run_inv (I := fun s => Socketed s c) h ⟨fun t hm => ?_, fun hr => (by cases hr),
    fun hs => (by cases hs)⟩ fun {s b s'} hr hI _ hs => ?_
  · cases started_dest hm _ rfl
  · obtain ⟨t, ch⟩ := b
    exact socketed_step hI (step_conn hs (base hr) (wrapped hr) c)

/-! ## The order of the functors -/

/-- A functor with a raw connection `c`. -/
def rawOf (c : ConnId) : Frame Code → Bool
  | .code (.conn d k) => d == c && k.raw
  | _ => false

theorem rawOf_eq {c : ConnId} {f : Frame Code} (h : rawOf c f = true) :
    ∃ k, f = TcpConnection.piece c k ∧ k.raw = true ∧ k.anyThread = false := by
  unfold rawOf at h
  split at h
  · next d k =>
      rw [Bool.and_eq_true, beq_iff_eq] at h
      obtain ⟨rfl, hk⟩ := h
      refine ⟨k, rfl, hk, ?_⟩
      cases k <;> first | rfl | cases hk
  · cases h

/-- No raw functor waits behind `connectDestroyed`, nor after it. -/
structure InTime (s : State P) (c : ConnId) : Prop where
  line : ∀ l, (line l s).Pairwise fun a b =>
    a = TcpConnection.piece c .connectDestroyed → rawOf c b = false
  gone : (.ran .connectDestroyed ∈ s.shared.app.log c ∨
      ∃ t, TcpConnection.piece c .connectDestroyed ∈ s.stack t) →
    ∀ l, ∀ a ∈ TcpServer.line l s, rawOf c a = false

section Step

variable {C : State P → ThreadId × Choice Code (Io E) → Prop} {s s' : State P} {c : ConnId}
  {t : ThreadId} {ch : Choice Code (Io E)}

/-- A functor with a piece of a connection is on that connection's loop. -/
theorem line_home (hbase : AppInv (Base poller) Bound s) {l : LoopId} {k : ConnCode}
    (hmem : TcpConnection.piece c k ∈ line l s) (hk : k.anyThread = false) :
    l = (s.shared.app.conn c).loop_ := by
  have hbound : Bound (.loop l) (.conn c k) s.shared.app := by
    rcases List.mem_append.mp hmem with hmem | hmem
    · obtain ⟨f, hf, hfl⟩ := List.mem_flatMap.mp hmem
      unfold Frame.starts at hfl
      split at hfl
      · next j cb =>
          split at hfl
          · rw [List.mem_singleton] at hfl
            subst hfl
            exact hbase.all.stack (.loop l) _ hf _ rfl
          · cases hfl
      · cases hfl
    · obtain ⟨q, hq, he⟩ := List.mem_map.mp hmem
      exact hbase.all.queue l q hq _ (by rw [he]; rfl)
  exact ThreadId.loop.inj (hbound.2.2 hk)

/-- `connectDestroyed` gets onto a stack as a functor. -/
theorem next_destroyed {f : Frame Code} {x : Reactor Code (TcpServer P)}
    {r : Reactor Code (TcpServer P)} {next : List (Frame Code)}
    (hr : Reactor.Runs (app cfg poller) t r f ch x next) (hwf : Wrapped f)
    (hmem : TcpConnection.piece c .connectDestroyed ∈ next) :
    ∃ l, f = .functor l (TcpConnection.piece c .connectDestroyed) := by
  cases hr with
  | functor => exact ⟨_, by rw [List.mem_singleton.mp hmem]⟩
  | code hx => cases runs_deferred (exec_runs hx) _ hmem
  | @call a ha =>
      simp only [List.mem_cons, List.not_mem_nil, or_false] at hmem
      rcases hmem with he | he <;> cases he
      cases ha
  | runHere =>
      rw [← List.mem_singleton.mp hmem] at hwf
      rcases hwf with he | ⟨a, he, _, hne⟩ <;> cases he
      exact absurd rfl (hne c)
  | polled hx =>
      rcases mem_iteration hmem with ⟨b, hb, he⟩ | he | he | he <;> cases he
      obtain ⟨_, he⟩ := polled_handleEvent hx hb
      cases he
  | doPendingFunctors =>
      obtain ⟨_, _, he⟩ := List.mem_map.mp hmem
      cases he
  | _ => simp at hmem

/-- `connectDestroyed` of connection `c` is running, or has run. -/
def Gone (s : State P) (c : ConnId) : Prop :=
  .ran .connectDestroyed ∈ s.shared.app.log c ∨
    ∃ t, TcpConnection.piece c .connectDestroyed ∈ s.stack t

/-- The first functor of loop `k` starts. -/
theorem inTime_start (hr : (lts cfg poller).ReachIf C s) (h : InTime s c) {k : LoopId}
    {cb : Frame Code} (hline : ∀ l, line l s = (if k = l then [cb] else []) ++ line l s')
    (hgone : Gone s' c → Gone s c ∨ cb = TcpConnection.piece c .connectDestroyed) :
    InTime s' c := by
  have hsub : ∀ l, ∀ a ∈ line l s', a ∈ line l s := by
    intro l a ha
    rw [hline]
    exact List.mem_append_right _ ha
  refine ⟨fun l => ?_, fun hpre l a ha => ?_⟩
  · have hold := h.line l
    rw [hline, List.pairwise_append] at hold
    exact hold.2.1
  · rcases hgone hpre with hold | rfl
    · exact h.gone hold l a (hsub l a ha)
    · -- `connectDestroyed` starts, and what is behind it is not raw.
      have hhead : line k s = TcpConnection.piece c .connectDestroyed :: line k s' := by
        rw [hline, if_pos rfl]
        rfl
      by_cases hl : l = k
      · subst hl
        have hold := h.line l
        rw [hhead, List.pairwise_cons] at hold
        exact hold.1 a ha rfl
      · by_contra hraw
        obtain ⟨j, rfl, _, hany⟩ := rawOf_eq (Bool.eq_true_of_not_eq_false hraw)
        have h1 := line_home (base hr) (hsub l _ ha) hany
        have h2 := line_home (k := .connectDestroyed) (base hr)
          (by rw [hhead]; exact List.mem_cons_self) rfl
        exact hl (h1.trans h2.symm)

/-- A functor is pushed onto loop `k`, which is in time if it is raw. -/
theorem inTime_push (hr : (lts cfg poller).ReachIf C s) (h : InTime s c) {k : LoopId}
    {cb : Frame Code} (hline : ∀ l, line l s' = line l s ++ if k = l then [cb] else [])
    (hgone : Gone s' c → Gone s c) (hdoomed : rawOf c cb = true → ¬ Doomed s c) :
    InTime s' c := by
  have hpush : rawOf c cb = true → ∀ l, TcpConnection.piece c .connectDestroyed ∉ line l s :=
    fun hraw l hmem => hdoomed hraw (.inr (.inr (line_home (base hr) hmem rfl ▸ hmem)))
  refine ⟨fun l => ?_, fun hpre l a ha => ?_⟩
  · rw [hline, List.pairwise_append]
    refine ⟨h.line l, by split <;> simp, fun a ha b hb he => ?_⟩
    subst he
    by_contra hraw
    split at hb
    · rw [List.mem_singleton.mp hb] at hraw
      exact hpush (Bool.eq_true_of_not_eq_false hraw) l ha
    · cases hb
  · have hold := hgone hpre
    rw [hline] at ha
    rcases List.mem_append.mp ha with ha | ha
    · exact h.gone hold l a ha
    · split at ha
      · rw [List.mem_singleton.mp ha]
        by_contra hraw
        refine hdoomed (Bool.eq_true_of_not_eq_false hraw) ?_
        rcases hold with hran | ⟨u, hu⟩
        · exact .inl hran
        · have hbound : Bound u (.conn c .connectDestroyed) s.shared.app :=
            (base hr).all.stack u _ hu _ rfl
          rw [hbound.2.2 rfl] at hu
          exact .inr (.inl hu)
      · cases ha

theorem inTime_step (hr : (lts cfg poller).ReachIf C s) (hin : InPlace s) (h : InTime s c)
    (hc : PushedInTime s (t, ch)) (hs : (lts cfg poller).step s (t, ch) = some s') :
    InTime s' c := by
  have hconn := step_conn hs (base hr) (wrapped hr) c
  obtain ⟨f, rest, x, next, ht, hruns, rfl⟩ := step_runs hs
  have hf : f ∈ s.stack t := by rw [ht]; exact List.mem_cons_self
  have hparts : ∀ l, f.starts l ++ line l (s.resume t x next rest) = line l s ++ f.pushes l := by
    intro l
    have := parts_step (l := l) (sound hr) hin ht hruns
    rw [line, line, List.append_assoc]
    exact this
  -- A step that has `connectDestroyed` running had it so before, or starts it.
  have hgone : Gone (s.resume t x next rest) c →
      Gone s c ∨ ∃ l, f = .functor l (TcpConnection.piece c .connectDestroyed) := by
    rintro (hran | ⟨u, hu⟩)
    · left
      rcases conn_ran hconn hran with hran | ⟨_, ht'⟩
      · exact .inl hran
      · exact .inr ⟨t, by rw [ht']; exact List.mem_cons_self⟩
    · rcases Config.mem_of_mem_resume ht hu with ⟨_, hu⟩ | hu
      · exact .inr (next_destroyed hruns ((wrapped hr).stack t f hf) hu)
      · exact .inl (.inr ⟨u, hu⟩)
  have hquiet : (∀ l, f.starts l = []) → (∀ l, f.pushes l = []) →
      (∀ l, f ≠ .functor l (TcpConnection.piece c .connectDestroyed)) →
      InTime (s.resume t x next rest) c := by
    intro hstarts hpushes hne
    have hline : ∀ l, line l (s.resume t x next rest) = line l s := by
      intro l
      have := hparts l
      rwa [hstarts, hpushes, List.nil_append, List.append_nil] at this
    refine ⟨fun l => ?_, fun hpre l => ?_⟩
    · rw [hline]
      exact h.line l
    · rw [hline]
      exact h.gone ((hgone hpre).resolve_right fun ⟨j, he⟩ => hne j he) l
  match f, hparts, hgone, hquiet with
  | .functor k cb, hparts, hgone, _ =>
      have hline : ∀ l, line l s = (if k = l then [cb] else []) ++
          line l (s.resume t x next rest) := by
        intro l
        have := hparts l
        rw [show (Frame.functor k cb).pushes l = [] from rfl, List.append_nil] at this
        exact this.symm
      refine inTime_start hr h hline fun hpre => (hgone hpre).imp_right fun ⟨j, he⟩ => ?_
      cases he
      rfl
  | .queueInLoop k cb, hparts, hgone, _ =>
      have hline : ∀ l, line l (s.resume t x next rest) =
          line l s ++ if k = l then [cb] else [] := fun l => hparts l
      refine inTime_push hr h hline (fun hpre => (hgone hpre).resolve_right (by simp)) fun hraw => ?_
      obtain ⟨j, rfl, hj, _⟩ := rawOf_eq hraw
      unfold PushedInTime at hc
      have hc : j.raw = true → ¬ Doomed s c := by simpa only [ht, List.head?_cons] using hc
      exact hc hj
  | .user, _, _, hquiet | .code _, _, _, hquiet | .runInLoop _ _, _, _, hquiet
  | .wakeup _, _, _, hquiet | .quit _, _, _, hquiet | .loop _, _, _, hquiet
  | .clearQuit _, _, _, hquiet | .whileNotQuit _, _, _, hquiet | .poll _, _, _, hquiet
  | .handleWakeup _, _, _, hquiet | .doPendingFunctors _, _, _, hquiet =>
      exact hquiet (fun _ => rfl) (fun _ => rfl) (by simp)

end Step

theorem inPlace {C : State P → ThreadId × Choice Code (Io E) → Prop} {s : State P}
    (h : (lts cfg poller).ReachIf C s) : InPlace s :=
  run_inv h (inPlace_init started_init) fun hr hI _ hs => inPlace_step hs (sound hr) hI

theorem inTime {s : State P} (h : (lts cfg poller).ReachIf PushedInTime s) (c : ConnId) :
    InTime s c := by
  have hline : ∀ l, line l (started poller) = [] := fun _ => rfl
  refine run_inv (I := fun s => InTime s c) h ⟨fun l => ?_, fun _ l a ha => ?_⟩
    fun {s b s'} hr hI hc hs => ?_
  · rw [hline]
    exact List.Pairwise.nil
  · rw [hline] at ha
    cases ha
  · obtain ⟨t, ch⟩ := b
    exact inTime_step hr (inPlace hr) hI hc hs

/-! ## Calls of `shutdown` on the loop's own thread

They come to `shutdownInLoop` without a queue, and with nothing in between. -/

/-- The code between the test of `shutdown` and `shutdownInLoop`. -/
def halfway (c : ConnId) : Frame Code → Bool
  | .code (.conn d .storeShutdown) | .code (.conn d .shutdownInLoop)
  | .runInLoop _ (.code (.conn d .shutdownInLoop)) => d == c
  | _ => false

/-- Nothing lies on it. -/
def OnTop (c : ConnId) (_ b : Frame Code) : Prop := halfway c b = false

section Halfway

variable {s s' : State P} {c : ConnId} {t : ThreadId} {ch : Choice Code (Io E)} {f : Frame Code}
  {r x : Reactor Code (TcpServer P)} {next : List (Frame Code)}

theorem pairwise_onTop {fs : List (Frame Code)} (h : ∀ g ∈ fs, halfway c g = false) :
    fs.Pairwise (OnTop c) :=
  List.pairwise_of_forall_mem_list fun _ _ b hb => h b hb

theorem connRuns_halfway {d : ConnId} {y y' : TcpConnection} {k : ConnCode} {io : Io E}
    {evs : List Event} {next : List (Frame Code)} (h : y.Runs d t k io y' evs next) :
    next.Pairwise (OnTop c) ∧ ∀ g ∈ next, halfway c g = true →
      d = c ∧ (k = .storeShutdown ∨ k = .shutdown ∧ y.state_ = .kConnected) := by
  have hupd : (y.updateUnlessWriting d).Pairwise (OnTop c) ∧
      ∀ g ∈ y.updateUnlessWriting d, halfway c g = true →
        d = c ∧ (k = .storeShutdown ∨ k = .shutdown ∧ y.state_ = .kConnected) := by
    unfold updateUnlessWriting
    split <;> simp [halfway]
  cases h with
  | sendBufferHere | sentPart | queued => exact hupd
  | shutdown hs => simp [halfway, hs]
  | _ => simp [OnTop, halfway]

/-- The code of the server that is not a connection's has no part in it. -/
theorem runs_halfway {a : Code} {io : Io E} {y y' : TcpServer P} {next : List (Frame Code)}
    (h : Runs cfg poller t y a io y' next) :
    next.Pairwise (OnTop c) ∧ ∀ g ∈ next, halfway c g = true →
      a = .conn c .storeShutdown ∨ a = .conn c .shutdown ∧ (y.conn c).state_ = .kConnected := by
  have hnone : (∀ g ∈ next, halfway c g = false) →
      next.Pairwise (OnTop c) ∧ ∀ g ∈ next, halfway c g = true →
        a = .conn c .storeShutdown ∨ a = .conn c .shutdown ∧ (y.conn c).state_ = .kConnected := by
    intro h
    refine ⟨pairwise_onTop h, fun g hg hh => ?_⟩
    rw [h g hg] at hh
    cases hh
  cases h with
  | conn h =>
      obtain ⟨hpair, hnext⟩ := connRuns_halfway (c := c) h
      refine ⟨hpair, fun g hg hh => ?_⟩
      obtain ⟨rfl, rfl | ⟨rfl, hs⟩⟩ := hnext g hg hh
      · exact .inl rfl
      · exact .inr ⟨rfl, hs⟩
  | handleEvent =>
      refine hnone fun g hg => ?_
      rcases mem_handleEvent hg with
        ⟨_, rfl⟩ | ⟨_, _, _, rfl, ⟨_, rfl⟩ | ⟨_, rfl⟩ | ⟨_, rfl⟩ | ⟨_, rfl⟩⟩ <;>
          rfl
  | removeConnectionInLoop =>
      refine hnone fun g hg => ?_
      rw [mem_removeConnectionInLoop hg]
      rfl
  | _ => exact hnone (by simp [TcpServer.listen, TcpServer.newConnection, halfway])

/-- What comes to be halfway. -/
theorem next_halfway (hr : Reactor.Runs (app cfg poller) t r f ch x next) (hwf : Wrapped f) :
    next.Pairwise (OnTop c) ∧ ∀ g ∈ next, halfway c g = true → halfway c f = true ∨
      f = TcpConnection.piece c .shutdown ∧ (r.app.conn c).state_ = .kConnected ∨
      ∃ l, f = .functor l (TcpConnection.piece c .shutdownInLoop) := by
  have hnone : (∀ g ∈ next, halfway c g = false) →
      next.Pairwise (OnTop c) ∧ ∀ g ∈ next, halfway c g = true → halfway c f = true ∨
        f = TcpConnection.piece c .shutdown ∧ (r.app.conn c).state_ = .kConnected ∨
        ∃ l, f = .functor l (TcpConnection.piece c .shutdownInLoop) := by
    intro h
    refine ⟨pairwise_onTop h, fun g hg hh => ?_⟩
    rw [h g hg] at hh
    cases hh
  have hjob : ∀ {cb : Frame Code}, (cb = .user ∨ ∃ a, cb = .code a ∧ Job a) →
      halfway c cb = true → cb = TcpConnection.piece c .shutdownInLoop := by
    rintro cb (rfl | ⟨a, rfl, ha⟩) hh
    · cases hh
    · unfold halfway at hh
      split at hh
      · next he =>
          cases he
          exact ha.elim
      · next he =>
          cases he
          rw [eq_of_beq hh]
      · next he => cases he
      · cases hh
  cases hr with
  | code hx =>
      obtain ⟨hpair, hnext⟩ := runs_halfway (c := c) (exec_runs hx)
      refine ⟨hpair, fun g hg hh => ?_⟩
      rcases hnext g hg hh with rfl | ⟨rfl, hs⟩
      · exact .inl (beq_self_eq_true c)
      · exact .inr (.inl ⟨rfl, hs⟩)
  | @call a ha =>
      refine hnone fun g hg => ?_
      simp only [List.mem_cons, List.not_mem_nil, or_false] at hg
      rcases hg with rfl | rfl
      · by_contra hh
        unfold halfway at hh
        split at hh
        · next he => cases he; cases ha
        · next he => cases he; cases ha
        · next he => cases he
        · exact hh rfl
      · rfl
  | runHere =>
      refine ⟨List.pairwise_singleton .., fun g hg hh => .inl ?_⟩
      rw [List.mem_singleton.mp hg] at hh
      rw [hjob (wrapped_closed.run hwf).2 hh]
      exact beq_self_eq_true c
  | @functor l cb =>
      refine ⟨List.pairwise_singleton .., fun g hg hh => .inr (.inr ⟨l, ?_⟩)⟩
      rw [List.mem_singleton.mp hg] at hh
      rw [hjob hwf hh]
  | polled hx =>
      refine hnone fun g hg => ?_
      rcases mem_iteration hg with ⟨b, hb, rfl⟩ | rfl | rfl | rfl
      · obtain ⟨ch, rfl⟩ := polled_handleEvent hx hb
        rfl
      · rfl
      · rfl
      · rfl
  | doPendingFunctors =>
      refine hnone fun g hg => ?_
      obtain ⟨_, _, rfl⟩ := List.mem_map.mp hg
      rfl
  | _ => exact hnone (by simp [halfway])

/-- Until `connectDestroyed` starts, a call may be halfway on the loop's thread. -/
structure Halfway (s : State P) (c : ConnId) : Prop where
  order : Ordered (OnTop c) s
  live : ∀ f ∈ s.stack (.loop (s.shared.app.conn c).loop_), halfway c f = true →
    .ran .connectDestroyed ∉ s.shared.app.log c

theorem halfway_step (hr : (lts cfg poller).ReachIf PushedInTime s) (h : Halfway s c)
    (hs : (lts cfg poller).step s (t, ch) = some s') : Halfway s' c := by
  have hconn := step_conn hs (base hr) (wrapped hr) c
  obtain ⟨f, rest, x, next, ht, hruns, rfl⟩ := step_runs hs
  have hf : f ∈ s.stack t := by rw [ht]; exact List.mem_cons_self
  obtain ⟨hpair, hnext⟩ := next_halfway (c := c) hruns ((wrapped hr).stack t f hf)
  have hord := h.order t
  rw [ht, List.pairwise_cons] at hord
  refine ⟨h.order.resume ht hpair fun b hb _ g _ => hord.1 b hb, fun g hg hh hran => ?_⟩
  have hloop : (x.app.conn c).loop_ = (s.shared.app.conn c).loop_ := by
    cases hconn with
    | piece _ _ hr' => exact (connRuns_const hr').1
    | idle hi =>
        obtain ⟨r, hx⟩ := hi.conn
        rw [Config.resume_shared] at hx
        rw [hx]
    | new _ _ hlog =>
        rw [hlog] at hran
        cases hran
  rw [Config.resume_shared, hloop] at hg
  -- Who is halfway now was, or has just come from the test or from the queue.
  have hlive : .ran .connectDestroyed ∉ s.shared.app.log c := by
    rcases Config.mem_of_mem_resume ht hg with ⟨rfl, hnew⟩ | hold
    · rcases hnext g hnew hh with hold | ⟨rfl, hup⟩ | ⟨l, rfl⟩
      · exact h.live f hf hold
      · exact fun hd => ((leaving hr).app c hd).2 hup
      · intro hd
        have hl : l = (s.shared.app.conn c).loop_ :=
          (ThreadId.loop.inj ((inPlace hr).own _ _ hf l _ rfl)).symm
        subst hl
        have hmem : TcpConnection.piece c .shutdownInLoop ∈
            line (s.shared.app.conn c).loop_ s := by
          refine List.mem_append_left _ (List.mem_flatMap.mpr ⟨_, hf, ?_⟩)
          simp [Frame.starts]
        have := (inTime hr c).gone (.inl hd) _ _ hmem
        simp [rawOf, ConnCode.raw] at this
    · exact h.live g hold hh
  rcases conn_ran hconn hran with hold | ⟨rest', ht'⟩
  · exact hlive hold
  · -- `connectDestroyed` itself ran, with nobody halfway below it.
    rw [ht] at ht'
    obtain ⟨rfl, -⟩ := List.cons.inj ht'
    rcases Config.mem_of_mem_resume ht hg with ⟨_, hnew⟩ | hold
    · rcases hnext g hnew hh with hold | ⟨he, _⟩ | ⟨l, he⟩
      · cases hold
      · cases he
      · cases he
    · have hbound : Bound t (.conn c .connectDestroyed) s.shared.app :=
        (base hr).all.stack t _ hf _ rfl
      rw [← hbound.2.2 rfl, ht] at hold
      rcases List.mem_cons.mp hold with rfl | hbelow
      · cases hh
      · rw [hord.1 g hbelow] at hh
        cases hh

end Halfway

theorem halfway_run {s : State P} (h : (lts cfg poller).ReachIf PushedInTime s) (c : ConnId) :
    Halfway s c := by
  have hstart : ∀ t, ∀ f ∈ (started poller).stack t, halfway c f = false := by
    intro t f hf
    rcases started_cases hf with ⟨l, rfl⟩ | rfl | rfl <;> rfl
  refine run_inv (I := fun s => Halfway s c) h ⟨fun t => pairwise_onTop (hstart t), fun f hf hh => ?_⟩
    fun {s b s'} hr hI _ hs => ?_
  · rw [hstart _ f hf] at hh
    cases hh
  · obtain ⟨t, ch⟩ := b
    exact halfway_step hr hI hs

/-- Along every run whose functors with a raw `this` are pushed before their
connection's `connectDestroyed` is, they run on a connection that has its socket
and an owner, and so does every call of `shutdownInLoop`. -/
theorem functors_live {s : State P} (h : (lts cfg poller).ReachIf PushedInTime s) :
    FunctorsLive s := by
  have hsocket : ∀ c, .ran .connectDestroyed ∉ s.shared.app.log c →
      (s.shared.app.conn c).socket_ = true := by
    intro c hd
    by_contra hs
    exact hd ((socketed h c).socket (Bool.eq_false_iff.mpr hs))
  refine ⟨fun c k t l rest ht hk => ?_, fun c t rest ht => ?_⟩
  · have hf : .functor l (TcpConnection.piece c k) ∈ s.stack t := by
      rw [ht]
      exact List.mem_cons_self
    obtain rfl := (inPlace h).own t _ hf l _ rfl
    have hmem : TcpConnection.piece c k ∈ line l s := by
      refine List.mem_append_left _ (List.mem_flatMap.mpr ⟨_, hf, ?_⟩)
      simp [Frame.starts]
    have hraw : rawOf c (TcpConnection.piece c k) = true := by simp [rawOf, hk]
    have hd : .ran .connectDestroyed ∉ s.shared.app.log c := by
      intro hd
      rw [(inTime h c).gone (.inl hd) l _ hmem] at hraw
      cases hraw
    have hbound : Bound (.loop l) (.conn c k) s.shared.app := (base h).all.stack _ _ hf _ rfl
    exact ⟨hsocket c hd, fun hacc =>
      owned h hacc hbound.1 fun hran => hd ((socketed h c).reset hran)⟩
  · have hf : TcpConnection.piece c .shutdownInLoop ∈ s.stack t := by
      rw [ht]
      exact List.mem_cons_self
    have hbound : Bound t (.conn c .shutdownInLoop) s.shared.app :=
      (base h).all.stack _ _ hf _ rfl
    rw [hbound.2.2 rfl] at hf
    exact hsocket c ((halfway_run h c).live _ hf (beq_self_eq_true c))

/-- The peer closes connection 0 and thread 1 shuts it down, which both comes
before `connectDestroyed` is queued. -/
theorem functors_live_shutdown :
    ∃ s : State (List ChannelId),
      (s.stack (.loop 0)).head? = some (TcpConnection.piece 0 .shutdownInLoop) ∧
        (s.shared.app.conn 0).state_ = .kDisconnecting ∧
        (s.shared.app.conn 0).socket_ = true := by
  obtain ⟨s, hs, hp⟩ := Lts.exists_reachIf (lts echoConfig anyPoller) PushedInTime
    (connecting.append [(.user 1, .call (.conn 0 .shutdown)), (.user 1, .app .none),
      (.loop 0, .ret), (.loop 0, .go), (.loop 0, .go),
      (.loop 0, .poll (.poller [(.conn 0, { close := true })]) 0), (.loop 0, .app .none),
      (.loop 0, .app .none), (.user 1, .app .none), (.user 1, .go), (.user 1, .go),
      (.loop 0, .app .none), (.loop 0, .app .none), (.loop 0, .go), (.loop 0, .app .none),
      (.loop 0, .go), (.loop 0, .ret), (.loop 0, .go), (.loop 0, .go)])
    (fun s => decide ((s.stack (.loop 0)).head? = some (TcpConnection.piece 0 .shutdownInLoop) ∧
      (s.shared.app.conn 0).state_ = .kDisconnecting)) rfl (by decide +kernel)
  obtain ⟨htop, hstate⟩ := of_decide_eq_true hp
  obtain ⟨rest, ht⟩ := List.head?_eq_some_iff.mp htop
  exact ⟨s, htop, hstate, (functors_live hs).shutdown 0 (.loop 0) rest ht⟩

/-- Thread 1 is between the test and the store of `shutdown()` when connection 0
is closed and its `connectDestroyed` queued. -/
theorem shutdown_after_reset :
    ¬ ∀ s : State (List ChannelId), (lts echoConfig anyPoller).Reach s → FunctorsLive s := by
  intro h
  obtain ⟨s, hs, hp⟩ := Lts.exists_reach (lts echoConfig anyPoller)
    (connecting.append [(.user 1, .call (.conn 0 .shutdown)), (.user 1, .app .none),
      (.loop 0, .ret), (.loop 0, .go), (.loop 0, .go),
      (.loop 0, .poll (.poller [(.conn 0, { close := true })]) 0), (.loop 0, .app .none),
      (.loop 0, .app .none), (.loop 0, .app .none), (.loop 0, .app .none), (.loop 0, .go),
      (.loop 0, .app .none), (.loop 0, .go), (.user 1, .app .none), (.user 1, .go),
      (.user 1, .go), (.loop 0, .ret), (.loop 0, .go), (.loop 0, .go), (.loop 0, .app .none),
      (.loop 0, .app (.poller [])), (.loop 0, .app .none), (.loop 0, .app .none), (.loop 0, .go)])
    (fun s => decide ((s.stack (.loop 0)).head? = some (TcpConnection.piece 0 .shutdownInLoop) ∧
      (s.shared.app.conn 0).socket_ = false)) rfl (by decide +kernel)
  obtain ⟨htop, hsocket⟩ := of_decide_eq_true hp
  obtain ⟨rest, ht⟩ := List.head?_eq_some_iff.mp htop
  rw [(h s hs).shutdown 0 (.loop 0) rest ht] at hsocket
  cases hsocket

end TcpServer

end Muduox.Net
