import Muduox.Proofs.ServerSteps

/-!
# Code runs where it belongs

What `assertInLoopThread` asserts, and who may touch a connection when. Every
piece of code, wherever it waits, is bound for the thread it asserts to be on;
everything that names a connection, the poller's registrations included, names
one that `connectEstablished` has begun, but for `connectEstablished` itself.
So the history of a connection starts with `connectEstablished`.
-/

namespace Muduox.Net

/-- The pieces a user may run on any thread. -/
def ConnCode.anyThread : ConnCode → Bool
  | .send _ | .sendBuffer _ | .shutdown | .storeShutdown | .forceClose
  | .forceCloseIfDisconnecting | .storeForceClose => true
  | _ => false

namespace TcpServer

open Threads Reactor

variable {P E : Type} {cfg : ServerConfig} {poller : Poller P E}

/-- `connectEstablished` was called on connection `c`. -/
def Established (s : TcpServer P) (c : ConnId) : Prop :=
  c < s.accepted ∧ .ran .connectEstablished ∈ s.log c

/-- Thread `t` is the one for `a`, and `a` names only what exists. -/
def Bound (t : ThreadId) (a : Code) (s : TcpServer P) : Prop :=
  match a with
  | .conn c k => c < s.accepted ∧ (k ≠ .connectEstablished → Established s c) ∧
      (k.anyThread = false → t = .loop (s.conn c).loop_)
  | .handleEvent ch | .update ch | .remove ch =>
      t = .loop (s.ownerLoop ch) ∧ ∀ c, ch = .conn c → Established s c
  | .listen | .acceptorHandleRead | .newConnection _ => t = .loop acceptLoop
  | .removeConnection c => Established s c
  | .removeConnectionInLoop c => Established s c ∧ t = .loop acceptLoop

/-- What holds of the server's own state besides. -/
structure Base (poller : Poller P E) (s : TcpServer P) : Prop where
  fresh : ∀ c, s.accepted ≤ c → s.log c = []
  first : ∀ c, s.log c ≠ [] → (s.log c).head? = some (.ran .connectEstablished)
  connecting : ∀ c, ¬ Established s c → (s.conn c).state_ = .kConnecting
  registered : ∀ l ch, poller.registered (s.poller l) ch →
    l = s.ownerLoop ch ∧ ∀ c, ch = .conn c → Established s c

/-- What no step undoes. -/
structure Extends (s s' : TcpServer P) : Prop where
  accepted : s.accepted ≤ s'.accepted
  log : ∀ c, s.log c <+: s'.log c
  loop : ∀ c, c < s.accepted → (s'.conn c).loop_ = (s.conn c).loop_
  name : ∀ c, c < s.accepted → (s'.conn c).name_ = (s.conn c).name_

variable {s s' : TcpServer P} {t : ThreadId} {a : Code} {c : ConnId}

theorem Extends.refl (s : TcpServer P) : Extends s s :=
  ⟨Nat.le_refl _, fun _ => List.prefix_rfl, fun _ _ => rfl, fun _ _ => rfl⟩

theorem Extends.established (h : Extends s s') (hc : Established s c) : Established s' c :=
  ⟨Nat.lt_of_lt_of_le hc.1 h.accepted, (h.log c).subset hc.2⟩

theorem Extends.ownerLoop (h : Extends s s') {ch : ChannelId}
    (hch : ∀ c, ch = .conn c → Established s c) : s'.ownerLoop ch = s.ownerLoop ch := by
  cases ch with
  | acceptor => rfl
  | conn c => exact h.loop c (hch c rfl).1

theorem Extends.bound (h : Extends s s') (ha : Bound t a s) : Bound t a s' := by
  unfold Bound at ha ⊢
  split at ha
  · next c k =>
      obtain ⟨hc, hest, ht⟩ := ha
      refine ⟨Nat.lt_of_lt_of_le hc h.accepted, fun hk => h.established (hest hk), fun hk => ?_⟩
      rw [h.loop c hc]
      exact ht hk
  · exact ⟨by rw [h.ownerLoop ha.2]; exact ha.1, fun c hc => h.established (ha.2 c hc)⟩
  · exact ⟨by rw [h.ownerLoop ha.2]; exact ha.1, fun c hc => h.established (ha.2 c hc)⟩
  · exact ⟨by rw [h.ownerLoop ha.2]; exact ha.1, fun c hc => h.established (ha.2 c hc)⟩
  · exact ha
  · exact ha
  · exact ha
  · exact h.established ha
  · exact ⟨h.established ha.1, ha.2⟩

/-! ## A piece of a connection -/

/-- What no piece changes. -/
theorem connRuns_const {x x' : TcpConnection} {k : ConnCode} {io : Io E} {evs : List Event}
    {next : List (Frame Code)} (h : x.Runs c t k io x' evs next) :
    x'.loop_ = x.loop_ ∧ x'.name_ = x.name_ ∧ x'.messageCallback_ = x.messageCallback_ ∧
      x'.writeCompleteCallback_ = x.writeCompleteCallback_ := by
  cases h with
  | sendBufferHere _ _ hx | sentPart _ _ _ _ _ hx | queued _ _ hx =>
      rw [hx.rest]
      exact ⟨rfl, rfl, rfl, rfl⟩
  | _ => exact ⟨rfl, rfl, rfl, rfl⟩

/-- What a piece reports beside itself is neither a piece nor a removal. -/
theorem connRuns_events {x x' : TcpConnection} {k : ConnCode} {io : Io E} {evs : List Event}
    {next : List (Frame Code)} (h : x.Runs c t k io x' evs next) :
    (∀ j, .ran j ∉ evs) ∧ ∀ b, .removed b ∉ evs := by
  have hshut : (∀ j, .ran j ∉ x.shutdownWrite.events) ∧
      ∀ b, .removed b ∉ x.shutdownWrite.events := by
    unfold TcpConnection.shutdownWrite
    cases x.socket_ <;> simp
  cases h with
  | halfClose | shutdownNow => exact hshut
  | _ => simp

/-- The code a piece of connection `c` leaves: more of the same connection, on
its loop's thread unless any thread will do. -/
def Continues (c : ConnId) (l : LoopId) (p : ThreadId × Code) : Prop :=
  (∃ k, p.2 = .conn c k ∧ k ≠ .connectEstablished ∧ (k.anyThread = false → p.1 = .loop l)) ∨
    ((p.2 = .update (.conn c) ∨ p.2 = .remove (.conn c)) ∧ p.1 = .loop l) ∨
    p.2 = .removeConnection c

theorem connRuns_next {x x' : TcpConnection} {k : ConnCode} {io : Io E} {evs : List Event}
    {next : List (Frame Code)} (h : x.Runs c t k io x' evs next)
    (hk : k.anyThread = false → t = .loop x.loop_) :
    ∀ g ∈ next, ∀ p ∈ g.dest t, Continues c x.loop_ p := by
  intro g hg p hp
  cases h.leaves g hg with
  | user => cases hp
  | update ht =>
      cases hp
      exact .inr (.inl ⟨.inl rfl, ht.elim (fun he => hk (by rw [he]; rfl)) id⟩)
  | remove ht =>
      cases hp
      exact .inr (.inl ⟨.inr rfl, ht⟩)
  | removeConnection =>
      cases hp
      exact .inr (.inr rfl)
  | sendHere ht =>
      cases hp
      exact .inl ⟨_, rfl, by simp, fun _ => ht⟩
  | sendThere | shutdownInLoop | forceCloseInLoop =>
      cases hp
      exact .inl ⟨_, rfl, by simp, fun _ => rfl⟩
  | connectionCallback hc =>
      cases hp
      exact .inl ⟨_, rfl, by simp, fun _ => hk (by rcases hc with rfl | rfl <;> rfl)⟩
  | writeCompleteCallback hc =>
      cases hp
      exact .inl ⟨_, rfl, by simp, fun _ => hk (by rcases hc with rfl | ⟨_, rfl⟩ <;> rfl)⟩
  | storeShutdown | storeForceClose | forceCloseIfDisconnecting =>
      cases hp
      exact .inl ⟨_, rfl, by simp, fun hany => by cases hany⟩
  | _ =>
      cases hp
      exact .inl ⟨_, rfl, by simp, fun _ => hk rfl⟩

theorem Continues.bound {l : LoopId} {p : ThreadId × Code} (h : Continues c l p)
    (hc : Established s c) (hl : (s.conn c).loop_ = l) : Bound p.1 p.2 s := by
  obtain ⟨u, b⟩ := p
  rcases h with ⟨k, rfl, _, ht⟩ | ⟨rfl | rfl, ht⟩ | rfl
  · exact ⟨hc.1, fun _ => hc, fun hk => hl ▸ ht hk⟩
  · exact ⟨by rw [show u = .loop l from ht, ← hl]; rfl, fun _ he => by cases he; exact hc⟩
  · exact ⟨by rw [show u = .loop l from ht, ← hl]; rfl, fun _ he => by cases he; exact hc⟩
  · exact hc

/-! ## Steps that only set `revents_` -/

/-- `s'` is `s` but for the `revents_` of its channels. -/
structure ReventsOnly (s s' : TcpServer P) : Prop where
  rest : s' = { s with acceptor_ := s'.acceptor_, conn := s'.conn }
  acceptor : ∃ r, s'.acceptor_ =
    { s.acceptor_ with acceptChannel_ := s.acceptor_.acceptChannel_.setRevents r }
  conn : ∀ c, ∃ r, s'.conn c = { s.conn c with channel_ := (s.conn c).channel_.setRevents r }

theorem ReventsOnly.refl (s : TcpServer P) : ReventsOnly s s :=
  ⟨rfl, ⟨_, rfl⟩, fun _ => ⟨_, rfl⟩⟩

theorem ReventsOnly.trans {s₁ s₂ s₃ : TcpServer P} (h₁ : ReventsOnly s₁ s₂)
    (h₂ : ReventsOnly s₂ s₃) : ReventsOnly s₁ s₃ := by
  refine ⟨?_, ?_, fun c => ?_⟩
  · rw [h₂.rest, h₁.rest]
  · obtain ⟨r₁, hr₁⟩ := h₁.acceptor
    obtain ⟨r₂, hr₂⟩ := h₂.acceptor
    exact ⟨r₂, by rw [hr₂, hr₁]; rfl⟩
  · obtain ⟨r₁, hr₁⟩ := h₁.conn c
    obtain ⟨r₂, hr₂⟩ := h₂.conn c
    exact ⟨r₂, by rw [hr₂, hr₁]; rfl⟩

theorem setChannel_revents (s : TcpServer P) (ch : ChannelId) (r : Events) :
    ReventsOnly s (s.setChannel ch ((s.channel ch).setRevents r)) := by
  cases ch with
  | acceptor => exact ⟨rfl, ⟨r, rfl⟩, fun _ => ⟨_, rfl⟩⟩
  | conn c =>
      refine ⟨rfl, ⟨_, rfl⟩, fun d => ?_⟩
      by_cases hd : d = c
      · subst hd
        exact ⟨r, Function.update_self ..⟩
      · exact ⟨(s.conn d).channel_.revents_, Function.update_of_ne hd ..⟩

theorem setActive_revents (active : List (ChannelId × Events)) :
    ∀ s : TcpServer P, ReventsOnly s (s.setActive active) := by
  induction active with
  | nil => exact fun s => .refl s
  | cons a active ih => exact fun s => (setChannel_revents s a.1 a.2).trans (ih _)

theorem ReventsOnly.log (h : ReventsOnly s s') : s'.log = s.log := by rw [h.rest]

theorem ReventsOnly.pollers (h : ReventsOnly s s') : s'.poller = s.poller := by rw [h.rest]

theorem ReventsOnly.accepted (h : ReventsOnly s s') : s'.accepted = s.accepted := by rw [h.rest]

theorem ReventsOnly.extends (h : ReventsOnly s s') : Extends s s' := by
  refine ⟨Nat.le_of_eq h.accepted.symm, fun c => ⟨[], by rw [List.append_nil, h.log]⟩,
    fun c _ => ?_, fun c _ => ?_⟩
  · obtain ⟨r, hr⟩ := h.conn c
    rw [hr]
  · obtain ⟨r, hr⟩ := h.conn c
    rw [hr]

theorem ReventsOnly.established (h : ReventsOnly s s') : Established s' c ↔ Established s c := by
  unfold Established
  rw [h.accepted, h.log]

theorem ReventsOnly.ownerLoop (h : ReventsOnly s s') (ch : ChannelId) :
    s'.ownerLoop ch = s.ownerLoop ch := by
  cases ch with
  | acceptor => rfl
  | conn c =>
      obtain ⟨r, hr⟩ := h.conn c
      show (s'.conn c).loop_ = (s.conn c).loop_
      rw [hr]

theorem ReventsOnly.base (h : ReventsOnly s s') (hs : Base poller s) : Base poller s' := by
  refine ⟨fun c hc => ?_, fun c => ?_, fun c hc => ?_, fun l ch hl => ?_⟩
  · rw [h.log]
    exact hs.fresh c (h.accepted ▸ hc)
  · rw [h.log]
    exact hs.first c
  · obtain ⟨r, hr⟩ := h.conn c
    rw [hr]
    exact hs.connecting c fun he => hc (h.established.mpr he)
  · have hp : s'.poller = s.poller := by rw [h.rest]
    rw [hp] at hl
    rw [h.ownerLoop]
    exact ⟨(hs.registered l ch hl).1, fun c hc =>
      h.established.mpr ((hs.registered l ch hl).2 c hc)⟩

/-! ## Every step -/

/-- A new state of one loop's poller. -/
theorem Base.setPoller (h : Base poller s) {l : LoopId} {p : P}
    (hp : ∀ ch, poller.registered p ch → poller.registered (s.poller l) ch ∨
      l = s.ownerLoop ch ∧ ∀ c, ch = .conn c → Established s c) :
    Base poller (s.setPoller l p) := by
  refine ⟨h.fresh, h.first, h.connecting, fun k ch hk => ?_⟩
  by_cases hkl : k = l
  · subst hkl
    rw [setPoller_poller_self] at hk
    rcases hp ch hk with hold | hnew
    · exact h.registered k ch hold
    · exact hnew
  · rw [setPoller_poller_of_ne s l p hkl] at hk
    exact h.registered k ch hk

theorem setPoller_extends (s : TcpServer P) (l : LoopId) (p : P) :
    Extends s (s.setPoller l p) :=
  ⟨Nat.le_refl _, fun _ => List.prefix_rfl, fun _ _ => rfl, fun _ _ => rfl⟩

theorem setConn_extends {k : ConnCode} {o : TcpConnection.Outcome}
    (hl : o.conn.loop_ = (s.conn c).loop_) (hn : o.conn.name_ = (s.conn c).name_) :
    Extends s (s.setConn c k o) := by
  refine ⟨Nat.le_refl _, fun d => ?_, fun d _ => ?_, fun d _ => ?_⟩ <;> by_cases hd : d = c
  · subst hd
    rw [setConn_log_self]
    exact List.prefix_append _ _
  · exact ⟨[], by rw [List.append_nil, setConn_log_of_ne _ _ _ _ hd]⟩
  · subst hd
    rw [setConn_conn_self, hl]
  · rw [setConn_conn_of_ne _ _ _ _ hd]
  · subst hd
    rw [setConn_conn_self, hn]
  · rw [setConn_conn_of_ne _ _ _ _ hd]

theorem setConn_base (h : Base poller s) {k : ConnCode} {o : TcpConnection.Outcome}
    (hc : c < s.accepted) (hk : k ≠ .connectEstablished → Established s c)
    (hext : Extends s (s.setConn c k o)) :
    Base poller (s.setConn c k o) ∧ Established (s.setConn c k o) c := by
  have hest : Established (s.setConn c k o) c := by
    by_cases he : k = .connectEstablished
    · refine ⟨hc, ?_⟩
      rw [setConn_log_self, he]
      exact List.mem_append_right _ List.mem_cons_self
    · exact hext.established (hk he)
  refine ⟨⟨fun d hd => ?_, fun d => ?_, fun d hd => ?_, fun l ch hl => ?_⟩, hest⟩
  · have hdc : d ≠ c := fun he => Nat.not_lt.mpr hd (he ▸ hc)
    rw [setConn_log_of_ne _ _ _ _ hdc]
    exact h.fresh d hd
  · by_cases hdc : d = c
    · subst hdc
      rw [setConn_log_self]
      intro _
      by_cases hnil : s.log d = []
      · by_cases he : k = .connectEstablished
        · rw [hnil, he]
          rfl
        · have := (hk he).2
          rw [hnil] at this
          cases this
      · rw [List.head?_append_of_ne_nil _ hnil]
        exact h.first d hnil
    · rw [setConn_log_of_ne _ _ _ _ hdc]
      exact h.first d
  · have hdc : d ≠ c := fun he => hd (he ▸ hest)
    rw [setConn_conn_of_ne _ _ _ _ hdc]
    exact h.connecting d fun he => hd (hext.established he)
  · obtain ⟨h1, h2⟩ := h.registered l ch hl
    exact ⟨by rw [hext.ownerLoop h2]; exact h1, fun d hd => hext.established (h2 d hd)⟩

theorem listen_base (h : Base poller s) : Base poller s.listen.1 :=
  ⟨h.fresh, h.first, h.connecting, fun l ch hl => by
    obtain ⟨h1, h2⟩ := h.registered l ch hl
    exact ⟨by cases ch <;> exact h1, h2⟩⟩

theorem newConnection_extends (s : TcpServer P) (fd : Int) :
    Extends s (newConnection cfg s fd).1 := by
  have hne : ∀ {c}, c < s.accepted → (newConnection cfg s fd).1.conn c = s.conn c := fun hc =>
    Function.update_of_ne (Nat.ne_of_lt hc) ..
  exact ⟨Nat.le_succ _, fun _ => List.prefix_rfl, fun _ hc => by rw [hne hc],
    fun _ hc => by rw [hne hc]⟩

theorem newConnection_base (h : Base poller s) (fd : Int) :
    Base poller (newConnection cfg s fd).1 := by
  have hext : Extends s (newConnection cfg s fd).1 := newConnection_extends s fd
  refine ⟨fun c hc => h.fresh c (Nat.le_of_succ_le hc), h.first, fun c hc => ?_, fun l ch hl => ?_⟩
  · by_cases hca : c = s.accepted
    · subst hca
      show (Function.update s.conn s.accepted _ s.accepted).state_ = _
      rw [Function.update_self]
    · show (Function.update s.conn s.accepted _ c).state_ = _
      rw [Function.update_of_ne hca]
      exact h.connecting c fun he => hc (hext.established he)
  · obtain ⟨h1, h2⟩ := h.registered l ch hl
    exact ⟨by rw [hext.ownerLoop h2]; exact h1, fun d hd => hext.established (h2 d hd)⟩

theorem removeConnectionInLoop_extends (s : TcpServer P) (c : ConnId) :
    Extends s (s.removeConnectionInLoop c).1 := by
  refine ⟨Nat.le_refl _, fun d => ?_, fun _ _ => rfl, fun _ _ => rfl⟩
  by_cases hd : d = c
  · subst hd
    show _ <+: Function.update s.log d _ d
    rw [Function.update_self]
    exact List.prefix_append _ _
  · show _ <+: Function.update s.log c _ d
    exact ⟨[], by rw [List.append_nil, Function.update_of_ne hd]⟩

theorem removeConnectionInLoop_base (h : Base poller s) (hc : Established s c) :
    Base poller (s.removeConnectionInLoop c).1 := by
  have hext := removeConnectionInLoop_extends s c
  refine ⟨fun d hd => ?_, fun d => ?_, fun d hd => ?_, fun l ch hl => ?_⟩
  · have hdc : d ≠ c := fun he => Nat.not_lt.mpr hd (he ▸ hc.1)
    show Function.update s.log c _ d = _
    rw [Function.update_of_ne hdc]
    exact h.fresh d hd
  · show Function.update s.log c _ d ≠ [] → (Function.update s.log c _ d).head? = _
    by_cases hdc : d = c
    · subst hdc
      rw [Function.update_self]
      have hne : s.log d ≠ [] := List.ne_nil_of_mem hc.2
      intro _
      rw [List.head?_append_of_ne_nil _ hne]
      exact h.first d hne
    · rw [Function.update_of_ne hdc]
      exact h.first d
  · exact h.connecting d fun he => hd (hext.established he)
  · obtain ⟨h1, h2⟩ := h.registered l ch hl
    exact ⟨by rw [hext.ownerLoop h2]; exact h1, fun d hd => hext.established (h2 d hd)⟩

theorem handlers_bound {ch : ChannelId} {r : Events} (ht : t = .loop (s.ownerLoop ch))
    (hch : ∀ c, ch = .conn c → Established s c) : ∀ a ∈ handlers ch r, Bound t a s := by
  intro a ha
  cases ch with
  | acceptor =>
      rw [handlers, List.mem_ite_nil_right, List.mem_singleton] at ha
      rw [ha.2]
      exact ht
  | conn c =>
      have hc := hch c rfl
      rcases mem_handlers.mp ha with ⟨_, rfl⟩ | ⟨_, rfl⟩ | ⟨_, rfl⟩ | ⟨_, rfl⟩ <;>
        exact ⟨hc.1, fun _ => hc, fun _ => ht⟩

theorem runs_base {io : Io E} {next : List (Frame Code)} (h : Runs cfg poller t s a io s' next)
    (hs : Base poller s) (ha : Bound t a s) :
    Base poller s' ∧ (∀ g ∈ next, ∀ p ∈ g.dest t, Bound p.1 p.2 s') ∧ Extends s s' := by
  cases h with
  | @conn c k io x evs next h =>
      obtain ⟨hc, hk, ht⟩ := ha
      obtain ⟨hl, hn, _⟩ := connRuns_const h
      have hext : Extends s (s.setConn c k ⟨x, evs, next⟩) := setConn_extends hl hn
      obtain ⟨hbase, hest⟩ := setConn_base hs hc hk hext
      refine ⟨hbase, fun g hg p hp => ?_, hext⟩
      exact (connRuns_next h ht g hg p hp).bound hest (by rw [setConn_conn_self, hl])
  | @handleEvent ch =>
      have hr := setChannel_revents s ch kNoneEvent
      refine ⟨hr.base hs, fun g hg p hp => ?_, hr.extends⟩
      obtain ⟨b, hb, rfl⟩ := List.mem_map.mp hg
      cases hp
      exact hr.extends.bound (handlers_bound ha.1 ha.2 b hb)
  | @update ch e p h =>
      refine ⟨hs.setPoller fun j hj => ?_, by simp, setPoller_extends ..⟩
      rcases poller.registered_update h hj with hold | rfl
      · exact .inl hold
      · exact .inr ⟨rfl, ha.2⟩
  | @remove ch p h =>
      refine ⟨hs.setPoller fun j hj => ?_, by simp, setPoller_extends ..⟩
      exact .inl (poller.registered_remove h hj).1
  | listen ht =>
      refine ⟨listen_base hs, fun g hg p hp => ?_, ?_⟩
      · rw [List.mem_singleton.mp hg] at hp
        cases hp
        exact ⟨ht, fun _ he => by cases he⟩
      · exact ⟨Nat.le_refl _, fun _ => List.prefix_rfl, fun _ _ => rfl, fun _ _ => rfl⟩
  | acceptFailed => exact ⟨hs, by simp, .refl _⟩
  | accept =>
      refine ⟨hs, fun g hg p hp => ?_, .refl _⟩
      rw [List.mem_singleton.mp hg] at hp
      cases hp
      exact ha
  | @newConnection fd ht =>
      refine ⟨newConnection_base hs fd, fun g hg p hp => ?_, newConnection_extends s fd⟩
      rw [List.mem_singleton.mp hg] at hp
      cases hp
      refine ⟨Nat.lt_succ_self _, fun hne => absurd rfl hne, fun _ => ?_⟩
      show _ = ThreadId.loop (Function.update s.conn s.accepted _ s.accepted).loop_
      rw [Function.update_self]
  | removeConnection =>
      refine ⟨hs, fun g hg p hp => ?_, .refl _⟩
      rw [List.mem_singleton.mp hg] at hp
      cases hp
      exact ⟨ha, rfl⟩
  | @removeConnectionInLoop c ht =>
      have hext := removeConnectionInLoop_extends s c
      refine ⟨removeConnectionInLoop_base hs ha.1, fun g hg p hp => ?_, hext⟩
      rw [mem_removeConnectionInLoop hg] at hp
      cases hp
      have := hext.established ha.1
      exact ⟨this.1, fun _ => this, fun _ => rfl⟩

/-- What a call of `poll` leaves: the poller's new state, and `revents_` set. -/
theorem poll_revents {l : LoopId} {io : Io E} {r : TcpServer P × Option (List Code)}
    (h : poll poller l io s = some r) :
    ∃ e q, io = .poller e ∧ poller.poll (s.poller l) s.channel e = some q ∧
      ReventsOnly (s.setPoller l q.1) r.1 ∧
      r.2 = q.2.map fun active => active.map fun a => .handleEvent a.1 := by
  unfold poll at h
  split at h
  · next e =>
      obtain ⟨q, hq, hr⟩ := Option.map_eq_some_iff.mp h
      refine ⟨e, q, rfl, hq, ?_⟩
      obtain ⟨p, active⟩ := q
      cases active with
      | none => exact hr ▸ ⟨.refl _, rfl⟩
      | some active => exact hr ▸ ⟨setActive_revents active _, rfl⟩
  · cases h

/-- What it has to be dispatched are calls of `handleEvent`. -/
theorem poll_codes {l : LoopId} {io : Io E} {r : TcpServer P × Option (List Code)}
    (h : poll poller l io s = some r) : ∀ b ∈ r.2.getD [], ∃ ch, b = .handleEvent ch := by
  obtain ⟨_, q, _, _, _, hact⟩ := poll_revents h
  intro b hb
  rw [hact] at hb
  cases hq : q.2 with
  | none =>
      rw [hq] at hb
      cases hb
  | some active =>
      rw [hq] at hb
      obtain ⟨a, _, rfl⟩ := List.mem_map.mp hb
      exact ⟨a.1, rfl⟩

theorem poll_base {l : LoopId} {io : Io E} {r : TcpServer P × Option (List Code)}
    (h : poll poller l io s = some r) (hs : Base poller s) :
    Base poller r.1 ∧ (∀ b ∈ r.2.getD [], Bound (.loop l) b r.1) ∧ Extends s r.1 := by
  obtain ⟨e, q, rfl, hq, hr, hact⟩ := poll_revents h
  have hset : Base poller (s.setPoller l q.1) :=
    hs.setPoller fun ch hch => .inl (poller.registered_poll hq hch)
  have hext : Extends s r.1 := by
    have h1 := setPoller_extends s l q.1
    have h2 := hr.extends
    exact ⟨Nat.le_trans h1.accepted h2.accepted, fun c => (h1.log c).trans (h2.log c),
      fun c hc => (h2.loop c hc).trans (h1.loop c hc),
      fun c hc => (h2.name c hc).trans (h1.name c hc)⟩
  refine ⟨hr.base hset, fun b hb => ?_, hext⟩
  obtain ⟨p, active⟩ := q
  cases active with
  | none =>
      rw [hact] at hb
      cases hb
  | some active =>
      rw [hact] at hb
      obtain ⟨a, ha, rfl⟩ := List.mem_map.mp hb
      obtain ⟨hl, hc⟩ := hs.registered l a.1 (poller.poll_registered hq ha)
      have hb : Bound (.loop l) (.handleEvent a.1) s := ⟨by rw [hl], hc⟩
      exact hext.bound hb

/-- What user code may call is bound for the thread it runs on. -/
theorem api_bound (hs : Base poller s) (h : api t s a = true) : Bound t a s := by
  have hpub : ∀ {c}, s.published c = true → Established s c := by
    intro c hc
    rw [published, Bool.and_eq_true, decide_eq_true_iff, bne_iff_ne] at hc
    by_contra he
    exact hc.2 (hs.connecting c he)
  unfold api at h
  split at h
  · rw [Bool.and_eq_true] at h
    exact ⟨(hpub h.1).1, fun _ => hpub h.1, fun hk => by cases hk⟩
  · rw [Bool.and_eq_true] at h
    exact ⟨(hpub h.1).1, fun _ => hpub h.1, fun hk => by cases hk⟩
  · exact ⟨(hpub h).1, fun _ => hpub h, fun hk => by cases hk⟩
  · exact ⟨(hpub h).1, fun _ => hpub h, fun hk => by cases hk⟩
  · rw [Bool.and_eq_true, beq_iff_eq] at h
    exact ⟨(hpub h.1).1, fun _ => hpub h.1, fun _ => h.2⟩
  · cases h

/-! ## Along every run -/

theorem base_step {s s' : State P} {b : ThreadId × Choice Code (Io E)}
    (hs : (lts cfg poller).step s b = some s') (hsound : Sound s)
    (h : AppInv (Base poller) Bound s) : AppInv (Base poller) Bound s' := by
  refine h.step hs hsound (fun _ _ hx ha => ?_) (fun _ _ ht hx => ?_) fun _ ha => api_bound h.app ha
  · obtain ⟨h1, h2, h3⟩ := runs_base (exec_runs hx) h.app ha
    exact ⟨h1, h2, fun _ _ => h3.bound⟩
  · obtain ⟨h1, h2, h3⟩ := poll_base hx h.app
    exact ⟨h1, by rw [ht]; exact h2, fun _ _ => h3.bound⟩

theorem base_started : AppInv (Base poller) Bound (started poller) := by
  refine ⟨⟨fun _ _ => rfl, fun _ h => absurd rfl h, fun _ _ => rfl, fun _ _ h => ?_⟩,
    fun t f hf p hp => ?_, fun _ _ hq => by cases hq⟩
  · exact absurd h poller.not_registered_new
  · rw [started_dest hf p hp]
    rfl

/-- Along every run code runs where it belongs. -/
theorem base {C : State P → ThreadId × Choice Code (Io E) → Prop} {s : State P}
    (h : (lts cfg poller).ReachIf C s) : AppInv (Base poller) Bound s :=
  run_inv h base_started fun hr hI _ hs => base_step hs (sound hr) hI

/-- No step undoes what `Extends` keeps. -/
theorem step_extends {s s' : State P} {b : ThreadId × Choice Code (Io E)}
    (hs : (lts cfg poller).step s b = some s') (h : AppInv (Base poller) Bound s) :
    Extends s.shared.app s'.shared.app := by
  obtain ⟨t, ch⟩ := b
  obtain ⟨f, rest, x, next, ht, hr, rfl⟩ := step_runs hs
  cases hr with
  | code hx =>
      have hb := h.all.stack t _ (by rw [ht]; exact List.mem_cons_self) _ rfl
      exact (runs_base (exec_runs hx) h.app hb).2.2
  | polling hx | polled hx => exact (poll_base hx h.app).2.2
  | _ => exact .refl _

/-! ## One connection

What a step of the server means to one connection and its history: a piece of
its own code, something that leaves it as it is but for `revents_`, or its
construction. A property of the two that survives each of these holds along
every run. -/

/-- What leaves a connection and its history as they are, for all that matters. -/
inductive Idle (x : TcpConnection) (log : List Event) : TcpConnection → List Event → Prop
  | revents {r : Events} : Idle x log { x with channel_ := x.channel_.setRevents r } log
  | removed {b : Bool} : Idle x log x (log ++ [.removed b])

theorem Idle.same {x : TcpConnection} {log : List Event} : Idle x log x log :=
  .revents (r := x.channel_.revents_)

theorem Idle.conn {x x' : TcpConnection} {log log' : List Event} (h : Idle x log x' log') :
    ∃ r, x' = { x with channel_ := x.channel_.setRevents r } := by
  cases h with
  | revents => exact ⟨_, rfl⟩
  | removed => exact ⟨x.channel_.revents_, rfl⟩

theorem Idle.log {x x' : TcpConnection} {log log' : List Event} (h : Idle x log x' log') :
    log' = log ∨ ∃ b, log' = log ++ [.removed b] := by
  cases h with
  | revents => exact .inl rfl
  | removed => exact .inr ⟨_, rfl⟩

/-- What `newConnection` constructs. -/
structure New (cfg : ServerConfig) (x : TcpConnection) : Prop where
  eq : x =
    { loop_ := x.loop_
      name_ := x.name_
      channel_ := { fd_ := x.channel_.fd_ }
      messageCallback_ := cfg.messageCallback_
      writeCompleteCallback_ := cfg.writeCompleteCallback_ }

/-- What code `a` is to connection `c`. -/
inductive Touches (cfg : ServerConfig) (c : ConnId) (t : ThreadId) (s s' : TcpServer P) :
    Code → Io E → List (Frame Code) → Prop
  | piece {k : ConnCode} {io : Io E} {evs : List Event} {next : List (Frame Code)}
      (h : (s.conn c).Runs c t k io (s'.conn c) evs next)
      (hlog : s'.log c = s.log c ++ .ran k :: evs) : Touches cfg c t s s' (.conn c k) io next
  | idle {a : Code} {io : Io E} {next : List (Frame Code)} (ha : ∀ k, a ≠ .conn c k)
      (h : Idle (s.conn c) (s.log c) (s'.conn c) (s'.log c)) : Touches cfg c t s s' a io next
  | new {fd : Int} {io : Io E} {next : List (Frame Code)} (hc : c = s.accepted)
      (h : New cfg (s'.conn c)) (hlog : s'.log c = s.log c) :
      Touches cfg c t s s' (.newConnection fd) io next

theorem ReventsOnly.idle (h : ReventsOnly s s') (c : ConnId) :
    Idle (s.conn c) (s.log c) (s'.conn c) (s'.log c) := by
  obtain ⟨r, hr⟩ := h.conn c
  rw [hr, h.log]
  exact .revents

theorem runs_touches {io : Io E} {next : List (Frame Code)}
    (h : Runs cfg poller t s a io s' next) (c : ConnId) : Touches cfg c t s s' a io next := by
  cases h with
  | @conn d k io x evs next h =>
      by_cases hc : c = d
      · subst hc
        exact .piece (by rw [setConn_conn_self]; exact h) (setConn_log_self ..)
      · refine .idle (fun j hj => hc (Code.conn.inj hj).1.symm) ?_
        rw [setConn_conn_of_ne _ _ _ _ hc, setConn_log_of_ne _ _ _ _ hc]
        exact .same
  | @handleEvent ch => exact .idle (by simp) ((setChannel_revents s ch kNoneEvent).idle c)
  | update | remove | listen | acceptFailed | accept | removeConnection =>
      exact .idle (by simp) .same
  | @newConnection fd =>
      by_cases hc : c = s.accepted
      · refine .new hc ⟨?_⟩ rfl
        show Function.update s.conn s.accepted _ c = _
        rw [hc]
        simp only [TcpServer.newConnection, Function.update_self]
        rfl
      · refine .idle (by simp) ?_
        show Idle (s.conn c) (s.log c) (Function.update s.conn s.accepted _ c) (s.log c)
        rw [Function.update_of_ne hc]
        exact .same
  | @removeConnectionInLoop d =>
      refine .idle (by simp) ?_
      show Idle (s.conn c) (s.log c) (s.conn c) (Function.update s.log d _ c)
      by_cases hc : c = d
      · rw [hc, Function.update_self]
        exact .removed
      · rw [Function.update_of_ne hc]
        exact .same

/-- What is new in the history is what ran. -/
theorem runs_mem_ran {io : Io E} {next : List (Frame Code)}
    (h : Runs cfg poller t s a io s' next) {k : ConnCode} (hmem : .ran k ∈ s'.log c) :
    .ran k ∈ s.log c ∨ a = .conn c k := by
  cases runs_touches h c with
  | piece hr hlog =>
      rw [hlog] at hmem
      rcases List.mem_append.mp hmem with hmem | hmem
      · exact .inl hmem
      · rcases List.mem_cons.mp hmem with he | hmem
        · cases he
          exact .inr rfl
        · exact absurd hmem ((connRuns_events hr).1 k)
  | idle _ hi =>
      rcases hi.log with he | ⟨b, he⟩ <;> rw [he] at hmem
      · exact .inl hmem
      · exact .inl (by simpa using hmem)
  | new _ _ hlog =>
      rw [hlog] at hmem
      exact .inl hmem

theorem poll_idle {l : LoopId} {io : Io E} {r : TcpServer P × Option (List Code)}
    (h : poll poller l io s = some r) (c : ConnId) :
    Idle (s.conn c) (s.log c) (r.1.conn c) (r.1.log c) := by
  obtain ⟨e, q, rfl, _, hr, _⟩ := poll_revents h
  exact hr.idle c

/-- The rule for a property of each connection and its history. -/
theorem conn_inv {Φ : TcpConnection → List Event → Prop} {s : State P}
    (h : (lts cfg poller).Reach s) (hinit : ∀ {x}, x = {} ∨ New cfg x → Φ x [])
    (hidle : ∀ {x x' log log'}, Φ x log → Idle x log x' log' → Φ x' log')
    (hpiece : ∀ {x x' : TcpConnection} {c t k io evs next log}, Φ x log →
      x.Runs (E := E) c t k io x' evs next → Φ x' (log ++ .ran k :: evs)) (c : ConnId) :
    Φ (s.shared.app.conn c) (s.shared.app.log c) := by
  have hinv : AppInv (fun s => ∀ c, Φ (s.conn c) (s.log c)) (fun _ _ _ => True) s := by
    refine run_inv h ?_ fun {s b s'} hr hI _ hs => ?_
    · exact ⟨fun _ => hinit (.inl rfl), fun _ _ _ _ _ => trivial, fun _ _ _ _ _ => trivial⟩
    · refine hI.step hs (sound hr) (fun _ _ hx _ => ⟨fun c => ?_, fun _ _ _ _ => trivial,
        fun _ _ _ => trivial⟩) (fun _ _ _ hx => ⟨fun c => ?_, fun _ _ => trivial,
        fun _ _ _ => trivial⟩) fun _ _ => trivial
      · cases runs_touches (exec_runs hx) c with
        | piece hr hlog =>
            rw [hlog]
            exact hpiece (hI.app c) hr
        | idle _ h => exact hidle (hI.app c) h
        | new hc h hlog =>
            rw [hlog, (base hr).app.fresh c (Nat.le_of_eq hc.symm)]
            exact hinit (.inr h)
      · exact hidle (hI.app c) (poll_idle hx c)
  exact hinv.app c

/-! ## A schedule to start from

Over a single loop, up to the user's code in the first callback of connection
0. `quiet` is a poller's answer when there is nothing to report and `ready` one
that reports the listening socket. -/

/-- An accept thread on 127.0.0.1:80, with every callback set. -/
def echoConfig : ServerConfig where
  name_ := ['s']
  ipPort_ := ⟨"127.0.0.1:80".toList, by decide⟩
  threadNum_ := 0
  messageCallback_ := true
  writeCompleteCallback_ := true
  platform := .linux

def listening (quiet : E) : List (ThreadId × Choice Code (Io E)) :=
  [(.user 0, .go), (.user 0, .go), (.user 0, .moved 8), (.loop 0, .go), (.loop 0, .go),
    (.loop 0, .go), (.loop 0, .poll (.poller quiet) 0), (.loop 0, .moved 8), (.loop 0, .go),
    (.loop 0, .go), (.loop 0, .app .none), (.loop 0, .app (.poller quiet)), (.loop 0, .go)]

def accepting (quiet ready : E) : List (ThreadId × Choice Code (Io E)) :=
  [(.loop 0, .poll (.poller ready) 0), (.loop 0, .app .none),
    (.loop 0, .app (.accepted (some 7))), (.loop 0, .app .none), (.loop 0, .go),
    (.loop 0, .app .none), (.loop 0, .app (.poller quiet)), (.loop 0, .app .none)]

/-- Both, over the most general poller. -/
def connecting : List (ThreadId × Choice Code (Io (List (ChannelId × Events)))) :=
  listening [] ++ accepting [] [(.acceptor, { read := true })]

end TcpServer

end Muduox.Net
