import Muduox.Net.ServerTeardown
import Muduox.Proofs.ConnectionRuns

/-!
# What teardown does to the channels

A channel is taken out of its poller by its loop's thread in one place,
`connectDestroyed`. Nothing calls that for the acceptor's channel: `~Acceptor`
removes it on the thread that tears the server down. For a connection it is
called once the connection was erased from `connections_`, so a connection that
is still in the map when `~TcpServer` destroys it was not removed at all.
-/

namespace Muduox.Net

namespace Torn

open Threads Reactor TcpServer

variable {P E : Type} {cfg : ServerConfig} {poller : Poller P E}

/-- Whenever a channel was destroyed, its loop's thread had removed it from the
poller, and the loop was not dispatching a list that has it. -/
def Safe (s : Torn P) : Prop := ∀ d ∈ s.destroyed, d.removed = true ∧ d.dispatched = false

/-- `stop()` or `~TcpServer()` was called, and has returned. -/
def Down (s : Torn P) : Prop := (s.started_ = false ∨ s.destructed = true) ∧ s.left = []

/-- Connection `c` was erased from `connections_`. -/
def Erased (x : TcpServer P) (c : ConnId) : Prop :=
  c < x.accepted ∧ x.connections_ (x.conn c).name_ ≠ some c

/-- The code that takes a channel out of its poller is a connection's, after it
was erased. -/
def Removing (_ : ThreadId) (a : Code) (x : TcpServer P) : Prop :=
  a ≠ .remove .acceptor ∧
    ∀ c, a = .conn c .connectDestroyed ∨ a = .remove (.conn c) → Erased x c

section Server

variable {t : ThreadId} {a : Code} {io : Io E} {x x' : TcpServer P} {next : List (Frame Code)}

theorem runs_erased (h : TcpServer.Runs cfg poller t x a io x' next) (hext : Extends x x')
    {c : ConnId} (hc : Erased x c) : Erased x' c := by
  refine ⟨Nat.lt_of_lt_of_le hc.1 hext.accepted, ?_⟩
  rw [hext.name c hc.1]
  cases h with
  | @handleEvent ch => cases ch <;> exact hc.2
  | @newConnection fd =>
      show Function.update x.connections_ _ (some x.accepted) _ ≠ some c
      by_cases hn : (x.conn c).name_ = connName cfg x.nextConnId_
      · rw [hn, Function.update_self]
        intro he
        exact Nat.ne_of_gt hc.1 (Option.some.inj he)
      · rw [Function.update_of_ne hn]
        exact hc.2
  | @removeConnectionInLoop d =>
      show Function.update x.connections_ _ none _ ≠ some c
      by_cases hn : (x.conn c).name_ = (x.conn d).name_
      · rw [hn, Function.update_self]
        simp
      · rw [Function.update_of_ne hn]
        exact hc.2
  | _ => exact hc.2

theorem Removing.keep {u : ThreadId} {b : Code} (h : Removing u b x)
    (he : ∀ c, Erased x c → Erased x' c) : Removing u b x' :=
  ⟨h.1, fun c hc => he c (h.2 c hc)⟩

theorem connRuns_removing {d : ConnId} {k : ConnCode} {y y' : TcpConnection} {evs : List Event}
    (h : y.Runs d t k io y' evs next) : ∀ g ∈ next, ∀ p ∈ g.dest t, p.2 ≠ .remove .acceptor ∧
      ∀ c, p.2 = .conn c .connectDestroyed ∨ p.2 = .remove (.conn c) →
        c = d ∧ k = .connectDestroyed := by
  intro g hg p hp
  cases h.leaves g hg with
  | user => cases hp
  | remove | resetSocket =>
      cases hp
      simp [eq_comm]
  | _ =>
      cases hp
      simp

/-- Such code is left by `removeConnectionInLoop`, and by `connectDestroyed`. -/
theorem runs_removing (h : TcpServer.Runs cfg poller t x a io x' next) (hext : Extends x x')
    (hbound : Bound t a x) (ha : Removing t a x) :
    ∀ g ∈ next, ∀ p ∈ g.dest t, Removing p.1 p.2 x' := by
  have hkeep := fun c => runs_erased h hext (c := c)
  cases h with
  | @conn d k io y evs next h =>
      intro g hg p hp
      obtain ⟨hacc, hconn⟩ := connRuns_removing h g hg p hp
      refine ⟨hacc, fun c hc => hkeep c ?_⟩
      obtain ⟨rfl, rfl⟩ := hconn c hc
      exact ha.2 c (.inl rfl)
  | handleEvent =>
      intro g hg p hp
      rcases mem_handleEvent hg with
        ⟨_, rfl⟩ | ⟨_, _, _, rfl, ⟨_, rfl⟩ | ⟨_, rfl⟩ | ⟨_, rfl⟩ | ⟨_, rfl⟩⟩ <;>
          cases hp <;> exact ⟨by simp, by simp⟩
  | @removeConnectionInLoop c =>
      intro g hg p hp
      have hmap : (x.removeConnectionInLoop c).1.connections_ (x.conn c).name_ ≠ some c := by
        show Function.update x.connections_ (x.conn c).name_ none _ ≠ _
        rw [Function.update_self]
        simp
      rw [mem_removeConnectionInLoop hg] at hp
      cases hp
      refine ⟨by simp, fun d hd => ?_⟩
      obtain rfl : c = d := by simpa using hd
      exact ⟨hbound.1.1, hmap⟩
  | _ =>
      intro g hg p hp
      simp [TcpServer.listen, TcpServer.newConnection] at hg <;> subst hg <;> cases hp <;>
        exact ⟨by simp, by simp⟩

theorem api_removing (h : api t x a = true) : Removing t a x := by
  refine ⟨?_, fun c hc => ?_⟩
  · rintro rfl
    cases h
  · rcases hc with rfl | rfl <;> cases h

theorem poll_erased {l : LoopId} {r : TcpServer P × Option (List Code)}
    (h : poll poller l io x = some r) {c : ConnId} (hc : Erased x c) : Erased r.1 c := by
  obtain ⟨_, q, _, _, hrev, _⟩ := poll_revents h
  obtain ⟨_, hconn⟩ := hrev.conn c
  have hmap : r.1.connections_ = x.connections_ := by
    rw [hrev.rest]
    rfl
  refine ⟨by rw [hrev.accepted]; exact hc.1, ?_⟩
  rw [hmap, hconn]
  exact hc.2

theorem removing_step {s s' : State P} {b : ThreadId × Choice Code (Io E)}
    (hs : (TcpServer.lts cfg poller).step s b = some s') (hsound : Sound s)
    (hbase : AppInv (Base poller) Bound s) (h : Everywhere Removing s) :
    Everywhere Removing s' ∧ ∀ c, Erased s.shared.app c → Erased s'.shared.app c := by
  have hinv : AppInv (fun x => ∀ c, Erased s.shared.app c → Erased x c) Removing s :=
    ⟨fun _ hc => hc, h⟩
  have hnext := hinv.step hs hsound (fun {a io x next rest} ht _ hx ha => ?_)
    (fun {l e place r rest} _ _ _ hx => ?_) fun _ => api_removing
  · exact ⟨hnext.all, hnext.app⟩
  · have hruns := exec_runs hx
    have hb := hbase.all.stack _ _ (by rw [ht]; exact List.mem_cons_self) _ rfl
    have hext := (runs_base hruns hbase.app hb).2.2
    have hkeep := fun c => runs_erased hruns hext (c := c)
    exact ⟨hkeep, runs_removing hruns hext hb ha, fun u b hk => hk.keep hkeep⟩
  · have hkeep := fun c => poll_erased hx (c := c)
    refine ⟨hkeep, fun b hb => ?_, fun u b hk => hk.keep hkeep⟩
    obtain ⟨_, rfl⟩ := poll_codes hx b hb
    exact ⟨by simp, by simp⟩

end Server

/-! ## Along a run -/

/-- What the server keeps while it is torn down. -/
structure Running (poller : Poller P E) (x : State P) : Prop where
  sound : Sound x
  base : AppInv (Base poller) Bound x
  code : Everywhere Removing x

/-- What the steps of `stop` and the destructors leave alone. -/
structure Beside (x x' : State P) : Prop where
  stack : x'.stack = x.stack
  queue : ∀ l, ∀ q ∈ (x'.shared.loop l).pendingFunctors_,
    q ∈ (x.shared.loop l).pendingFunctors_
  accepted : x'.shared.app.accepted = x.shared.app.accepted
  conn : x'.shared.app.conn = x.shared.app.conn
  log : x'.shared.app.log = x.shared.app.log
  map : x'.shared.app.connections_ = x.shared.app.connections_

theorem Beside.erased {x x' : State P} (h : Beside x x') {c : ConnId}
    (hc : Erased x.shared.app c) : Erased x'.shared.app c := by
  unfold Erased
  rw [h.accepted, h.map, h.conn]
  exact hc

theorem Beside.everywhere {x x' : State P} (h : Beside x x')
    {K : ThreadId → Code → TcpServer P → Prop} (hx : Everywhere K x)
    (hK : ∀ u b, K u b x.shared.app → K u b x'.shared.app) : Everywhere K x' := by
  refine ⟨fun t f hf p hp => hK _ _ (hx.stack t f ?_ p hp), fun l q hq p hp =>
    hK _ _ (hx.queue l q (h.queue l q hq) p hp)⟩
  rw [← h.stack]
  exact hf

theorem Running.beside {x x' : State P} (hx : Running poller x) (h : Beside x x')
    (hbase : Base poller x'.shared.app) : Running poller x' := by
  have hext : Extends x.shared.app x'.shared.app :=
    ⟨Nat.le_of_eq h.accepted.symm, fun c => ⟨[], by rw [List.append_nil, h.log]⟩,
      fun c _ => by rw [h.conn], fun c _ => by rw [h.conn]⟩
  refine ⟨⟨⟨fun l q hq => hx.sound.plain.1 l q (h.queue l q hq), fun t f hf => ?_⟩, ?_⟩,
    ⟨hbase, h.everywhere hx.base.all fun _ _ => hext.bound⟩,
    h.everywhere hx.code fun _ _ hb => hb.keep fun _ hc => h.erased hc⟩
  · rw [h.stack] at hf
    exact hx.sound.plain.2 t f hf
  · unfold Shaped
    rw [h.stack]
    exact hx.sound.shaped

/-- What holds along every run. -/
structure Tearing (poller : Poller P E) (s : Torn P) : Prop where
  running : Running poller s.server
  acceptor : .loop acceptLoop ∉ s.removedBy .acceptor
  conns : ∀ c, s.removedBy (.conn c) ≠ [] → Erased s.app c
  records : ∀ d ∈ s.destroyed, (d.channel = .acceptor → d.removed = false) ∧
    ∀ c, d.channel = .conn c → d.removed = true → Erased s.app c
  reset : s.acceptor_ = false →
    .destroyAcceptor ∈ s.left ∨ ∃ d ∈ s.destroyed, d.channel = .acceptor
  called : s.started_ = false ∨ s.destructed = true →
    s.acceptor_ = false ∨ .resetAcceptor ∈ s.left

section Step

variable {s s' : Torn P}

/-- Another server behind the same records. -/
theorem Tearing.server (h : Tearing poller s) {x : State P} (hx : Running poller x)
    (he : ∀ c, Erased s.app c → Erased x.shared.app c) :
    Tearing poller { s with server := x } :=
  { h with
    running := hx
    conns := fun c hc => he c (h.conns c hc)
    records := fun d hd => ⟨(h.records d hd).1, fun c hc hr => he c ((h.records d hd).2 c hc hr)⟩ }

/-- User 0 is through with one piece. -/
theorem Tearing.pop (h : Tearing poller s) {f : TearFrame} {rest : List TearFrame}
    (hl : s.left = f :: rest) (hf : f ≠ .destroyAcceptor) (hf' : f ≠ .resetAcceptor)
    {next : List TearFrame} (hnext : ∀ g ∈ rest, g ∈ next) :
    Tearing poller { s with left := next } := by
  have hmem : ∀ g, g ≠ f → g ∈ s.left → g ∈ next := by
    intro g hg hm
    rw [hl] at hm
    exact hnext g ((List.mem_cons.mp hm).resolve_left hg)
  exact { h with
    reset := fun ha => (h.reset ha).imp (hmem _ (Ne.symm hf)) id
    called := fun hc => (h.called hc).imp id (hmem _ (Ne.symm hf')) }

theorem Tearing.destroy (h : Tearing poller s) (ch : ChannelId) : Tearing poller (s.destroy ch) := by
  refine { h with records := fun d hd => ?_, reset := fun ha => (h.reset ha).imp id ?_ }
  · rcases List.mem_append.mp hd with hd | hd
    · exact h.records d hd
    · rw [List.mem_singleton.mp hd]
      refine ⟨?_, ?_⟩
      · rintro rfl
        exact decide_eq_false h.acceptor
      · rintro c rfl hr
        exact h.conns c (List.ne_nil_of_mem (of_decide_eq_true hr))
  · rintro ⟨d, hd, hch⟩
    exact ⟨d, List.mem_append_left _ hd, hch⟩

/-- A channel was taken out of its poller. -/
theorem Tearing.removed (h : Tearing poller s) (ch : ChannelId) (ts : List ThreadId)
    (hacc : ch = .acceptor → .loop acceptLoop ∉ ts) (hconn : ∀ c, ch = .conn c → Erased s.app c) :
    Tearing poller { s with removedBy := Function.update s.removedBy ch ts } := by
  refine { h with acceptor := ?_, conns := fun c hc => ?_ } <;> dsimp only at *
  · by_cases he : ch = .acceptor
    · rw [he, Function.update_self]
      exact hacc he
    · rw [Function.update_of_ne (Ne.symm he)]
      exact h.acceptor
  · by_cases he : ch = .conn c
    · exact hconn c he
    · rw [Function.update_of_ne (Ne.symm he)] at hc
      exact h.conns c hc

theorem Tearing.run (h : Tearing poller s) {t : ThreadId} {ch : Choice Code (Io E)}
    (hs : s.run cfg poller t ch = some s') : Tearing poller s' := by
  unfold Torn.run at hs
  split at hs
  · cases hs
  · next f rest ht =>
      split at hs
      · obtain ⟨x, hx, rfl⟩ := Option.map_eq_some_iff.mp hs
        obtain ⟨hcode, herased⟩ := removing_step hx h.running.sound h.running.base h.running.code
        have hnew := h.server ⟨sound_step hx h.running.sound,
          base_step hx h.running.sound h.running.base, hcode⟩ herased
        have htop : ∀ p ∈ f.dest t, Removing p.1 p.2 s.app :=
          h.running.code.stack t f (by rw [ht]; exact List.mem_cons_self)
        unfold record
        split
        · have hrem := htop _ rfl
          refine hnew.removed _ _ (fun he => absurd (by rw [he]) hrem.1) fun c he => ?_
          exact herased c (hrem.2 c (.inr (by rw [he])))
        · exact { hnew with }
        · exact hnew
      · cases hs

theorem Tearing.setLoop (h : Tearing poller s) (l : LoopId) {e : EventLoop Code}
    (he : ∀ q ∈ e.pendingFunctors_, q ∈ (s.server.shared.loop l).pendingFunctors_) :
    Tearing poller (s.setLoop l e) := by
  have hb : Beside s.server (s.setLoop l e).server := by
    refine ⟨rfl, fun k q hq => ?_, rfl, rfl, rfl, rfl⟩
    by_cases hk : k = l
    · subst hk
      rw [show (s.setLoop k e).server.shared.loop k = e from Function.update_self ..] at hq
      exact he q hq
    · rwa [show (s.setLoop l e).server.shared.loop k = _ from Function.update_of_ne hk ..] at hq
  exact h.server (h.running.beside hb h.running.base.app) fun _ => hb.erased

theorem Tearing.setPoller (h : Tearing poller s) {p : P}
    (hp : ∀ ch, poller.registered p ch → poller.registered (s.app.poller acceptLoop) ch ∨
      ch = .acceptor) : Tearing poller (s.setApp (s.app.setPoller acceptLoop p)) := by
  have hb : Beside s.server (s.setApp (s.app.setPoller acceptLoop p)).server :=
    ⟨rfl, fun _ _ hq => hq, rfl, rfl, rfl, rfl⟩
  refine h.server (h.running.beside hb (h.running.base.app.setPoller fun ch hch => ?_))
    fun _ => hb.erased
  refine (hp ch hch).imp id ?_
  rintro rfl
  exact ⟨rfl, by simp⟩

/-- A piece of `stop` or of a destructor. -/
theorem Tearing.piece (h : Tearing poller s) {f : TearFrame} {rest : List TearFrame}
    (hl : s.left = f :: rest) (hs : s.piece poller f rest = some s') : Tearing poller s' := by
  cases f with
  | resetAcceptor =>
      simp only [Torn.piece] at hs
      split at hs
      · cases hs
        exact { h with reset := fun _ => .inl (by simp), called := fun _ => .inl rfl }
      · next ha =>
          cases hs
          have hno : s.acceptor_ = false := Bool.eq_false_iff.mpr ha
          refine { h with reset := fun _ => (h.reset hno).imp ?_ id, called := fun _ => .inl hno }
          rw [hl]
          exact fun hm => (List.mem_cons.mp hm).resolve_left (by simp)
  | disableAll =>
      cases hs
      have hb : Beside s.server (s.setApp (s.app.setChannel .acceptor
          (s.app.channel .acceptor).disableAll)).server :=
        ⟨rfl, fun _ _ hq => hq, rfl, rfl, rfl, rfl⟩
      have hbase := h.running.base.app
      have hreg := h.running.beside hb
        ⟨hbase.fresh, hbase.first, hbase.connecting, fun l ch hch => ?_⟩
      · have hserver := h.server hreg fun _ => hb.erased
        exact hserver.pop hl (by simp) (by simp) fun _ hg => hg
      · have hold := hbase.registered l ch hch
        cases ch with
        | acceptor => exact hold
        | conn c => exact hold
  | removeChannel =>
      obtain ⟨p, hp, rfl⟩ := Option.map_eq_some_iff.mp hs
      have hset := h.setPoller fun ch hch => .inl (poller.registered_remove hp hch).1
      have hrem := hset.removed .acceptor (.user 0 :: s.removedBy .acceptor)
        (fun _ => by simpa using h.acceptor) (by simp)
      exact hrem.pop hl (by simp) (by simp) fun _ hg => hg
  | destroyAcceptor =>
      cases hs
      refine { h.destroy .acceptor with reset := fun _ => .inr ?_, called := fun hc => ?_ }
      · exact ⟨_, List.mem_append_right _ List.mem_cons_self, rfl⟩
      · refine (h.called hc).imp id fun hm => ?_
        rw [hl] at hm
        exact (List.mem_cons.mp hm).resolve_left (by simp)
  | destroyConnections =>
      cases hs
      exact { h.pop hl (by simp) (by simp) fun _ hg => hg with }
  | stopThread l =>
      cases hs
      have hset := h.setLoop l (e := { s.server.shared.loop l with quit_ := true }) fun _ hq => hq
      refine hset.pop hl (by simp) (by simp) fun _ hg => ?_
      exact List.mem_cons_of_mem _ (List.mem_cons_of_mem _ hg)
  | join l =>
      have hpop : Tearing poller { s with left := rest } :=
        h.pop hl (by simp) (by simp) fun _ hg => hg
      simp only [Torn.piece] at hs
      split at hs
      · split at hs
        · cases hs
          exact { hpop with }
        · cases hs
      · cases hs
        exact hpop
  | destroyLoop l =>
      cases hs
      have hset := h.setLoop l (e := { s.server.shared.loop l with pendingFunctors_ := [] })
        (by simp)
      exact { hset.pop hl (by simp) (by simp) fun _ hg => hg with }
  | updateChannel => cases hs
  | wakeup l => cases hs

theorem tearing_step {a : TearStep E} (hs : (lts cfg poller).step s a = some s')
    (h : Tearing poller s) : Tearing poller s' := by
  cases a with
  | run t ch => exact h.run hs
  | stop =>
      simp only [lts, step] at hs
      split at hs
      · next hc =>
          cases hs
          unfold Torn.stop
          split
          · refine { h with reset := fun ha => ?_, called := fun _ => .inr (by simp) }
            refine (h.reset ha).imp (fun hm => ?_) id
            rw [(of_decide_eq_true hc).1] at hm
            cases hm
          · exact h
      · cases hs
  | destructor =>
      simp only [lts, step] at hs
      split at hs
      · next hc =>
          cases hs
          refine { h with reset := fun ha => ?_, called := fun _ => .inr (by simp [destructor, members]) }
          refine (h.reset ha).imp (fun hm => ?_) id
          rw [(of_decide_eq_true hc).1] at hm
          cases hm
      · cases hs
  | go =>
      simp only [lts, step] at hs
      split at hs
      · cases hs
      · next f rest hl => exact h.piece hl hs
  | poller e =>
      simp only [lts, step] at hs
      split at hs
      · next rest hl =>
          obtain ⟨p, hp, rfl⟩ := Option.map_eq_some_iff.mp hs
          have hset := h.setPoller fun ch hch => poller.registered_update hp hch
          exact hset.pop hl (by simp) (by simp) fun _ hg => hg
      · cases hs
  | moved n =>
      simp only [lts, step] at hs
      split at hs
      · next l rest hl =>
          obtain ⟨e, he, rfl⟩ := Option.map_eq_some_iff.mp hs
          have hset := h.setLoop l (e := e) fun q hq => ?_
          · exact hset.pop hl (by simp) (by simp) fun _ hg => hg
          · unfold EventLoop.wakeup at he
            split at he
            · cases he
              exact hq
            · cases he
      · cases hs
  | free c =>
      simp only [lts, step] at hs
      split at hs
      · cases hs
        exact h.destroy _
      · cases hs

theorem tearing (h : (lts cfg poller).Reach s) : Tearing poller s := by
  refine h.inv (I := Tearing poller) (fun s hs => ?_) fun _ _ _ hI hs => tearing_step hs hI
  rw [show s = _ from hs]
  have hcode : ∀ t, ∀ f ∈ (started poller).stack t, ∀ p ∈ f.dest t,
      Removing p.1 p.2 (started poller).shared.app := by
    intro t f hf p hp
    rw [started_dest hf p hp]
    exact ⟨by simp, by simp⟩
  exact
    { running := ⟨sound_init started_init, base_started, hcode, fun _ _ hq => by cases hq⟩
      acceptor := by simp
      conns := fun c hc => absurd rfl hc
      records := by simp
      reset := fun ha => by cases ha
      called := fun hc => by rcases hc with hc | hc <;> cases hc }

end Step

/-- Every `stop()` and every `~TcpServer()` that returns, or gets past
`acceptor_`, has destroyed the acceptor's channel without the accept loop's thread
having removed it; and a connection that `connections_` held when it was destroyed
was not removed either. -/
theorem teardown_dangles {s : Torn P} (h : (lts cfg poller).Reach s) :
    (s.Down ∨ s.gone .acceptor = true → ¬ s.Safe) ∧
      ∀ d ∈ s.destroyed, ∀ c, d.channel = .conn c → s.inMap c = true → d.removed = false := by
  have hI := tearing h
  refine ⟨fun hdown hsafe => ?_, fun d hd c hc hmap => ?_⟩
  · obtain ⟨d, hd, hch⟩ : ∃ d ∈ s.destroyed, d.channel = .acceptor := by
      rcases hdown with hdown | hgone
      · have hacc : s.acceptor_ = false :=
          (hI.called hdown.1).resolve_right (by rw [hdown.2]; simp)
        exact (hI.reset hacc).resolve_left (by rw [hdown.2]; simp)
      · obtain ⟨d, hd, hch⟩ := List.any_eq_true.mp hgone
        exact ⟨d, hd, eq_of_beq hch⟩
    have hrem := (hI.records d hd).1 hch
    rw [(hsafe d hd).1] at hrem
    cases hrem
  · refine Bool.eq_false_iff.mpr fun hr => ?_
    exact ((hI.records d hd).2 c hc hr).2 (eq_of_beq hmap)

/-- The steps of a server nobody has called `stop` on. -/
def serverSteps {E : Type} (as : List (ThreadId × Choice Code (Io E))) : List (TearStep E) :=
  as.map fun a => .run a.1 a.2

instance (s : Torn P) : Decidable s.Down := by
  unfold Down
  infer_instance

/-- A server with one connection is destroyed, and `~TcpServer()` returns. -/
theorem teardown_dangles_connected : ∃ s : Torn (List ChannelId), s.Down ∧ ¬ s.Safe ∧
    ∃ d ∈ s.destroyed, d.channel = .conn 0 ∧ d.removed = false := by
  obtain ⟨s, hs, hp⟩ := Lts.exists_reach (lts echoConfig anyPoller)
    (serverSteps (connecting ++ [(.loop 0, .ret), (.loop 0, .go), (.loop 0, .go)]) ++
      [.destructor, .go, .free 0, .go, .go, .poller [], .go, .go, .go, .moved 8] ++
      serverSteps [(.loop 0, .poll (.poller []) 0), (.loop 0, .moved 8), (.loop 0, .go),
        (.loop 0, .go)] ++ [.go, .go])
    (fun s => decide (s.Down ∧ s.inMap 0 = true ∧
      s.destroyed.any (·.channel == .conn 0) = true)) rfl (by decide +kernel)
  obtain ⟨hdown, hmap, hany⟩ := of_decide_eq_true hp
  obtain ⟨d, hd, hch⟩ := List.any_eq_true.mp hany
  have hch : d.channel = .conn 0 := eq_of_beq hch
  exact ⟨s, hdown, (teardown_dangles hs).1 (.inl hdown), d, hd, hch,
    (teardown_dangles hs).2 d hd 0 hch hmap⟩

/-- `stop()` destroys the acceptor's channel while the accept loop dispatches
it. -/
theorem acceptor_destroyed_dispatched :
    ¬ ∀ s : Torn (List ChannelId), (lts echoConfig anyPoller).Reach s → s.Safe := by
  intro h
  obtain ⟨s, hs, hp⟩ := Lts.exists_reach (lts echoConfig anyPoller)
    (serverSteps (listening [] ++
      [(.loop 0, .poll (.poller [(.acceptor, { read := true })]) 0)]) ++
      [.stop, .go, .go, .poller [], .go, .go])
    (fun s => decide (s.destroyed = [⟨.acceptor, false, true⟩])) rfl (by decide +kernel)
  have hd := of_decide_eq_true hp
  have hsafe := h s hs ⟨.acceptor, false, true⟩ (by rw [hd]; exact List.mem_cons_self)
  cases hsafe.1

end Torn

end Muduox.Net
