import Muduox.Net.EpollPoller
import Muduox.Proofs.IocpContexts
import Muduox.Proofs.ServerBase

/-!
# No thread touches what is another loop's

A connection's members belong to the thread of its loop, a poller to the thread
of its loop, and the server's own members to the accept loop's; every thread may
read `loop_` and `name_`, which are const, and read and write `state_`, which is
atomic. That a step writes nothing else is a statement about the states before
and after it (`Keeps`). That it reads nothing else is one about two runs: from
two states that agree on what the thread may read (`Agree`), the same step leads
to the same frames, and to states that agree.

The proof goes through the layers: the pieces of a connection that any thread
may run, the pieces of the server, `poll`, and the frames of the reactor.
-/

namespace Muduox.Net

namespace TcpConnection

/-- `y` is `x` in what every thread may read. -/
structure Shares (x y : TcpConnection) : Prop where
  loop : y.loop_ = x.loop_
  name : y.name_ = x.name_
  state : y.state_ = x.state_

theorem Shares.refl (x : TcpConnection) : Shares x x := ⟨rfl, rfl, rfl⟩

/-- Away from the loop's thread a piece reads only that, and writes `state_`. -/
theorem exec_shares {E : Type} {x : TcpConnection} {c : ConnId} {t : ThreadId} {pl : Platform}
    {k : ConnCode} {io : Io E} {o : Outcome} (hk : k.anyThread = true) (ht : t ≠ .loop x.loop_)
    (h : x.exec c t pl k io = some o) :
    ∃ st, o.conn = { x with state_ := st } ∧ ∀ y, Shares x y →
      y.exec c t pl k io = some { o with conn := { y with state_ := st } } := by
  obtain ⟨x', evs, next⟩ := o
  have hr : x.Runs c t k io x' evs next := exec_runs h
  have hself : ∀ {y}, Shares x y → { y with state_ := x.state_ } = y := fun hy => by rw [← hy.state]
  cases hr with
  | sendHere _ hh | sendBufferHere _ hh => exact absurd hh ht
  | sendThere hs | sendBufferThere hs =>
      refine ⟨x.state_, rfl, fun y hy => ?_⟩
      rw [hself hy]
      simp [exec, send, sendBuffer, hy.state, hy.loop, hs, ht]
  | shutdown hs | noShutdown hs | forceClose hs | forceCloseElse hs | forceCloseDisconnecting hs
    | noForceClose hs | sendRefused hs | sendBufferRefused hs =>
      refine ⟨x.state_, rfl, fun y hy => ?_⟩
      rw [hself hy]
      simp [exec, send, sendBuffer, TcpConnection.shutdown, TcpConnection.forceClose,
        forceCloseIfDisconnecting, hy.state, hs]
  | storeShutdown | storeForceClose =>
      refine ⟨.kDisconnecting, rfl, fun y hy => ?_⟩
      rw [← hy.loop]
      rfl
  | _ => cases hk

end TcpConnection

/-! ## What the pollers look at -/

/-- `poll` looks only at the channels that are registered. -/
def LooksAtRegistered {P E : Type} (poller : Poller P E) : Prop :=
  ∀ p xs ys e, (∀ ch, poller.registered p ch → xs ch = ys ch) →
    poller.poll p xs e = poller.poll p ys e

/-- `epoll_wait` hands over what it has to say about each channel. -/
theorem epollPoller_looks : LooksAtRegistered epollPoller := fun _ _ _ _ _ => rfl

namespace IocpPoller

variable {K : Type} [DecidableEq K] {p : IocpPoller K} {xs ys : K → Channel} {e : IocpChoice K}

theorem retryPost_congr {k : K} {i : Nat} (h : xs k = ys k) :
    p.retryPost xs e k i = p.retryPost ys e k i := by
  unfold retryPost
  rw [h]

theorem retryPosts_congr (hp : p.Sound) (h : ∀ k, p.context_ k ≠ none → xs k = ys k) :
    p.retryPosts xs e = p.retryPosts ys e := by
  have hfold : ∀ (l : List K), (∀ k ∈ l, xs k = ys k) → ∀ q : IocpPoller K,
      l.foldlM (fun p k => (p.context_ k).map (p.retryPost xs e k)) q =
        l.foldlM (fun p k => (p.context_ k).map (p.retryPost ys e k)) q := by
    intro l
    induction l with
    | nil => exact fun _ _ => rfl
    | cons k l ih =>
        intro hl q
        have hk : q.retryPost xs e k = q.retryPost ys e k :=
          funext fun i => retryPost_congr (hl k List.mem_cons_self)
        rw [List.foldlM_cons, List.foldlM_cons, hk]
        exact congrArg _ (funext fun q' => ih (fun j hj => hl j (List.mem_cons_of_mem _ hj)) q')
  exact hfold _ (fun k hk => h k (hp.posts k hk)) p

/-- A packet is of a channel that was registered when `poll` began. -/
theorem complete_congr (hp : p.Sound) (h : ∀ k, p.context_ k ≠ none → xs k = ys k)
    {r : IocpRound K} (hr : IocpRound.Found p r) (q : Packet) :
    IocpRound.complete xs r q = IocpRound.complete ys r q := by
  simp only [IocpRound.complete]
  cases hch : (r.poller.contexts q.ctx).channel with
  | none => rfl
  | some k =>
      have hk : p.context_ k ≠ none := by
        rw [(hp.context k q.ctx).mpr ((hr.same.channel q.ctx).symm.trans hch)]
        simp
      dsimp only
      rw [show r.completeRead xs q k = r.completeRead ys q k by
          simp only [IocpRound.completeRead, h k hk],
        show r.completeWrite xs q k = r.completeWrite ys q k by
          simp only [IocpRound.completeWrite, h k hk]]

theorem dequeue_congr (hp : p.Sound) (h : ∀ k, p.context_ k ≠ none → xs k = ys k) :
    p.dequeue xs e = p.dequeue ys e := by
  have hfold : ∀ (packets : List Packet) (r : IocpRound K), IocpRound.Found p r →
      packets.foldlM (IocpRound.complete xs) r = packets.foldlM (IocpRound.complete ys) r := by
    intro packets
    induction packets with
    | nil => exact fun _ _ => rfl
    | cons q packets ih =>
        intro r hr
        rw [List.foldlM_cons, List.foldlM_cons, complete_congr hp h hr]
        cases hq : IocpRound.complete ys r q with
        | none => rfl
        | some r' => exact ih r' (IocpRound.complete_found hr hq)
  unfold dequeue
  rw [hfold e.packets _ (.start hp)]
  split
  · rfl
  · cases e.packets.foldlM (IocpRound.complete ys) { poller := p } with
    | none => rfl
    | some r =>
        dsimp only
        split
        · next hsel =>
            have hfilter : e.selected.filter (fun k => (xs k).isReading && decide (k ∉ r.found)) =
                e.selected.filter fun k => (ys k).isReading && decide (k ∉ r.found) :=
              List.filter_congr fun k hk => by
                rw [h k (hp.select k (hsel.2.2 k hk))]
            rw [IocpRound.active, hfilter]
            rfl
        · rfl

theorem poll_congr (hp : p.Sound) (h : ∀ k, p.context_ k ≠ none → xs k = ys k) :
    p.poll xs e = p.poll ys e := by
  obtain ⟨q, hq, hsound, hretried⟩ := retryPosts_retried hp ys e
  unfold IocpPoller.poll
  rw [retryPosts_congr hp h, hq, Option.bind_some, Option.bind_some]
  exact dequeue_congr hsound fun k hk => h k (hretried.same.context_ ▸ hk)

end IocpPoller

theorem iocpPoller_looks : LooksAtRegistered iocpPoller := by
  intro p xs ys e h
  have heq := IocpPoller.poll_congr (e := e) p.2 h
  simp only [iocpPoller]
  split <;> split
  · next hx _ hy =>
      rw [heq, hy] at hx
      cases hx
      rfl
  · next hx hy =>
      rw [heq, hy] at hx
      cases hx
  · next hx _ hy =>
      rw [heq, hy] at hx
      cases hx
  · rfl

namespace TcpServer

open Threads Reactor TcpConnection

variable {P E : Type} {cfg : ServerConfig} {poller : Poller P E}

/-- `y` is `s` in what thread `t` may read, and in what is only there to be
talked about. -/
structure Agree (t : ThreadId) (s y : TcpServer P) : Prop where
  shares : ∀ c, Shares (s.conn c) (y.conn c)
  own : ∀ c, t = .loop (s.conn c).loop_ → y.conn c = s.conn c
  poller : ∀ l, t = .loop l → y.poller l = s.poller l
  accept : t = .loop acceptLoop → y.acceptor_ = s.acceptor_ ∧ y.nextConnId_ = s.nextConnId_ ∧
    y.connections_ = s.connections_ ∧ y.next_ = s.next_
  accepted : y.accepted = s.accepted
  log : y.log = s.log

/-- `s'` is `s` but for what thread `t` may write. -/
structure Keeps (t : ThreadId) (s s' : TcpServer P) : Prop where
  conn : ∀ c, c < s.accepted → t ≠ .loop (s.conn c).loop_ →
    s'.conn c = { s.conn c with state_ := (s'.conn c).state_ }
  poller : ∀ l, t ≠ .loop l → s'.poller l = s.poller l
  accept : t ≠ .loop acceptLoop → s'.acceptor_ = s.acceptor_ ∧ s'.nextConnId_ = s.nextConnId_ ∧
    s'.connections_ = s.connections_ ∧ s'.next_ = s.next_ ∧ s'.accepted = s.accepted

variable {t : ThreadId} {s s' y : TcpServer P} {a : Code} {io : Io E} {next : List (Frame Code)}

theorem conn_same {c : ConnId} (h : s'.conn c = s.conn c) :
    s'.conn c = { s.conn c with state_ := (s'.conn c).state_ } := by
  rw [h]

theorem Agree.refl (t : ThreadId) (s : TcpServer P) : Agree t s s :=
  ⟨fun _ => .refl _, fun _ _ => rfl, fun _ _ => rfl, fun _ => ⟨rfl, rfl, rfl, rfl⟩, rfl, rfl⟩

theorem Keeps.refl (t : ThreadId) (s : TcpServer P) : Keeps t s s :=
  ⟨fun _ _ _ => rfl, fun _ _ => rfl, fun _ => ⟨rfl, rfl, rfl, rfl, rfl⟩⟩

theorem Keeps.trans {s₁ s₂ s₃ : TcpServer P} (h₁ : Keeps t s₁ s₂) (h₂ : Keeps t s₂ s₃)
    (hacc : s₁.accepted ≤ s₂.accepted) : Keeps t s₁ s₃ := by
  refine ⟨fun c hc ht => ?_, fun l hl => (h₂.poller l hl).trans (h₁.poller l hl), fun hne => ?_⟩
  · have hfirst := h₁.conn c hc ht
    have hloop : (s₂.conn c).loop_ = (s₁.conn c).loop_ := by rw [hfirst]
    rw [h₂.conn c (Nat.lt_of_lt_of_le hc hacc) (hloop ▸ ht), hfirst]
  · obtain ⟨ha, hi, hm, hn, hk⟩ := h₁.accept hne
    obtain ⟨ha', hi', hm', hn', hk'⟩ := h₂.accept hne
    exact ⟨ha'.trans ha, hi'.trans hi, hm'.trans hm, hn'.trans hn, hk'.trans hk⟩

theorem Agree.ownerLoop (h : Agree t s y) (ch : ChannelId) : y.ownerLoop ch = s.ownerLoop ch := by
  cases ch with
  | acceptor => rfl
  | conn c => exact (h.shares c).loop

/-- A channel is read by its loop's thread. -/
theorem Agree.channel (h : Agree t s y) {ch : ChannelId} (hch : t = .loop (s.ownerLoop ch)) :
    y.channel ch = s.channel ch := by
  cases ch with
  | acceptor => exact congrArg Acceptor.acceptChannel_ (h.accept hch).1
  | conn c => exact congrArg TcpConnection.channel_ (h.own c hch)

theorem Agree.published (h : Agree t s y) (c : ConnId) : y.published c = s.published c := by
  rw [TcpServer.published, h.accepted, (h.shares c).state]
  rfl

theorem Agree.api (h : Agree t s y) (a : Code) : api t y a = api t s a := by
  unfold TcpServer.api
  split <;> simp only [h.published, (h.shares _).loop]

theorem Agree.bound (h : Agree t s y) (ha : Bound t a s) : Bound t a y := by
  have hest : ∀ {c}, Established s c → Established y c := fun hc =>
    ⟨h.accepted ▸ hc.1, h.log ▸ hc.2⟩
  unfold Bound at ha ⊢
  split at ha
  · exact ⟨h.accepted ▸ ha.1, fun hk => hest (ha.2.1 hk), by rw [(h.shares _).loop]; exact ha.2.2⟩
  · exact ⟨by rw [h.ownerLoop]; exact ha.1, fun c hc => hest (ha.2 c hc)⟩
  · exact ⟨by rw [h.ownerLoop]; exact ha.1, fun c hc => hest (ha.2 c hc)⟩
  · exact ⟨by rw [h.ownerLoop]; exact ha.1, fun c hc => hest (ha.2 c hc)⟩
  · exact ha
  · exact ha
  · exact ha
  · exact hest ha
  · exact ⟨hest ha.1, ha.2⟩

/-! ## Pieces of code -/

/-- A connection after one of its pieces, in the one state and in the other. -/
theorem Agree.setConn (h : Agree t s y) {c : ConnId} {k : ConnCode} {o o' : Outcome}
    (hs : Shares o.conn o'.conn) (hown : t = .loop o.conn.loop_ → o'.conn = o.conn)
    (he : o'.events = o.events) : Agree t (s.setConn c k o) (y.setConn c k o') := by
  refine ⟨fun d => ?_, fun d hd => ?_, h.poller, h.accept, h.accepted, ?_⟩
  · by_cases hdc : d = c
    · rw [hdc, setConn_conn_self, setConn_conn_self]
      exact hs
    · rw [setConn_conn_of_ne _ _ _ _ hdc, setConn_conn_of_ne _ _ _ _ hdc]
      exact h.shares d
  · by_cases hdc : d = c
    · rw [hdc, setConn_conn_self] at hd ⊢
      rw [setConn_conn_self]
      exact hown hd
    · rw [setConn_conn_of_ne _ _ _ _ hdc] at hd ⊢
      rw [setConn_conn_of_ne _ _ _ _ hdc]
      exact h.own d hd
  · show Function.update y.log c _ = Function.update s.log c _
    rw [h.log, he]

theorem Agree.setChannel (h : Agree t s y) {ch : ChannelId} (hch : t = .loop (s.ownerLoop ch))
    (x : Channel) : Agree t (s.setChannel ch x) (y.setChannel ch x) := by
  cases ch with
  | acceptor =>
      obtain ⟨hacc, hrest⟩ := h.accept hch
      refine ⟨h.shares, h.own, h.poller, fun ht => ⟨?_, hrest⟩, h.accepted, h.log⟩
      show { y.acceptor_ with acceptChannel_ := x } = { s.acceptor_ with acceptChannel_ := x }
      rw [hacc]
  | conn c =>
      have hc := h.own c hch
      have heq : ∀ d, d ≠ c → (y.setChannel (.conn c) x).conn d = y.conn d ∧
          (s.setChannel (.conn c) x).conn d = s.conn d := fun d hd =>
        ⟨Function.update_of_ne hd .., Function.update_of_ne hd ..⟩
      have hself : (y.setChannel (.conn c) x).conn c = (s.setChannel (.conn c) x).conn c := by
        show Function.update _ c _ c = Function.update _ c _ c
        rw [Function.update_self, Function.update_self, hc]
      refine ⟨fun d => ?_, fun d hd => ?_, h.poller, h.accept, h.accepted, h.log⟩
      · by_cases hdc : d = c
        · rw [hdc, hself]
          exact .refl _
        · rw [(heq d hdc).1, (heq d hdc).2]
          exact h.shares d
      · by_cases hdc : d = c
        · rw [hdc, hself]
        · rw [(heq d hdc).2] at hd ⊢
          rw [(heq d hdc).1]
          exact h.own d hd

theorem Agree.setPoller (h : Agree t s y) (l : LoopId) (p : P) :
    Agree t (s.setPoller l p) (y.setPoller l p) := by
  refine ⟨h.shares, h.own, fun k hk => ?_, h.accept, h.accepted, h.log⟩
  by_cases hkl : k = l
  · rw [hkl, setPoller_poller_self, setPoller_poller_self]
  · rw [setPoller_poller_of_ne _ _ _ hkl, setPoller_poller_of_ne _ _ _ hkl]
    exact h.poller k hk

/-- A piece of a connection does the same in both states. -/
theorem conn_agree (h : Agree t s y) {c : ConnId} {k : ConnCode} (ha : Bound t (.conn c k) s)
    (hx : exec cfg poller t (.conn c k) io s = some (s', next)) :
    ∃ y', exec cfg poller t (.conn c k) io y = some (y', next) ∧ Agree t s' y' := by
  obtain ⟨o, ho, he⟩ := Option.map_eq_some_iff.mp hx
  cases he
  by_cases ht : t = .loop (s.conn c).loop_
  · have hown := h.own c ht
    refine ⟨y.setConn c k o, ?_, h.setConn (.refl _) (fun _ => rfl) rfl⟩
    show ((y.conn c).exec c t cfg.platform k io).map _ = _
    rw [hown, ho]
    rfl
  · have hk : k.anyThread = true := by
      cases hany : k.anyThread with
      | true => rfl
      | false => exact absurd (ha.2.2 hany) ht
    obtain ⟨st, hst, hother⟩ := exec_shares hk ht ho
    have hy := hother _ (h.shares c)
    refine ⟨y.setConn c k { o with conn := { y.conn c with state_ := st } }, ?_,
      h.setConn ?_ (fun hl => ?_) rfl⟩
    · show ((y.conn c).exec c t cfg.platform k io).map _ = _
      rw [hy]
      rfl
    · rw [hst]
      exact ⟨(h.shares c).loop, (h.shares c).name, rfl⟩
    · rw [hst] at hl
      exact absurd hl ht

theorem newConnection_agree (h : Agree t s y) {fd : Int} (ht : t = .loop acceptLoop) :
    ∃ y', exec (E := E) cfg poller t (.newConnection fd) .none y =
        some (y', (newConnection cfg s fd).2) ∧
      Agree t (newConnection cfg s fd).1 y' := by
  obtain ⟨hacc, hid, hmap, hnext⟩ := h.accept ht
  have hloop : getNextLoop cfg y = getNextLoop cfg s := by
    unfold getNextLoop
    rw [hnext]
  have heq : newConnection cfg y fd = ({ (newConnection cfg s fd).1 with
      acceptor_ := y.acceptor_
      conn := Function.update y.conn s.accepted ((newConnection cfg s fd).1.conn s.accepted)
      poller := y.poller
      log := y.log }, (newConnection cfg s fd).2) := by
    simp only [newConnection, hloop, hid, hmap, h.accepted, Function.update_self]
  refine ⟨(newConnection cfg y fd).1, ?_, ?_⟩
  · show (if t = .loop acceptLoop then some (newConnection cfg y fd) else none) = _
    rw [if_pos ht, heq]
  · have hne : ∀ {c}, c ≠ s.accepted → (newConnection cfg s fd).1.conn c = s.conn c := fun hc =>
      Function.update_of_ne hc ..
    rw [heq]
    refine ⟨fun c => ?_, fun c hc => ?_, h.poller, fun _ => ⟨hacc, rfl, rfl, rfl⟩, rfl, h.log⟩
    · dsimp only
      by_cases hca : c = s.accepted
      · rw [hca, Function.update_self]
        exact .refl _
      · rw [Function.update_of_ne hca, hne hca]
        exact h.shares c
    · dsimp only
      by_cases hca : c = s.accepted
      · rw [hca, Function.update_self]
      · rw [hne hca] at hc ⊢
        rw [Function.update_of_ne hca]
        exact h.own c hc

theorem removeConnectionInLoop_agree (h : Agree t s y) {c : ConnId} (ht : t = .loop acceptLoop) :
    ∃ y', exec (E := E) cfg poller t (.removeConnectionInLoop c) .none y =
        some (y', (s.removeConnectionInLoop c).2) ∧ Agree t (s.removeConnectionInLoop c).1 y' := by
  obtain ⟨hacc, hid, hmap, hnext⟩ := h.accept ht
  refine ⟨(y.removeConnectionInLoop c).1, ?_, h.shares, h.own, h.poller, fun _ =>
    ⟨hacc, hid, ?_, hnext⟩, h.accepted, ?_⟩
  · show (if t = .loop acceptLoop then some (y.removeConnectionInLoop c) else none) = _
    rw [if_pos ht]
    simp only [TcpServer.removeConnectionInLoop, hmap, (h.shares c).name, (h.shares c).loop]
  · show Function.update y.connections_ (y.conn c).name_ none =
        Function.update s.connections_ _ none
    rw [hmap, (h.shares c).name]
  · show Function.update y.log c _ = Function.update s.log c _
    rw [h.log, hmap, (h.shares c).name]

/-- The same piece of code does the same in both states. -/
theorem exec_agree (h : Agree t s y) (ha : Bound t a s)
    (hx : exec cfg poller t a io s = some (s', next)) :
    ∃ y', exec cfg poller t a io y = some (y', next) ∧ Agree t s' y' := by
  cases exec_runs hx with
  | conn => exact conn_agree h ha hx
  | @handleEvent ch =>
      have hch := h.channel ha.1
      refine ⟨(y.handleEvent ch).1, ?_, ?_⟩
      · show some (y.handleEvent ch) = _
        simp only [TcpServer.handleEvent, hch]
      · show Agree t (s.setChannel ch _) (y.setChannel ch _)
        rw [hch]
        exact h.setChannel ha.1 _
  | @update ch e p hp =>
      refine ⟨y.setPoller (s.ownerLoop ch) p, ?_, h.setPoller _ _⟩
      show (poller.updateChannel (y.poller (y.ownerLoop ch)) ch (y.channel ch) e).map _ = _
      rw [h.ownerLoop, h.poller _ ha.1, h.channel ha.1, hp]
      rfl
  | @remove ch p hp =>
      refine ⟨y.setPoller (s.ownerLoop ch) p, ?_, h.setPoller _ _⟩
      show (poller.removeChannel (y.poller (y.ownerLoop ch)) ch (y.channel ch)).map _ = _
      rw [h.ownerLoop, h.poller _ ha.1, h.channel ha.1, hp]
      rfl
  | listen ht =>
      obtain ⟨hacc, hrest⟩ := h.accept ht
      refine ⟨y.listen.1, ?_, h.shares, h.own, h.poller, fun _ => ⟨?_, hrest⟩, h.accepted, h.log⟩
      · exact if_pos ht
      · show (⟨true, y.acceptor_.acceptChannel_.enableReading⟩ : Acceptor) = _
        rw [hacc]
        rfl
  | acceptFailed => exact ⟨y, rfl, h⟩
  | accept => exact ⟨y, rfl, h⟩
  | newConnection ht => exact newConnection_agree h ht
  | removeConnection => exact ⟨y, rfl, h⟩
  | removeConnectionInLoop ht => exact removeConnectionInLoop_agree h ht

theorem exec_keeps (ha : Bound t a s) (hx : exec cfg poller t a io s = some (s', next)) :
    Keeps t s s' := by
  cases exec_runs hx with
  | @conn c k _ x evs _ hr =>
      refine ⟨fun d _ hd => ?_, fun _ _ => rfl, fun _ => ⟨rfl, rfl, rfl, rfl, rfl⟩⟩
      by_cases hdc : d = c
      · subst hdc
        obtain ⟨o, ho, he⟩ := Option.map_eq_some_iff.mp hx
        have hk : k.anyThread = true := by
          cases hany : k.anyThread with
          | true => rfl
          | false => exact absurd (ha.2.2 hany) hd
        obtain ⟨st, hst, -⟩ := exec_shares hk hd ho
        have hself : (s.setConn d k ⟨x, evs, next⟩).conn d = { s.conn d with state_ := st } := by
          have hs' : s.setConn d k o = s.setConn d k ⟨x, evs, next⟩ := (Prod.ext_iff.mp he).1
          rw [← hs', setConn_conn_self, hst]
        rw [hself]
      · exact conn_same (setConn_conn_of_ne _ _ _ _ hdc)
  | @handleEvent ch =>
      obtain ⟨ht, -⟩ := ha
      cases ch with
      | acceptor => exact ⟨fun _ _ _ => rfl, fun _ _ => rfl, fun hne => absurd ht hne⟩
      | conn c =>
          refine ⟨fun d _ hd => ?_, fun _ _ => rfl, fun _ => ⟨rfl, rfl, rfl, rfl, rfl⟩⟩
          have hdc : d ≠ c := fun he => hd (he ▸ ht)
          exact conn_same (Function.update_of_ne hdc ..)
  | @update ch _ p _ | @remove ch p _ =>
      refine ⟨fun _ _ _ => rfl, fun l hl => ?_, fun _ => ⟨rfl, rfl, rfl, rfl, rfl⟩⟩
      exact setPoller_poller_of_ne _ _ _ fun he => hl (he ▸ ha.1)
  | listen ht => exact ⟨fun _ _ _ => rfl, fun _ _ => rfl, fun hne => absurd ht hne⟩
  | acceptFailed | accept | removeConnection => exact .refl _ _
  | newConnection ht =>
      refine ⟨fun c hc _ => ?_, fun _ _ => rfl, fun hne => absurd ht hne⟩
      exact conn_same (Function.update_of_ne (Nat.ne_of_lt hc) ..)
  | removeConnectionInLoop ht =>
      exact ⟨fun _ _ _ => rfl, fun _ _ => rfl, fun hne => absurd ht hne⟩

/-! ## `poll` -/

theorem setActive_cons (s : TcpServer P) (ch : ChannelId) (r : Events)
    (active : List (ChannelId × Events)) :
    s.setActive ((ch, r) :: active) =
      (s.setChannel ch ((s.channel ch).setRevents r)).setActive active := rfl

theorem setActive_agree (active : List (ChannelId × Events)) :
    ∀ {s y : TcpServer P}, Agree t s y → (∀ a ∈ active, t = .loop (s.ownerLoop a.1)) →
      Agree t (s.setActive active) (y.setActive active) := by
  induction active with
  | nil => exact fun h _ => h
  | cons a active ih =>
      intro s y h hown
      obtain ⟨ch, r⟩ := a
      have hch : t = .loop (s.ownerLoop ch) := hown _ List.mem_cons_self
      rw [setActive_cons, setActive_cons, h.channel hch]
      refine ih (h.setChannel hch _) fun b hb => ?_
      rw [(setChannel_revents s ch r).ownerLoop]
      exact hown b (List.mem_cons_of_mem _ hb)

/-- What is not active stays as it is. -/
theorem setActive_conn_of_ne {c : ConnId} (active : List (ChannelId × Events)) :
    ∀ {s : TcpServer P}, (∀ a ∈ active, a.1 ≠ .conn c) →
      (s.setActive active).conn c = s.conn c := by
  induction active with
  | nil => exact fun _ => rfl
  | cons a active ih =>
      intro s hne
      obtain ⟨ch, r⟩ := a
      have hch : ch ≠ .conn c := hne _ List.mem_cons_self
      rw [setActive_cons, ih fun b hb => hne b (List.mem_cons_of_mem _ hb)]
      cases ch with
      | acceptor => rfl
      | conn d => exact Function.update_of_ne (fun he => hch (by rw [he])) ..

theorem setActive_acceptor (active : List (ChannelId × Events)) :
    ∀ {s : TcpServer P}, (∀ a ∈ active, a.1 ≠ .acceptor) →
      (s.setActive active).acceptor_ = s.acceptor_ := by
  induction active with
  | nil => exact fun _ => rfl
  | cons a active ih =>
      intro s hne
      obtain ⟨ch, r⟩ := a
      rw [setActive_cons, ih fun b hb => hne b (List.mem_cons_of_mem _ hb)]
      cases ch with
      | acceptor => exact absurd rfl (hne _ List.mem_cons_self)
      | conn d => rfl

theorem setActive_keeps {active : List (ChannelId × Events)}
    (h : ∀ a ∈ active, t = .loop (s.ownerLoop a.1)) : Keeps t s (s.setActive active) := by
  have hrest := (setActive_revents active s).rest
  refine ⟨fun c _ hc => conn_same (setActive_conn_of_ne active fun a ha he => hc ?_), fun l _ => ?_,
    fun hne => ⟨setActive_acceptor active fun a ha he => hne ?_, by rw [hrest], by rw [hrest],
      by rw [hrest], by rw [hrest]⟩⟩
  · have := h a ha
    rwa [he] at this
  · exact congrFun (setActive_revents active s).pollers l
  · have := h a ha
    rwa [he] at this

theorem setPoller_keeps {l : LoopId} (ht : t = .loop l) (p : P) : Keeps t s (s.setPoller l p) :=
  ⟨fun _ _ _ => rfl, fun _ hk => setPoller_poller_of_ne _ _ _ fun he => hk (he ▸ ht),
    fun _ => ⟨rfl, rfl, rfl, rfl, rfl⟩⟩

theorem poll_agree (hlocal : LooksAtRegistered poller) (hs : Base poller s) {l : LoopId}
    (ht : t = .loop l) {r : TcpServer P × Option (List Code)}
    (hp : poll poller l io s = some r) (h : Agree t s y) :
    ∃ y', Agree t r.1 y' ∧ Keeps t y y' ∧ poll poller l io y = some (y', r.2) := by
  unfold TcpServer.poll at hp
  split at hp
  · next e =>
      obtain ⟨q, hq, rfl⟩ := Option.map_eq_some_iff.mp hp
      have hown : ∀ ch, poller.registered (s.poller l) ch → t = .loop (s.ownerLoop ch) :=
        fun ch hch => by rw [ht, (hs.registered l ch hch).1]
      have hq' : poller.poll (y.poller l) y.channel e = some q := by
        rw [h.poller l ht, ← hq]
        exact hlocal _ _ _ _ fun ch hch => h.channel (hown ch hch)
      have hpoll : poll poller l (.poller e) y = some _ :=
        congrArg (Option.map _) hq'
      obtain ⟨p, active⟩ := q
      have hset : Agree t (s.setPoller l p) (y.setPoller l p) := h.setPoller l p
      cases active with
      | none => exact ⟨y.setPoller l p, hset, setPoller_keeps ht p, hpoll⟩
      | some active =>
          have hactive : ∀ a ∈ active, t = .loop ((s.setPoller l p).ownerLoop a.1) := by
            intro a ha
            have := hown a.1 (poller.poll_registered hq ha)
            cases hch : a.1 <;> rwa [hch] at this
          refine ⟨_, setActive_agree active hset hactive, (setPoller_keeps ht p).trans
            (setActive_keeps fun a ha => ?_) (Nat.le_refl _), hpoll⟩
          rw [hset.ownerLoop]
          exact hactive a ha
  · cases hp

/-! ## Frames, and runs -/

/-- A frame of the loop's own reads the application's state only in asking what
user code may call, and leaves it as it is. -/
theorem exec_control {A Ch S : Type} {Q : App A Ch S} {f : Frame A} {ch : Choice A Ch}
    {r : Reactor A S} {y : S} (hcode : ∀ a, f ≠ .code a) (hpoll : ∀ l, f ≠ .poll l)
    (hapi : ∀ a, Q.api t y a = Q.api t r.app a) :
    Reactor.exec Q t f ch { r with app := y } =
      (Reactor.exec Q t f ch r).map fun q => ({ q.1 with app := y }, q.2) := by
  cases f with
  | code a => exact absurd rfl (hcode a)
  | poll l => exact absurd rfl (hpoll l)
  | user =>
      cases ch with
      | call a =>
          simp only [Reactor.exec, hapi]
          cases Q.api t r.app a <;> rfl
      | _ => rfl
  | wakeup l =>
      cases ch with
      | moved n =>
          simp only [Reactor.exec]
          cases (r.loop l).wakeup n <;> rfl
      | _ => rfl
  | handleWakeup l =>
      cases ch with
      | moved n =>
          simp only [Reactor.exec]
          cases (r.loop l).handleWakeup n <;> rfl
      | _ => rfl
  | loop l =>
      cases ch with
      | go =>
          simp only [Reactor.exec]
          split <;> rfl
      | _ => rfl
  | whileNotQuit l =>
      cases ch with
      | go =>
          simp only [Reactor.exec]
          split <;> rfl
      | _ => rfl
  | _ => cases ch <;> rfl

theorem frame_agree (hlocal : LooksAtRegistered poller) {x r : Reactor Code (TcpServer P)}
    {f : Frame Code} {ch : Choice Code (Io E)} (hs : Base poller r.app)
    (hcode : ∀ a, f = .code a → Bound t a r.app) (hpoll : ∀ l, f = .poll l → t = .loop l)
    (hx : Reactor.exec (app cfg poller) t f ch r = some (x, next)) (h : Agree t r.app y) :
    ∃ y', Agree t x.app y' ∧ Keeps t y y' ∧
      Reactor.exec (app cfg poller) t f ch { r with app := y } =
        some ({ x with app := y' }, next) := by
  cases Reactor.exec_runs hx with
  | code hrun =>
      have ha := hcode _ rfl
      obtain ⟨y', hy', hagree⟩ := exec_agree h ha hrun
      refine ⟨y', hagree, exec_keeps (h.bound ha) hy', ?_⟩
      change TcpServer.exec cfg poller t _ _ y = _ at hy'
      simp only [Reactor.exec, app, hy']
  | polling hrun | polled hrun =>
      obtain ⟨y', hagree, hkeeps, hp⟩ := poll_agree hlocal hs (hpoll _ rfl) hrun h
      refine ⟨y', hagree, hkeeps, ?_⟩
      simp only [Reactor.exec, app, hp]
  | _ =>
      refine ⟨y, h, .refl _ _, ?_⟩
      rw [exec_control (by simp) (by simp) h.api, hx]
      rfl

/-- No step writes what belongs to another loop's thread, nor does it depend on
it: with that changed in any way, the step does the same, and leaves the change
as it is. -/
theorem threads_confined (hlocal : LooksAtRegistered poller) {s s' : State P} {t : ThreadId}
    {ch : Choice Code (Io E)} (h : (lts cfg poller).Reach s)
    (hs : (lts cfg poller).step s (t, ch) = some s') :
    Keeps t s.shared.app s'.shared.app ∧
      ∀ y, Agree t s.shared.app y → ∃ y', Agree t s'.shared.app y' ∧ Keeps t y y' ∧
        (lts cfg poller).step { s with shared := { s.shared with app := y } } (t, ch) =
          some { s' with shared := { s'.shared with app := y' } } := by
  obtain ⟨f, rest, x, next, ht, hx, rfl⟩ := Code.step_eq_some.mp hs
  have hagree := fun {y} => frame_agree (y := y) hlocal (base h).app
    (fun a hf => (base h).all.stack t f (by rw [ht]; exact List.mem_cons_self) (t, a)
      (by rw [hf]; rfl)) (fun l hf => (sound h).poll_thread (hf ▸ ht)) hx
  refine ⟨?_, fun y hy => ?_⟩
  · obtain ⟨y', -, hkeeps, hx'⟩ := hagree (.refl t _)
    have hxy : some (x, next) = some ({ x with app := y' }, next) := hx.symm.trans hx'
    rw [Option.some.injEq, Prod.mk.injEq] at hxy
    have happ : x.app = y' := congrArg Reactor.app hxy.1
    show Keeps t s.shared.app x.app
    rw [happ]
    exact hkeeps
  · obtain ⟨y', hy', hkeeps, hx'⟩ := hagree hy
    exact ⟨y', hy', hkeeps, Code.step_eq_some.mpr ⟨f, rest, _, next, ht, hx', rfl⟩⟩

/-- Another thread is about to store `kDisconnecting`. -/
theorem threads_confined_shutdown : ∃ s s' : State (List ChannelId),
    (s.shared.app.conn 0).state_ = .kConnected ∧
      (s'.shared.app.conn 0).state_ = .kDisconnecting ∧
      Keeps (.user 1) s.shared.app s'.shared.app := by
  obtain ⟨s, hs, hp⟩ := Lts.exists_reach (lts echoConfig anyPoller)
    (connecting ++ [(.user 1, .call (.conn 0 .shutdown)), (.user 1, .app .none)])
    (fun s => ((lts echoConfig anyPoller).step s (.user 1, .app .none)).any
      fun s' : State (List ChannelId) =>
      decide ((s.shared.app.conn 0).state_ = .kConnected ∧
        (s'.shared.app.conn 0).state_ = .kDisconnecting)) rfl (by decide)
  obtain ⟨s', hs', hp⟩ := (Option.any_eq_true ..).mp hp
  obtain ⟨h1, h2⟩ := of_decide_eq_true hp
  exact ⟨s, s', h1, h2, (threads_confined (fun _ _ _ _ _ => rfl) hs hs').1⟩

end TcpServer

end Muduox.Net
