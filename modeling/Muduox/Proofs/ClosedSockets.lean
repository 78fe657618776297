import Muduox.Proofs.DispatchOrder
import Muduox.Proofs.QueuedFunctors

/-!
# A closed socket is left alone

`connectDestroyed` takes the channel out of the poller and closes the
descriptor, a number that the kernel may give to the next connection. A functor
runs it, and below a functor on the stack there are only the batch's other
functors and the loop itself (`Batched`): no handler of the connection is
waiting, and no call of the poller. So what is left that uses the descriptor are
the three steps of `connectDestroyed`, one after the other (`Destroying`). After
them nothing uses it again, for the poller, which was told, reports nothing, and
code that sends finds the connection closed.
-/

namespace Muduox.Net

/-- Code that uses the descriptor of connection `c`, or was told to by its
poller. -/
def Code.uses (c : ConnId) : Code → Bool
  | .conn d .handleRead | .conn d .handleWrite | .handleEvent (.conn d) | .update (.conn d)
  | .remove (.conn d) => d == c
  | _ => false

/-- A thread has code left to run that uses the descriptor of connection `c`. -/
def Frame.uses (c : ConnId) (f : Frame Code) : Bool := f.payload.any (Code.uses c)

/-- What happens on a socket: it is read or written, a message is taken to be
sent, or its writing end is shut down. -/
def Event.onSocket : Event → Bool
  | .ran .handleRead | .ran .handleWrite | .accepted _ | .sent _ | .shutdownWrite _ => true
  | _ => false

namespace TcpServer

open Threads Reactor TcpConnection

variable {P E : Type} {cfg : ServerConfig} {poller : Poller P E}
  {C : State P → ThreadId × Choice Code (Io E) → Prop} {s s' : State P} {c : ConnId}
  {t : ThreadId} {ch : Choice Code (Io E)}

/-! ## Below a functor -/

/-- Below deferred code there are other functors, and the loop. -/
def Batched (g b : Frame Code) : Prop := deferred g = true → isFunctor b = true ∨ turns b = true

theorem pairwise_batched {l : List (Frame Code)} (h : ∀ g ∈ l, deferred g = false) :
    l.Pairwise Batched := by
  refine List.pairwise_of_forall_mem_list fun g hg _ _ hd => ?_
  rw [h g hg] at hd
  cases hd

/-- Deferred code comes from a functor, and functors from `doPendingFunctors`. -/
theorem next_deferred {f : Frame Code} {r x : Reactor Code (TcpServer P)}
    {next : List (Frame Code)} (hr : Reactor.Runs (app cfg poller) t r f ch x next)
    (hwf : Wrapped f) {g : Frame Code} (hg : g ∈ next) (hd : deferred g = true) :
    (∃ l, f = .doPendingFunctors l ∧ isFunctor g = true) ∨ ∃ l cb, f = .functor l cb := by
  cases hr with
  | doPendingFunctors =>
      obtain ⟨_, _, rfl⟩ := List.mem_map.mp hg
      exact .inl ⟨_, rfl, rfl⟩
  | functor => exact .inr ⟨_, _, rfl⟩
  | @call a ha =>
      rcases List.mem_cons.mp hg with rfl | hg
      · obtain ⟨d, rfl⟩ : ∃ d, a = .conn d .connectDestroyed := by
          unfold deferred at hd
          split at hd
          · next he => cases he
          · next d he => exact ⟨d, Frame.code.inj he⟩
          · cases hd
        cases ha
      · rw [List.mem_singleton.mp hg] at hd
        cases hd
  | code hx =>
      rw [runs_deferred (exec_runs hx) g hg] at hd
      cases hd
  | runHere =>
      rw [List.mem_singleton.mp hg] at hd
      rcases hwf with rfl | ⟨a, rfl, _, hne⟩
      · cases hd
      · unfold deferred at hd
        split at hd
        · next he => cases he
        · next d he => exact absurd (Frame.code.inj he) (hne d)
        · cases hd
  | polled hx =>
      rcases mem_iteration hg with ⟨b, hb, rfl⟩ | rfl | rfl | rfl
      · obtain ⟨ch, rfl⟩ := polled_handleEvent hx hb
        cases hd
      all_goals cases hd
  | callRunInLoop | callQueueInLoop | callQuit =>
      rcases List.mem_cons.mp hg with rfl | hg
      · cases hd
      · rw [List.mem_singleton.mp hg] at hd
        cases hd
  | ret | queueHere | wakeup | quitHere | leave | handleWakeup => cases hg
  | _ =>
      rw [List.mem_singleton.mp hg] at hd
      cases hd

theorem batched_step {b : ThreadId × Choice Code (Io E)}
    (hs : (lts cfg poller).step s b = some s') (hwrap : Static Wrapped s)
    (hbottom : Ordered Bottom s) (h : Ordered Batched s) : Ordered Batched s' := by
  obtain ⟨t, ch⟩ := b
  obtain ⟨f, rest, x, next, ht, hr, rfl⟩ := step_runs hs
  have hwf : Wrapped f := hwrap.stack t f (by rw [ht]; exact List.mem_cons_self)
  have hbelow : ∀ b ∈ rest, Bottom f b := by
    have hpair := hbottom t
    rw [ht] at hpair
    exact (List.pairwise_cons.mp hpair).1
  refine h.resume ht ?_ fun b hb hfb g hg hd => ?_
  · by_cases hf : ∃ l, f = .doPendingFunctors l
    · obtain ⟨l, rfl⟩ := hf
      cases hr
      refine List.pairwise_of_forall_mem_list fun _ _ g hg _ => ?_
      obtain ⟨_, _, rfl⟩ := List.mem_map.mp hg
      exact .inl rfl
    · by_cases hfun : ∃ l cb, f = .functor l cb
      · obtain ⟨l, cb, rfl⟩ := hfun
        cases hr
        exact List.pairwise_singleton ..
      · refine pairwise_batched fun g hg => Bool.eq_false_iff.mpr fun hd => ?_
        rcases next_deferred hr hwf hg hd with ⟨l, hl, _⟩ | hl
        · exact hf ⟨l, hl⟩
        · exact hfun hl
  · rcases next_deferred hr hwf hg hd with ⟨l, rfl, _⟩ | ⟨l, cb, rfl⟩
    · exact .inr (hbelow b hb rfl)
    · exact hfb rfl

theorem batched (h : (lts cfg poller).ReachIf C s) : Ordered Batched s := by
  refine run_inv h (fun t => pairwise_batched fun f hf => ?_) fun hr hI _ hs =>
    batched_step hs (wrapped hr) (bottom hr) hI
  rcases started_cases hf with ⟨l, rfl⟩ | rfl | rfl <;> rfl

/-! ## Who uses a descriptor -/

theorem uses_code {a : Code} : (Frame.code a).uses c = a.uses c := rfl

theorem uses_update : (update c).uses c = true := beq_self_eq_true c

theorem job_uses {a : Code} (h : Job a) : a.uses c = false := by
  cases a with
  | conn d k => cases k <;> first | rfl | cases h
  | _ => first | rfl | cases h

/-- Only the loop's own thread has such code, and never in a functor. -/
theorem uses_mem (hr : (lts cfg poller).ReachIf C s) {f : Frame Code} (hf : f ∈ s.stack t)
    (hu : f.uses c = true) :
    t = .loop (s.shared.app.conn c).loop_ ∧ ∃ a, f = .code a ∧ a.uses c = true := by
  have hwf : Wrapped f := (wrapped hr).stack t f hf
  have hjob : ∀ {cb : Frame Code}, (cb = .user ∨ ∃ a, cb = .code a ∧ Job a) →
      cb.uses c = false := by
    rintro cb (rfl | ⟨a, rfl, ha⟩)
    · rfl
    · exact job_uses ha
  cases f with
  | code a =>
      have hbound : Bound t a s.shared.app := (base hr).all.stack t _ hf _ rfl
      refine ⟨?_, a, rfl, hu⟩
      cases a with
      | conn d k =>
          cases k <;> first
            | cases hu
            | (obtain rfl : d = c := eq_of_beq hu
               exact hbound.2.2 rfl)
      | handleEvent ch | update ch | remove ch =>
          cases ch with
          | acceptor => cases hu
          | conn d =>
              obtain rfl : d = c := eq_of_beq hu
              exact hbound.1
      | _ => cases hu
  | runInLoop l cb =>
      have hcb : cb.uses c = true := hu
      rw [hjob (wrapped_closed.run hwf).2] at hcb
      cases hcb
  | queueInLoop l cb | functor l cb =>
      have hcb : cb.uses c = true := hu
      rw [hjob hwf] at hcb
      cases hcb
  | _ => cases hu

/-- A piece that uses it is left by `handleEvent`; the poller is called by the
pieces at both ends of the connection's life, and while it is up. -/
theorem connRuns_uses {d : ConnId} {x x' : TcpConnection} {k : ConnCode} {io : Io E}
    {evs : List Event} {next : List (Frame Code)} (h : x.Runs d t k io x' evs next)
    {g : Frame Code} (hg : g ∈ next) (hu : g.uses c = true) :
    d = c ∧ (k = .handleWrite ∨ k = .connectEstablished ∨ k = .connectDestroyed ∨
      x.state_ = .kConnected) := by
  have hupd : g = update d → d = c := by
    rintro rfl
    exact eq_of_beq hu
  cases h with
  | sendBufferHere h | sentPart _ h | queued _ h =>
      exact ⟨hupd (mem_updateUnlessWriting hg), .inr (.inr (.inr h))⟩
  | connectEstablished =>
      rcases List.mem_cons.mp hg with rfl | hg
      · exact ⟨hupd rfl, .inr (.inl rfl)⟩
      · rw [List.mem_singleton.mp hg] at hu
        cases hu
  | connectDestroyed =>
      simp only [List.mem_cons, List.not_mem_nil, or_false] at hg
      rcases hg with rfl | rfl | rfl
      · exact ⟨hupd rfl, .inr (.inr (.inl rfl))⟩
      · exact ⟨eq_of_beq hu, .inr (.inr (.inl rfl))⟩
      · cases hu
  | writeAll =>
      simp only [List.mem_cons, List.not_mem_nil, or_false] at hg
      rcases hg with rfl | rfl | rfl
      · exact ⟨hupd rfl, .inl rfl⟩
      · cases hu
      · cases hu
  | connectionDown =>
      rcases List.mem_cons.mp hg with rfl | hg
      · cases hu
      · rw [List.mem_singleton.mp hg] at hu
        cases hu
  | _ => first
    | exact absurd hg List.not_mem_nil
    | (rw [List.mem_singleton.mp hg] at hu
       cases hu)

theorem runs_uses {a : Code} {io : Io E} {x x' : TcpServer P} {next : List (Frame Code)}
    (h : Runs cfg poller t x a io x' next) {g : Frame Code} (hg : g ∈ next)
    (hu : g.uses c = true) :
    a.uses c = true ∨ a = .conn c .connectEstablished ∨ a = .conn c .connectDestroyed ∨
      (x.conn c).state_ = .kConnected := by
  cases h with
  | @conn d k _ _ _ _ h =>
      obtain ⟨rfl, rfl | rfl | rfl | hup⟩ := connRuns_uses h hg hu
      · exact .inl (beq_self_eq_true _)
      · exact .inr (.inl rfl)
      · exact .inr (.inr (.inl rfl))
      · exact .inr (.inr (.inr hup))
  | handleEvent =>
      rcases mem_handleEvent hg with ⟨_, rfl⟩ | ⟨d, k, rfl, rfl, hk⟩
      · cases hu
      · rcases hk with ⟨_, rfl⟩ | ⟨_, rfl⟩ | ⟨_, rfl⟩ | ⟨_, rfl⟩
        · cases hu
        · cases hu
        · exact .inl hu
        · exact .inl hu
  | removeConnectionInLoop =>
      rw [mem_removeConnectionInLoop hg] at hu
      cases hu
  | update | remove | acceptFailed => cases hg
  | _ =>
      rw [List.mem_singleton.mp hg] at hu
      cases hu

/-- A step of the server's own code. -/
theorem code_runs {a : Code} {r x : Reactor Code (TcpServer P)} {next : List (Frame Code)}
    (h : Reactor.Runs (app cfg poller) t r (.code a) ch x next) :
    ∃ io y, x = { r with app := y } ∧ Runs cfg poller t r.app a io y next := by
  cases h with
  | code hx => exact ⟨_, _, rfl, exec_runs hx⟩

/-- Such code is left by such code, by the pieces at both ends of the
connection's life, while it is up, or by a poller that watches the channel. -/
theorem next_uses (hr : (lts cfg poller).ReachIf C s) {f : Frame Code}
    {x : Reactor Code (TcpServer P)} {next : List (Frame Code)} (hf : f ∈ s.stack t)
    (hruns : Reactor.Runs (app cfg poller) t s.shared f ch x next) {g : Frame Code}
    (hg : g ∈ next) (hu : g.uses c = true) :
    f.uses c = true ∨ f = piece c .connectEstablished ∨ f = piece c .connectDestroyed ∨
      (s.shared.app.conn c).state_ = .kConnected ∨
        ∃ l, f = .poll l ∧ poller.registered (s.shared.app.poller l) (.conn c) := by
  cases hruns with
  | @call a ha =>
      rcases List.mem_cons.mp hg with rfl | hg
      · have ha : api t s.shared.app a = true := ha
        unfold api at ha
        split at ha <;> first | cases hu | cases ha
      · rw [List.mem_singleton.mp hg] at hu
        cases hu
  | code hx =>
      rcases runs_uses (exec_runs hx) hg hu with ha | rfl | rfl | hup
      · exact .inl ha
      · exact .inr (.inl rfl)
      · exact .inr (.inr (.inl rfl))
      · exact .inr (.inr (.inr (.inl hup)))
  | runHere | runThere | functor =>
      rw [List.mem_singleton.mp hg] at hu
      exact .inl hu
  | @polled l io _ codes _ hx =>
      rcases mem_iteration hg with ⟨b, hb, rfl⟩ | rfl | rfl | rfl
      · obtain ⟨e, q, _, hq, _, hcodes⟩ := poll_revents hx
        obtain ⟨active, hactive, rfl⟩ := Option.map_eq_some_iff.mp hcodes.symm
        obtain ⟨⟨k, rev⟩, hmem, rfl⟩ := List.mem_map.mp hb
        cases k with
        | acceptor => cases hu
        | conn d =>
            obtain rfl : d = c := eq_of_beq hu
            refine .inr (.inr (.inr (.inr ⟨l, rfl, ?_⟩)))
            exact poller.poll_registered (hq.trans (congrArg some (Prod.ext rfl hactive))) hmem
      all_goals cases hu
  | doPendingFunctors =>
      obtain ⟨q, hq, rfl⟩ := List.mem_map.mp hg
      have hcb : q.2.uses c = true := hu
      rcases (wrapped hr).queue _ q hq with he | ⟨a, he, ha⟩
      · rw [he] at hcb
        cases hcb
      · rw [he, uses_code, job_uses ha] at hcb
        cases hcb
  | callRunInLoop | callQueueInLoop | callQuit =>
      rcases List.mem_cons.mp hg with rfl | hg
      · cases hu
      · rw [List.mem_singleton.mp hg] at hu
        cases hu
  | ret | queueHere | wakeup | quitHere | leave | handleWakeup => cases hg
  | _ =>
      rw [List.mem_singleton.mp hg] at hu
      cases hu

/-- A poller comes to watch a channel by an `update` of it. -/
theorem runs_watched {a : Code} {io : Io E} {x x' : TcpServer P} {next : List (Frame Code)}
    (h : Runs cfg poller t x a io x' next) {l : LoopId}
    (hw : poller.registered (x'.poller l) (.conn c)) :
    poller.registered (x.poller l) (.conn c) ∨ a = .update (.conn c) := by
  have hset : ∀ {k : LoopId} {p : P}, poller.registered ((x.setPoller k p).poller l) (.conn c) →
      l = k ∧ poller.registered p (.conn c) ∨ poller.registered (x.poller l) (.conn c) := by
    intro k p hp
    by_cases hl : l = k
    · subst hl
      refine .inl ⟨rfl, ?_⟩
      rwa [show (x.setPoller l p).poller l = p from Function.update_self ..] at hp
    · rw [show (x.setPoller k p).poller l = x.poller l from Function.update_of_ne hl ..] at hp
      exact .inr hp
  cases h with
  | update hx =>
      rcases hset hw with ⟨rfl, hp⟩ | hp
      · rcases poller.registered_update hx hp with hold | hch
        · exact .inl hold
        · exact .inr (by rw [hch])
      · exact .inl hp
  | remove hx =>
      rcases hset hw with ⟨rfl, hp⟩ | hp
      · exact .inl (poller.registered_remove hx hp).1
      · exact .inl hp
  | handleEvent =>
      rw [show (x.handleEvent _).1 = x.setChannel _ _ from rfl,
        (setChannel_revents x _ kNoneEvent).pollers] at hw
      exact .inl hw
  | _ => exact .inl hw

theorem step_watched (hs : (lts cfg poller).step s (t, ch) = some s') {l : LoopId}
    (hw : poller.registered (s'.shared.app.poller l) (.conn c)) :
    poller.registered (s.shared.app.poller l) (.conn c) ∨ ∃ rest, s.stack t = update c :: rest := by
  obtain ⟨f, rest, x, next, ht, hruns, rfl⟩ := step_runs hs
  have hpoll : ∀ {k : LoopId} {io : Io E} {r : TcpServer P × Option (List Code)},
      poll poller k io s.shared.app = some r → poller.registered (r.1.poller l) (.conn c) →
        poller.registered (s.shared.app.poller l) (.conn c) := by
    intro k io r hx hp
    obtain ⟨e, q, _, hq, hrev, _⟩ := poll_revents hx
    rw [hrev.pollers] at hp
    by_cases hl : l = k
    · subst hl
      rw [show (s.shared.app.setPoller l q.1).poller l = q.1 from Function.update_self ..] at hp
      exact poller.registered_poll hq hp
    · rwa [show (s.shared.app.setPoller k q.1).poller l = s.shared.app.poller l
        from Function.update_of_ne hl ..] at hp
  cases hruns with
  | code hx =>
      rcases runs_watched (exec_runs hx) hw with hold | rfl
      · exact .inl hold
      · exact .inr ⟨rest, ht⟩
  | polling hx | polled hx => exact .inl (hpoll hx hw)
  | _ => exact .inl hw

/-! ## The end of `connectDestroyed` -/

/-- How far `connectDestroyed` of connection `c` got, on the stack of its loop's
thread. Its poller may still watch the channel, and `socket_` was reset. -/
inductive Destroying (c : ConnId) (watched reset : Prop) : List (Frame Code) → Prop
  | updating {rest : List (Frame Code)} (hn : ¬ reset) (h : ∀ f ∈ rest, f.uses c = false) :
      Destroying c watched reset
        (update c :: .code (.remove (.conn c)) :: piece c .resetSocket :: rest)
  | removing {rest : List (Frame Code)} (hn : ¬ reset) (h : ∀ f ∈ rest, f.uses c = false) :
      Destroying c watched reset (.code (.remove (.conn c)) :: piece c .resetSocket :: rest)
  | resetting {rest : List (Frame Code)} (hw : ¬ watched) (hn : ¬ reset)
      (h : ∀ f ∈ rest, f.uses c = false) : Destroying c watched reset (piece c .resetSocket :: rest)
  | closed {st : List (Frame Code)} (hw : ¬ watched) (hr : reset)
      (h : ∀ f ∈ st, f.uses c = false) : Destroying c watched reset st

theorem Destroying.mono {watched reset watched' reset' : Prop} {st : List (Frame Code)}
    (h : Destroying c watched reset st) (hw : watched' → watched) (hr : reset' ↔ reset) :
    Destroying c watched' reset' st := by
  cases h with
  | updating hn h => exact .updating (mt hr.mp hn) h
  | removing hn h => exact .removing (mt hr.mp hn) h
  | resetting hw' hn h => exact .resetting (mt hw hw') (mt hr.mp hn) h
  | closed hw' hr' h => exact .closed (mt hw hw') (hr.mpr hr') h

/-- `connectDestroyed` runs once. -/
theorem destroyed_once (hr : (lts cfg poller).ReachIf C s) (hacc : s.shared.app.accepted < 2 ^ 31)
    {rest : List (Frame Code)} (ht : s.stack t = piece c .connectDestroyed :: rest) :
    .ran .connectDestroyed ∉ s.shared.app.log c := by
  intro hd
  obtain ⟨hwithin, hcount⟩ := counted hr (.inr rfl) c
  have hle := hwithin.le_tally (by rw [ht]; exact List.mem_cons_self)
  rw [show (piece c .connectDestroyed).weight (only c .connectDestroyed) = 1 from if_pos rfl] at hle
  have hmade : made s.shared.app c .connectDestroyed ≤ 1 := by
    show (s.shared.app.log c).count (.removed true) ≤ 1
    rw [(registry hr).erased hacc c]
    split <;> omega
  have hran : 0 < ran s.shared.app c .connectDestroyed := List.count_pos_iff.mpr hd
  unfold inFlight at hcount
  omega

/-- Connection `c`, once `connectDestroyed` began. -/
def Departing (poller : Poller P E) (s : State P) (c : ConnId) : Prop :=
  Destroying c (poller.registered (s.shared.app.poller (s.shared.app.conn c).loop_) (.conn c))
    (.ran .resetSocket ∈ s.shared.app.log c) (s.stack (.loop (s.shared.app.conn c).loop_))

/-- When `connectDestroyed` runs, what waits below uses no descriptor of the
connection. -/
theorem destroyed_quiet (hr : (lts cfg poller).ReachIf C s) {rest : List (Frame Code)}
    (ht : s.stack t = piece c .connectDestroyed :: rest) : ∀ f ∈ rest, f.uses c = false := by
  intro f hf
  refine Bool.eq_false_iff.mpr fun hu => ?_
  obtain ⟨_, a, rfl, _⟩ := uses_mem hr (by rw [ht]; exact List.mem_cons_of_mem _ hf) hu
  have hpair := batched hr t
  rw [ht] at hpair
  rcases (List.pairwise_cons.mp hpair).1 _ hf rfl with h | h <;> cases h

/-- `connectDestroyed` starts. -/
theorem departing_start (hr : (lts cfg poller).ReachIf C s) {rest : List (Frame Code)}
    (hs : (lts cfg poller).step s (t, ch) = some s')
    (ht : s.stack t = piece c .connectDestroyed :: rest)
    (hd : .ran .connectDestroyed ∉ s.shared.app.log c) : Departing poller s' c := by
  have hquiet := destroyed_quiet hr ht
  have hreset : .ran .resetSocket ∉ s.shared.app.log c := mt (socketed hr c).reset hd
  obtain ⟨f, rest', x, next, ht', hruns, rfl⟩ := step_runs hs
  obtain ⟨rfl, rfl⟩ := List.cons.inj (ht.symm.trans ht')
  obtain ⟨_, _, rfl, hserver⟩ := code_runs hruns
  cases hserver with
  | conn h =>
      cases h with
      | connectDestroyed hl =>
          subst hl
          unfold Departing
          simp only [Config.resume_shared, setConn_conn_self, Config.resume_stack_self]
          refine .updating (fun hmem => ?_) hquiet
          rw [setConn_log_self] at hmem
          rcases List.mem_append.mp hmem with hmem | hmem
          · exact hreset hmem
          · exact absurd hmem (by simp)

/-- It goes on, on its loop's thread. -/
theorem departing_own (hr : (lts cfg poller).ReachIf C s) (hacc : s.shared.app.accepted < 2 ^ 31)
    (hd : .ran .connectDestroyed ∈ s.shared.app.log c) (h : Departing poller s c)
    (hs : (lts cfg poller).step s (.loop (s.shared.app.conn c).loop_, ch) = some s') :
    Departing poller s' c := by
  have hshut : Shut s.shared.app c := (leaving hr).app c hd
  have hext := step_extends hs (base hr)
  have hwatched := fun hw => step_watched (c := c) (l := (s.shared.app.conn c).loop_) hs hw
  have hconn := step_conn hs (base hr) (wrapped hr) c
  obtain ⟨f, rest, x, next, ht, hruns, hs'⟩ := step_runs hs
  have hresume : s'.stack (.loop (s.shared.app.conn c).loop_) = next ++ rest := by
    rw [hs', Config.resume_stack_self]
  unfold Departing at h ⊢
  rw [hext.loop c hshut.1.1, hresume]
  rw [ht] at h
  cases h with
  | updating hn h =>
      obtain ⟨_, _, rfl, hserver⟩ := code_runs hruns
      cases hserver with
      | update => exact .removing (by rw [hs']; exact hn) h
  | removing hn h =>
      obtain ⟨_, _, rfl, hserver⟩ := code_runs hruns
      cases hserver with
      | @remove _ p hp =>
          refine .resetting ?_ (by rw [hs']; exact hn) h
          have hpoller : s'.shared.app.poller (s.shared.app.conn c).loop_ = p := by
            rw [hs']
            exact Function.update_self ..
          rw [hpoller]
          exact fun hw => (poller.registered_remove hp hw).2 rfl
  | resetting hw hn h =>
      obtain ⟨_, _, rfl, hserver⟩ := code_runs hruns
      cases hserver with
      | conn hx =>
          cases hx with
          | resetSocket =>
              refine .closed (by rw [hs']; exact hw) ?_ h
              rw [hs']
              show Event.ran .resetSocket ∈ (s.shared.app.setConn c .resetSocket _).log c
              rw [setConn_log_self]
              exact List.mem_append_right _ List.mem_cons_self
  | closed hw hreset h =>
      have hf : f.uses c = false := h f List.mem_cons_self
      refine .closed (fun hw' => ?_) ((hext.log c).subset hreset) fun g hg => ?_
      · rcases hwatched hw' with hold | ⟨rest', ht'⟩
        · exact hw hold
        · rw [ht] at ht'
          obtain ⟨rfl, _⟩ := List.cons.inj ht'
          rw [uses_update] at hf
          cases hf
      · rcases List.mem_append.mp hg with hg | hg
        · refine Bool.eq_false_iff.mpr fun hu => ?_
          rcases next_uses hr (by rw [ht]; exact List.mem_cons_self) hruns hg hu with
            hold | rfl | rfl | hup | ⟨l, rfl, hl⟩
          · rw [hf] at hold
            cases hold
          · rw [nothing_before hr ht] at hd
            cases hd
          · exact destroyed_once hr hacc ht hd
          · exact hshut.2 hup
          · obtain ⟨rfl, _⟩ := (base hr).app.registered l _ hl
            exact hw hl
        · exact h g (List.mem_cons_of_mem _ hg)

/-- The other threads do not meddle. -/
theorem departing_other (hr : (lts cfg poller).ReachIf C s)
    (hd : .ran .connectDestroyed ∈ s.shared.app.log c) (h : Departing poller s c)
    (hs : (lts cfg poller).step s (t, ch) = some s')
    (ht : t ≠ .loop (s.shared.app.conn c).loop_) : Departing poller s' c := by
  have hshut : Shut s.shared.app c := (leaving hr).app c hd
  have hext := step_extends hs (base hr)
  have hconn := step_conn hs (base hr) (wrapped hr) c
  obtain ⟨f, rest, x, next, ht', _, hs'⟩ := step_runs hs
  unfold Departing at h ⊢
  rw [hext.loop c hshut.1.1]
  have hstack : s'.stack (.loop (s.shared.app.conn c).loop_) =
      s.stack (.loop (s.shared.app.conn c).loop_) := by
    rw [hs', Config.resume_stack_of_ne _ (Ne.symm ht)]
  rw [hstack]
  refine h.mono (fun hw => ?_) ⟨fun hreset => ?_, fun hreset => (hext.log c).subset hreset⟩
  · rcases step_watched hs hw with hold | ⟨rest', htop⟩
    · exact hold
    · exact absurd (uses_mem hr (by rw [htop]; exact List.mem_cons_self) uses_update).1 ht
  · rcases conn_ran hconn hreset with hold | ⟨rest', htop⟩
    · exact hold
    · have hbound : Bound t _ s.shared.app :=
        (base hr).all.stack t _ (by rw [htop]; exact List.mem_cons_self) _ rfl
      exact absurd (hbound.2.2 rfl) ht

theorem departing (h : (lts cfg poller).ReachIf C s) :
    s.shared.app.accepted < 2 ^ 31 → ∀ c, .ran .connectDestroyed ∈ s.shared.app.log c →
      Departing poller s c := by
  refine run_inv (I := fun s => s.shared.app.accepted < 2 ^ 31 → ∀ c,
    .ran .connectDestroyed ∈ s.shared.app.log c → Departing poller s c) h
    (fun _ c hd => by cases hd) fun {s b s'} hr hI _ hs hacc c hd => ?_
  obtain ⟨t, ch⟩ := b
  have hold : s.shared.app.accepted < 2 ^ 31 :=
    Nat.lt_of_le_of_lt (step_extends hs (base hr)).accepted hacc
  by_cases hd' : .ran .connectDestroyed ∈ s.shared.app.log c
  · by_cases ht : t = .loop (s.shared.app.conn c).loop_
    · subst ht
      exact departing_own hr hold hd' (hI hold c hd') hs
    · exact departing_other hr hd' (hI hold c hd') hs ht
  · obtain ⟨rest, ht⟩ :=
      (conn_ran (step_conn hs (base hr) (wrapped hr) c) hd).resolve_left hd'
    exact departing_start hr hs ht hd'

/-! ## After the close -/

/-- `socket_` is null once it was reset. -/
theorem socket_reset (h : (lts cfg poller).Reach s) (c : ConnId) :
    .ran .resetSocket ∈ s.shared.app.log c ↔ (s.shared.app.conn c).socket_ = false := by
  refine conn_inv (Φ := fun x log => .ran .resetSocket ∈ log ↔ x.socket_ = false) h ?_ ?_ ?_ c
  · rintro x (rfl | hx)
    · simp
    · rw [hx.eq]
      simp
  · intro x x' log log' hI hi
    obtain ⟨r, rfl⟩ := hi.conn
    rcases hi.log with rfl | ⟨b, rfl⟩
    · exact hI
    · simpa using hI
  · intro x x' c t k io evs next log hI hr
    by_cases hk : k = .resetSocket
    · subst hk
      cases hr
      simp
    · have hran : Event.ran .resetSocket ∉ evs := (connRuns_events hr).1 _
      rw [(connRuns_socket hr).2 hk, ← hI]
      simp [hran, Ne.symm hk]

/-- Nothing happens on the socket of a connection that is closed. -/
theorem connRuns_closed {x x' : TcpConnection} {k : ConnCode} {io : Io E} {evs : List Event}
    {next : List (Frame Code)} (h : x.Runs c t k io x' evs next) (hup : x.state_ ≠ .kConnected)
    (hsock : x.socket_ = false) (hk : (piece c k).uses c = false) :
    ∀ e ∈ .ran k :: evs, e.onSocket = false := by
  have hreset : ∀ e ∈ x.shutdownWrite.events, e.onSocket = false := by
    intro e he
    unfold TcpConnection.shutdownWrite at he
    rw [hsock] at he
    rw [List.mem_singleton.mp he]
    rfl
  cases h with
  | sendBufferHere h | sentWhole _ h | sentPart _ h | queued _ h => exact absurd h hup
  | halfClose | shutdownNow =>
      intro e he
      rcases List.mem_cons.mp he with rfl | he
      · rfl
      · exact hreset e he
  | readMessage | readUnannounced | readEof | readError | writeFailed | writePart | writeAll
    | notWriting =>
      have hu : c ≠ c := ne_of_beq_false hk
      exact absurd rfl hu
  | _ => simp [Event.onSocket]

/-- No thread uses the descriptor then, and no poller watches it. -/
theorem closed_quiet (h : (lts cfg poller).ReachIf C s) (hacc : s.shared.app.accepted < 2 ^ 31)
    (hreset : .ran .resetSocket ∈ s.shared.app.log c) :
    (∀ l, ¬ poller.registered (s.shared.app.poller l) (.conn c)) ∧
      ∀ t, ∀ f ∈ s.stack t, f.uses c = false := by
  have hd := (socketed h c).reset hreset
  have hD := departing h hacc c hd
  unfold Departing at hD
  generalize hst : s.stack _ = st at hD
  cases hD with
  | updating hn | removing hn | resetting _ hn => exact absurd hreset hn
  | closed hw _ hquiet =>
      refine ⟨fun l hl => ?_, fun t f hf => Bool.eq_false_iff.mpr fun hu => ?_⟩
      · obtain ⟨rfl, _⟩ := (base h).app.registered l _ hl
        exact hw hl
      · obtain ⟨rfl, _⟩ := uses_mem h hf hu
        rw [hst] at hf
        rw [hquiet f hf] at hu
        cases hu

theorem closed_log (h : (lts cfg poller).Reach s) :
    s.shared.app.accepted < 2 ^ 31 → ∀ c,
      (s.shared.app.log c).Pairwise fun a b => a = .ran .resetSocket → b.onSocket = false := by
  refine run_inv (I := fun s => s.shared.app.accepted < 2 ^ 31 → ∀ c,
    (s.shared.app.log c).Pairwise fun a b => a = .ran .resetSocket → b.onSocket = false) h
    (fun _ c => .nil) fun {s b s'} hr hI _ hs hacc c => ?_
  obtain ⟨t, ch⟩ := b
  have hold : s.shared.app.accepted < 2 ^ 31 :=
    Nat.lt_of_le_of_lt (step_extends hs (base hr)).accepted hacc
  cases step_conn hs (base hr) (wrapped hr) c with
  | @piece k io evs next rest ht hch hx hlog hs' =>
      rw [hlog]
      refine List.pairwise_append.mpr ⟨hI hold c, ?_, fun a ha b hb he => ?_⟩
      · refine List.pairwise_cons.mpr ⟨fun b hb he => ?_, ?_⟩
        · cases he
          generalize s'.shared.app.conn c = x' at hx
          cases hx
          cases hb
        · refine List.pairwise_of_forall_mem_list fun a ha b hb he => ?_
          subst he
          exact absurd ha ((connRuns_events hx).1 _)
      · subst he
        have hmem : piece c k ∈ s.stack t := by rw [ht]; exact List.mem_cons_self
        exact connRuns_closed hx ((leaving hr).app c ((socketed hr c).reset ha)).2
          ((socket_reset hr c).mp ha) ((closed_quiet hr hold ha).2 t _ hmem) b hb
  | idle hi =>
      rcases hi.log with he | ⟨b, he⟩
      · rw [he]
        exact hI hold c
      · rw [he]
        refine List.pairwise_append.mpr
          ⟨hI hold c, List.pairwise_singleton .., fun a _ b' hb _ => ?_⟩
        rw [List.mem_singleton.mp hb]
        rfl
  | new _ _ hlog =>
      rw [hlog]
      exact .nil

/-- Along every run, once a connection has closed its descriptor no poller
watches it, no thread has code left that uses it, and nothing happens on it. -/
theorem closed_untouched (h : (lts cfg poller).Reach s) (hacc : s.shared.app.accepted < 2 ^ 31)
    (c : ConnId) :
    (.ran .resetSocket ∈ s.shared.app.log c →
      (∀ l, ¬ poller.registered (s.shared.app.poller l) (.conn c)) ∧
        ∀ t, ∀ f ∈ s.stack t, f.uses c = false) ∧
      (s.shared.app.log c).Pairwise fun a b => a = .ran .resetSocket → b.onSocket = false :=
  ⟨closed_quiet h hacc, closed_log h hacc c⟩

/-- The peer of a connection hangs up. -/
theorem closed_untouched_hangup :
    ∃ s : State (List ChannelId), .ran .resetSocket ∈ s.shared.app.log 0 ∧
      ((∀ l, ¬ anyPoller.registered (s.shared.app.poller l) (.conn 0)) ∧
        ∀ t, ∀ f ∈ s.stack t, f.uses 0 = false) ∧
      (s.shared.app.log 0).Pairwise fun a b => a = .ran .resetSocket → b.onSocket = false := by
  obtain ⟨s, hs, hp⟩ := Lts.exists_reach (lts echoConfig anyPoller)
    (connecting.append [(.loop 0, .ret), (.loop 0, .go), (.loop 0, .go),
      (.loop 0, .poll (.poller [(.conn 0, { close := true })]) 0), (.loop 0, .app .none),
      (.loop 0, .app .none), (.loop 0, .app .none), (.loop 0, .app .none), (.loop 0, .go),
      (.loop 0, .app .none), (.loop 0, .go), (.loop 0, .ret), (.loop 0, .go), (.loop 0, .go),
      (.loop 0, .app .none), (.loop 0, .app (.poller [])), (.loop 0, .app .none),
      (.loop 0, .app .none)])
    (fun s => decide (s.shared.app.accepted < 2 ^ 31 ∧
      .ran .resetSocket ∈ s.shared.app.log 0)) rfl (by decide +kernel)
  obtain ⟨hacc, hran⟩ := of_decide_eq_true hp
  have hclosed := closed_untouched hs hacc 0
  exact ⟨s, hran, hclosed.1 hran, hclosed.2⟩

end TcpServer

end Muduox.Net
