import Mathlib.Data.List.Nodup
import Muduox.Proofs.ConnectionRuns

/-!
# One dispatch at a time

A loop is back at `poll` only when everything the last iteration left has run:
below a frame of `loop` itself there is nothing but more of them (`Bottom`). So
what `poll` finds is put on an empty stack, and of the handlers that only
`handleEvent` calls, each connection has at most one on the stack of its loop,
`handleEvent` counted in (`Alone`): `epoll_wait` does not report a descriptor
twice.
-/

namespace Muduox.Net

namespace Reactor

open Threads

variable {A Ch S : Type} {P : App A Ch S}

/-- The frames of `loop` from one iteration to the next. -/
def turns : Frame A → Bool
  | .loop _ | .clearQuit _ | .whileNotQuit _ | .poll _ | .doPendingFunctors _ => true
  | _ => false

/-- Below a frame of `loop` are frames of `loop`. -/
def Bottom (g b : Frame A) : Prop := turns g = true → turns b = true

theorem turns_of_plain {f : Frame A} (h : f.plain = true) : turns f = false := by
  cases f <;> first | rfl | cases h

theorem pairwise_bottom {fs : List (Frame A)} (h : ∀ g ∈ fs, turns g = false) :
    fs.Pairwise Bottom := by
  refine List.pairwise_of_forall_mem_list fun g hg _ _ ht => ?_
  rw [h g hg] at ht
  cases ht

theorem iteration_bottom (e : EventLoop A) (l : LoopId) (handlers : List A) (place : Nat) :
    (e.iteration l handlers place).Pairwise Bottom := by
  have hcode : ∀ g ∈ handlers.map Frame.code, turns g = false := by
    intro g hg
    obtain ⟨a, _, rfl⟩ := List.mem_map.mp hg
    rfl
  have htail : ([.doPendingFunctors l, .whileNotQuit l] : List (Frame A)).Pairwise Bottom := by
    simp [Bottom, turns]
  have hfront : ∀ g ∈ (if 0 < e.wakeupBytes then (handlers.map Frame.code).take place ++
        Frame.handleWakeup l :: (handlers.map Frame.code).drop place
      else handlers.map Frame.code), turns g = false := by
    intro g hg
    split at hg
    · rcases List.mem_append.mp hg with hg | hg
      · exact hcode g (List.mem_of_mem_take hg)
      · rcases List.mem_cons.mp hg with rfl | hg
        · rfl
        · exact hcode g (List.mem_of_mem_drop hg)
    · exact hcode g hg
  refine List.pairwise_append.mpr ⟨pairwise_bottom hfront, htail, fun g hg b _ ht => ?_⟩
  rw [hfront g hg] at ht
  cases ht

theorem bottom_step {s s' : Config ThreadId (Frame A) (Reactor A S)} {b : ThreadId × Choice A Ch}
    (hs : (code P).step s b = some s') (hsound : Sound s) (h : Ordered Bottom s) :
    Ordered Bottom s' := by
  obtain ⟨t, ch⟩ := b
  obtain ⟨f, rest, x, next, ht, hr, rfl⟩ := step_runs hs
  have hcargo : cargo f = true := hsound.plain.2 t f (by rw [ht]; exact List.mem_cons_self)
  -- Most frames leave none of `loop`'s.
  have hquiet : (∀ g ∈ next, turns g = false) → Ordered Bottom (s.resume t x next rest) := by
    intro hn
    refine h.resume ht (pairwise_bottom hn) fun b _ _ g hg hg' => ?_
    rw [hn g hg] at hg'
    cases hg'
  have hloop : turns f = true → next.Pairwise Bottom →
      Ordered Bottom (s.resume t x next rest) := fun hf hn =>
    h.resume ht hn fun b _ hfb _ _ _ => hfb hf
  cases hr with
  | code hx => exact hquiet fun g hg => turns_of_plain (P.exec_plain hx g hg)
  | runHere => exact hquiet (by simpa using turns_of_plain hcargo)
  | functor => exact hquiet (by simpa using turns_of_plain hcargo)
  | loop | clearQuit | iterate | polling => exact hloop rfl (List.pairwise_singleton ..)
  | polled => exact hloop rfl (iteration_bottom ..)
  | doPendingFunctors =>
      refine hquiet fun g hg => ?_
      obtain ⟨_, _, rfl⟩ := List.mem_map.mp hg
      rfl
  | _ => exact hquiet (by simp [turns])

end Reactor

/-- The handlers that nothing but `handleEvent` calls. -/
def ConnCode.polled : ConnCode → Bool
  | .handleRead | .handleWrite => true
  | _ => false

/-- Whether `handleEvent` calls the handler. -/
def ConnCode.calledFor (r : Events) : ConnCode → Bool
  | .handleRead => r.read
  | .handleWrite => r.write
  | .handleClose => r.close
  | .handleError => r.error
  | _ => false

/-- The poller reports no channel twice. -/
def Poller.Once {P E : Type} (poller : Poller P E) : Prop :=
  ∀ {p xs e p' active}, poller.poll p xs e = some (p', some active) →
    (active.map Prod.fst).Nodup

namespace TcpServer

open Threads Reactor TcpConnection

variable {P E : Type} {cfg : ServerConfig} {poller : Poller P E}
  {C : State P → ThreadId × Choice Code (Io E) → Prop} {s s' : State P} {c : ConnId}
  {k : ConnCode}

theorem bottom (h : (lts cfg poller).ReachIf C s) : Ordered Bottom s := by
  refine run_inv h (fun t => ?_) fun hr hI _ hs => bottom_step hs (sound hr) hI
  match t with
  | .loop l => exact List.pairwise_singleton ..
  | .user 0 => simp [started, Bottom, turns]
  | .user (_ + 1) => exact List.pairwise_singleton ..

/-- Under a call of `poll` no code waits. -/
theorem poll_rest (h : (lts cfg poller).ReachIf C s) {t : ThreadId} {l : LoopId}
    {rest : List (Frame Code)} (ht : s.stack t = .poll l :: rest) :
    ∀ b ∈ rest, turns b = true := by
  have hord := bottom h t
  rw [ht, List.pairwise_cons] at hord
  exact fun b hb => hord.1 b hb rfl

/-- Handler `k` of connection `c`, or the dispatch that will call it. -/
def serves (c : ConnId) (k : ConnCode) : Frame Code → Bool
  | .code (.conn d j) => decide (d = c ∧ j = k)
  | .code (.handleEvent (.conn d)) => decide (d = c)
  | _ => false

theorem serves_eq {g : Frame Code} (h : serves c k g = true) :
    g = TcpConnection.piece c k ∨ g = .code (.handleEvent (.conn c)) := by
  unfold serves at h
  split at h
  · obtain ⟨rfl, rfl⟩ := of_decide_eq_true h
    exact .inl rfl
  · rw [of_decide_eq_true h]
    exact .inr rfl
  · cases h

theorem connRuns_serves {d : ConnId} {t : ThreadId} {x x' : TcpConnection} {j : ConnCode}
    {io : Io E} {evs : List Event} {next : List (Frame Code)} (h : x.Runs d t j io x' evs next)
    (hk : k.polled = true) : ∀ g ∈ next, serves c k g = false := by
  have hpiece : ∀ i : ConnCode, i.polled = false →
      serves c k (TcpConnection.piece d i) = false := by
    refine fun i hi => decide_eq_false fun ⟨_, he⟩ => ?_
    rw [he, hk] at hi
    cases hi
  intro g hg
  cases h.leaves g hg with
  | user | update | remove | removeConnection => rfl
  | sendThere | shutdownInLoop | forceCloseInLoop => rfl
  | _ => exact hpiece _ rfl

/-- Only `handleEvent` calls such a handler, and it does for its event. -/
theorem runs_serves {t : ThreadId} {a : Code} {io : Io E} {x x' : TcpServer P}
    {next : List (Frame Code)} (h : Runs cfg poller t x a io x' next) (hk : k.polled = true)
    {g : Frame Code} (hg : g ∈ next) (hs : serves c k g = true) :
    a = .handleEvent (.conn c) ∧ g = TcpConnection.piece c k ∧
      k.calledFor (x.conn c).channel_.revents_ = true := by
  cases h with
  | conn h =>
      rw [connRuns_serves h hk g hg] at hs
      cases hs
  | handleEvent =>
      rcases mem_handleEvent hg with ⟨_, rfl⟩ | ⟨d, j, rfl, rfl, hj⟩
      · cases hs
      · obtain ⟨rfl, rfl⟩ := of_decide_eq_true hs
        rcases hj with ⟨hr, rfl⟩ | ⟨hr, rfl⟩ | ⟨hr, rfl⟩ | ⟨hr, rfl⟩ <;> exact ⟨rfl, rfl, hr⟩
  | removeConnectionInLoop =>
      rw [mem_removeConnectionInLoop hg] at hs
      cases hs
  | _ =>
      simp [TcpServer.listen, TcpServer.newConnection] at hg <;> subst hg <;> cases hs

theorem api_serves {t : ThreadId} {x : TcpServer P} {a : Code} (h : api t x a = true)
    (hk : k.polled = true) : serves c k (.code a) = false := by
  unfold serves
  split
  · next d j he =>
      cases he
      refine decide_eq_false fun ⟨_, hj⟩ => ?_
      cases j <;> first | cases h | (rw [← hj] at hk; cases hk)
  · next he =>
      cases he
      cases h
  · rfl

theorem job_serves {a : Code} (h : Job a) (hk : k.polled = true) :
    serves c k (.code a) = false := by
  unfold serves
  split
  · next d j he =>
      cases he
      refine decide_eq_false fun ⟨_, hj⟩ => ?_
      cases j <;> first | exact h.elim | (rw [← hj] at hk; cases hk)
  · next he =>
      cases he
      exact h.elim
  · rfl

/-- At most one of two frames serves the connection. -/
def Alone (c : ConnId) (k : ConnCode) (g b : Frame Code) : Prop :=
  serves c k g = true → serves c k b = false

theorem pairwise_alone {fs : List (Frame Code)} (h : ∀ g ∈ fs, serves c k g = false) :
    fs.Pairwise (Alone c k) := by
  refine List.pairwise_of_forall_mem_list fun g hg _ _ hs => ?_
  rw [h g hg] at hs
  cases hs

/-- Different frames of which each that serves is `f`. -/
theorem nodup_alone {fs : List (Frame Code)} {f : Frame Code} (hn : fs.Nodup)
    (h : ∀ g ∈ fs, serves c k g = true → g = f) : fs.Pairwise (Alone c k) := by
  refine List.Pairwise.imp_of_mem (fun {g b} hg hb hne hs => ?_) hn
  refine Bool.eq_false_iff.mpr fun hs' => hne ?_
  rw [h g hg hs, h b hb hs']

theorem handlers_nodup (d : ConnId) (r : Events) :
    ((handlers (.conn d) r).map Frame.code).Nodup := by
  obtain ⟨r1, r2, r3, r4⟩ := r
  cases r1 <;> cases r2 <;> cases r3 <;> cases r4 <;> simp [handlers]

theorem iteration_nodup {e : EventLoop Code} {l : LoopId} {codes : List Code} {place : Nat}
    (h : codes.Nodup) : (e.iteration l codes place).Nodup := by
  have hcode : (codes.map Frame.code).Nodup := h.map fun _ _ he => Frame.code.inj he
  have hfront : ((if 0 < e.wakeupBytes then (codes.map Frame.code).take place ++
        Frame.handleWakeup l :: (codes.map Frame.code).drop place
      else codes.map Frame.code)).Nodup := by
    split
    · rw [List.perm_middle.nodup_iff, List.take_append_drop, List.nodup_cons]
      exact ⟨by simp, hcode⟩
    · exact hcode
  refine List.nodup_append.mpr ⟨hfront, by simp, fun g hg b hb => ?_⟩
  have hg' : (∃ a, g = .code a) ∨ g = .handleWakeup l := by
    split at hg
    · rcases List.mem_append.mp hg with hg | hg
      · obtain ⟨a, _, rfl⟩ := List.mem_map.mp (List.mem_of_mem_take hg)
        exact .inl ⟨a, rfl⟩
      · rcases List.mem_cons.mp hg with rfl | hg
        · exact .inr rfl
        · obtain ⟨a, _, rfl⟩ := List.mem_map.mp (List.mem_of_mem_drop hg)
          exact .inl ⟨a, rfl⟩
    · obtain ⟨a, _, rfl⟩ := List.mem_map.mp hg
      exact .inl ⟨a, rfl⟩
  simp only [List.mem_cons, List.not_mem_nil, or_false] at hb
  rintro rfl
  rcases hg' with ⟨a, rfl⟩ | rfl <;> rcases hb with hb | hb <;> cases hb

/-- What `poll` dispatches, if it reports no channel twice. -/
theorem polled_nodup (hp : poller.Once) {l : LoopId} {io : Io E} {x x' : TcpServer P}
    {codes : List Code} (h : (app cfg poller).poll l io x = some (x', some codes)) :
    codes.Nodup := by
  obtain ⟨e, ⟨p, active⟩, rfl, hq, _, hact⟩ := poll_revents h
  obtain ⟨active, rfl, rfl⟩ := Option.map_eq_some_iff.mp hact.symm
  rw [show (active.map fun a => Code.handleEvent a.1) =
    (active.map Prod.fst).map Code.handleEvent by rw [List.map_map]; rfl]
  exact (hp hq).map fun _ _ he => Code.handleEvent.inj he

theorem alone_step {b : ThreadId × Choice Code (Io E)} (hr : (lts cfg poller).ReachIf C s)
    (hp : poller.Once) (hk : k.polled = true) (hs : (lts cfg poller).step s b = some s')
    (h : Ordered (Alone c k) s) : Ordered (Alone c k) s' := by
  obtain ⟨t, ch⟩ := b
  obtain ⟨f, rest, x, next, ht, hruns, rfl⟩ := step_runs hs
  have hwf : Wrapped f := (wrapped hr).stack t f (by rw [ht]; exact List.mem_cons_self)
  have hquiet : (∀ g ∈ next, serves c k g = false) →
      Ordered (Alone c k) (s.resume t x next rest) := by
    intro hn
    refine h.resume ht (pairwise_alone hn) fun b _ _ g hg hs => ?_
    rw [hn g hg] at hs
    cases hs
  have hfunctor : ∀ {cb : Frame Code}, (cb = .user ∨ ∃ a, cb = .code a ∧ Job a) →
      ∀ g ∈ [cb], serves c k g = false := by
    rintro cb hcb g hg
    rw [List.mem_singleton.mp hg]
    rcases hcb with rfl | ⟨a, rfl, ha⟩
    · rfl
    · exact job_serves ha hk
  cases hruns with
  | @call a ha =>
      refine hquiet fun g hg => ?_
      simp only [List.mem_cons, List.not_mem_nil, or_false] at hg
      rcases hg with rfl | rfl
      · exact api_serves ha hk
      · rfl
  | @code a io x next hx =>
      have hserver := exec_runs hx
      have hpiece : ∀ g ∈ next, serves c k g = true → g = TcpConnection.piece c k :=
        fun g hg hs => (runs_serves hserver hk hg hs).2.1
      refine h.resume ht ?_ fun b _ hfb g hg hs => ?_
      · by_cases ha : ∃ d, a = .handleEvent (.conn d)
        · obtain ⟨d, rfl⟩ := ha
          cases hserver
          exact nodup_alone (handlers_nodup d _) hpiece
        · refine pairwise_alone fun g hg => Bool.eq_false_iff.mpr fun hs => ha ⟨c, ?_⟩
          exact (runs_serves hserver hk hg hs).1
      · obtain ⟨rfl, _⟩ := runs_serves hserver hk hg hs
        exact hfb (decide_eq_true rfl)
  | runHere => exact hquiet (hfunctor (wrapped_closed.run hwf).2)
  | functor => exact hquiet (hfunctor hwf)
  | @polled l _ _ codes place hx =>
      refine h.resume ht ?_ fun b hb _ g _ _ => ?_
      · refine nodup_alone (f := .code (.handleEvent (.conn c)))
          (iteration_nodup (polled_nodup hp hx)) fun g hg hs => ?_
        rcases mem_iteration hg with ⟨a, ha, rfl⟩ | rfl | rfl | rfl
        · rcases serves_eq hs with he | he
          · obtain ⟨_, rfl⟩ := polled_handleEvent hx ha
            cases he
          · exact he
        all_goals cases hs
      · have hturn := poll_rest hr ht b hb
        cases b <;> first | rfl | cases hturn
  | doPendingFunctors =>
      refine hquiet fun g hg => ?_
      obtain ⟨_, _, rfl⟩ := List.mem_map.mp hg
      rfl
  | _ => exact hquiet (by simp [serves])

/-- Along every run a connection is served by one frame at most. -/
theorem alone (h : (lts cfg poller).ReachIf C s) (hp : poller.Once) (hk : k.polled = true) :
    Ordered (Alone c k) s := by
  refine run_inv h (fun t => ?_) fun hr hI _ hs => alone_step hr hp hk hs hI
  match t with
  | .loop l => exact List.pairwise_singleton ..
  | .user 0 => simp [started, Alone, serves]
  | .user (_ + 1) => exact List.pairwise_singleton ..

/-! ## What `revents_` holds -/

section Revents

variable {x x' : TcpServer P}

theorem connRuns_revents {d : ConnId} {t : ThreadId} {x x' : TcpConnection} {j : ConnCode}
    {io : Io E} {evs : List Event} {next : List (Frame Code)} (h : x.Runs d t j io x' evs next) :
    x'.channel_.revents_ = x.channel_.revents_ := by
  cases h with
  | sendBufferHere _ _ hx | sentPart _ _ _ _ _ hx | queued _ _ hx =>
      rw [hx.rest]
      dsimp only
      split <;> rfl
  | _ => rfl

theorem setChannel_conn_self (y : Channel) :
    (x.setChannel (.conn c) y).conn c = { x.conn c with channel_ := y } :=
  Function.update_self ..

theorem setChannel_conn_of_ne {ch : ChannelId} (h : ch ≠ .conn c) (y : Channel) :
    (x.setChannel ch y).conn c = x.conn c := by
  cases ch with
  | acceptor => rfl
  | conn d => exact Function.update_of_ne (fun he => h (by rw [he])) ..

theorem runs_revents {t : ThreadId} {a : Code} {io : Io E} {next : List (Frame Code)}
    (h : Runs cfg poller t x a io x' next) :
    (x'.conn c).channel_.revents_ = (x.conn c).channel_.revents_ ∨
      (x'.conn c).channel_.revents_ = kNoneEvent := by
  cases h with
  | @conn d k io y evs next h =>
      by_cases hc : c = d
      · subst hc
        rw [setConn_conn_self]
        exact .inl (connRuns_revents h)
      · rw [setConn_conn_of_ne _ _ _ _ hc]
        exact .inl rfl
  | @handleEvent ch =>
      by_cases hc : ch = .conn c
      · subst hc
        refine .inr ?_
        rw [show (x.handleEvent (.conn c)).1 = x.setChannel (.conn c) _ from rfl,
          setChannel_conn_self]
        rfl
      · refine .inl ?_
        rw [show (x.handleEvent ch).1 = x.setChannel ch _ from rfl, setChannel_conn_of_ne hc]
  | @newConnection fd =>
      by_cases hc : c = x.accepted
      · refine .inr ?_
        show (Function.update x.conn x.accepted _ c).channel_.revents_ = _
        rw [hc, Function.update_self]
      · refine .inl ?_
        show (Function.update x.conn x.accepted _ c).channel_.revents_ = _
        rw [Function.update_of_ne hc]
  | _ => exact .inl rfl

theorem setActive_conn (active : List (ChannelId × Events)) : ∀ x : TcpServer P,
    (∀ rev, (.conn c, rev) ∉ active) ∧
        ((x.setActive active).conn c).channel_.revents_ = (x.conn c).channel_.revents_ ∨
      ∃ rev, (.conn c, rev) ∈ active ∧
        ((x.setActive active).conn c).channel_.revents_ = rev := by
  induction active with
  | nil => exact fun x => .inl ⟨fun _ => List.not_mem_nil, rfl⟩
  | cons a active ih =>
      obtain ⟨ch, r⟩ := a
      intro x
      rcases ih (x.setChannel ch ((x.channel ch).setRevents r)) with ⟨hno, heq⟩ | ⟨rev, hm, heq⟩
      · by_cases hc : ch = .conn c
        · subst hc
          refine .inr ⟨r, List.mem_cons_self, heq.trans ?_⟩
          rw [setChannel_conn_self]
          rfl
        · refine .inl ⟨fun rev hmem => ?_, heq.trans (by rw [setChannel_conn_of_ne hc])⟩
          rcases List.mem_cons.mp hmem with he | hmem
          · exact hc (Prod.mk.inj he).1.symm
          · exact hno rev hmem
      · exact .inr ⟨rev, List.mem_cons_of_mem _ hm, heq⟩

/-- After a call of `poll` a channel's `revents_` are what was found, if it is
among the active ones. -/
theorem poll_conn {l : LoopId} {io : Io E} {r : TcpServer P × Option (List Code)}
    (h : poll poller l io x = some r) (c : ConnId) :
    ∃ e q, io = .poller e ∧ poller.poll (x.poller l) x.channel e = some q ∧
      r.2 = q.2.map (fun active => active.map fun a => .handleEvent a.1) ∧
      ((∀ rev, (.conn c, rev) ∉ q.2.getD []) ∧
          (r.1.conn c).channel_.revents_ = (x.conn c).channel_.revents_ ∨
        ∃ rev, (.conn c, rev) ∈ q.2.getD [] ∧ (r.1.conn c).channel_.revents_ = rev) := by
  unfold poll at h
  split at h
  · next e =>
      obtain ⟨⟨p, active⟩, hq, rfl⟩ := Option.map_eq_some_iff.mp h
      refine ⟨e, _, rfl, hq, ?_⟩
      cases active with
      | none => exact ⟨rfl, .inl ⟨by simp, rfl⟩⟩
      | some active => exact ⟨rfl, setActive_conn active (x.setPoller l p)⟩
  · cases h

end Revents

end TcpServer

end Muduox.Net
