import Muduox.Proofs.AtRest
import Muduox.Proofs.ReactorLiveness

/-!
# Every connection comes up, and every closed one goes

In a run in which each of the server's loops comes to its functors again and
again, what a connection has to go through it goes through: from `newConnection`
to `connectEstablished` and the user's callback, and from `handleClose` to the
callback, `removeConnection`, the accept loop, `connectDestroyed` and the end of
the socket. Each stage leaves the next with a loop (`Fair.payload_runs`); the
two that a connection passes once are found by their count (`Fair.tally_runs`).
-/

namespace Muduox.Net.TcpServer

open Threads Reactor TcpConnection

variable {P E : Type} {cfg : ServerConfig} {poller : Poller P E} {r : (lts cfg poller).Run}
  {c : ConnId} {t : ThreadId} {a : Code} {n m : ℕ}

/-- What a step of the server's own code is in a run. -/
theorem runsAt_code (h : RunsAt r n t (.code a)) :
    ∃ io next, Runs cfg poller t (r.state n).shared.app a io (r.state (n + 1)).shared.app next ∧
      ∀ g ∈ next, g ∈ (r.state (n + 1)).stack t := by
  obtain ⟨ch, x, next, hr, hx, hnext⟩ := runsAt_runs h
  obtain ⟨io, y, rfl, hruns⟩ := code_runs hr
  rw [hx]
  exact ⟨io, next, hruns, hnext⟩

theorem runsAt_bound (h : RunsAt r n t (.code a)) : Bound t a (r.state n).shared.app := by
  obtain ⟨-, rest, hst⟩ := h
  exact (base (r.reachIf n)).all.stack t _ (by rw [hst]; exact List.mem_cons_self) _ rfl

/-- Most pieces of a connection run on one of the server's loops. -/
theorem runsAt_home {k : ConnCode} (h : RunsAt r n t (piece c k)) (hk : k.anyThread = false) :
    ∃ l ∈ loops cfg, t = .loop l := by
  obtain ⟨hc, -, hloop⟩ := runsAt_bound h
  exact ⟨_, Finset.mem_range.mpr (Nat.lt_succ_of_le ((registry (r.reachIf n)).loop c hc)), hloop hk⟩

/-- The history of a connection only grows. -/
theorem log_keeps {e : Event} (h : e ∈ (r.state n).shared.app.log c) (hnm : n ≤ m) :
    e ∈ (r.state m).shared.app.log c :=
  r.keeps (I := fun s => e ∈ s.shared.app.log c)
    (fun k _ hk => ((step_extends (r.step k) (base (r.reachIf k))).log c).subset hk) h hnm

/-- A piece that runs is written down. -/
theorem runsAt_logged {k : ConnCode} (h : RunsAt r n t (piece c k)) (hnm : n < m) :
    .ran k ∈ (r.state m).shared.app.log c := by
  obtain ⟨io, next, hruns, -⟩ := runsAt_code h
  refine log_keeps (n := n + 1) ?_ hnm
  generalize (r.state (n + 1)).shared.app = y at hruns
  cases hruns
  rw [setConn_log_self]
  exact List.mem_append_right _ List.mem_cons_self

theorem acceptLoop_mem : acceptLoop ∈ loops cfg := Finset.mem_range.mpr (Nat.succ_pos _)

/-- A new connection is sent to one of the loops. -/
theorem newConnection_leaves {fd : Int} (h : RunsAt r n t (.code (.newConnection fd))) :
    ∃ l ∈ loops cfg,
      .runInLoop l (piece (r.state n).shared.app.accepted .connectEstablished) ∈
        (r.state (n + 1)).stack (.loop acceptLoop) := by
  obtain ⟨io, next, hruns, hnext⟩ := runsAt_code h
  have hnext' := (registry (r.reachIf n)).next
  generalize (r.state (n + 1)).shared.app = y at hruns
  cases hruns with
  | newConnection ht =>
      subst ht
      refine ⟨(getNextLoop cfg (r.state n).shared.app).1, ?_, hnext _ List.mem_cons_self⟩
      unfold getNextLoop
      split
      · exact acceptLoop_mem
      · exact Finset.mem_range.mpr (by dsimp only; omega)

section Fair

variable (hfair : ∀ l ∈ loops cfg, TakesTurns r l)
include hfair

theorem fair : Fair r (loops cfg) :=
  ⟨fun n => sound (r.reachIf n), fun n => bottom (r.reachIf n), hfair⟩

/-- A piece on the stack of one of the loops is run. -/
theorem piece_runs {l : LoopId} (hl : l ∈ loops cfg) (hf : .code a ∈ (r.state n).stack (.loop l)) :
    ∃ k, n ≤ k ∧ RunsAt r k (.loop l) (.code a) :=
  (fair hfair).stack_runs hl hf rfl

/-- A connection that comes up is shown to the user, and so is one that is closed. -/
theorem change_told {k : ConnCode} (h : RunsAt r n t (piece c k))
    (hk : k = .connectEstablished ∨ k = .handleClose) :
    ∃ m, n < m ∧ RunsAt r m t (piece c .connectionCallback) := by
  obtain ⟨l, hl, rfl⟩ := runsAt_home h (by rcases hk with rfl | rfl <;> rfl)
  obtain ⟨io, next, hruns, hnext⟩ := runsAt_code h
  have hmem : piece c .connectionCallback ∈ next := by
    generalize (r.state (n + 1)).shared.app = y at hruns
    cases hruns with
    | conn hx => rcases hk with rfl | rfl <;> cases hx <;> simp
  obtain ⟨m, hm, hrun⟩ := piece_runs hfair hl (hnext _ hmem)
  exact ⟨m, hm, hrun⟩

/-- From the callback of a closed connection to the accept loop. -/
theorem told_removed (h : RunsAt r n t (piece c .connectionCallback))
    (hc : .ran .handleClose ∈ (r.state n).shared.app.log c) :
    ∃ k, n < k ∧ Removed (r.state k).shared.app c := by
  obtain ⟨l, hl, rfl⟩ := runsAt_home h rfl
  obtain ⟨io, next, hruns, hnext⟩ := runsAt_code h
  have hdown := (closed_shut (r.reachIf n) hc).2
  have hmem : .code (.removeConnection c) ∈ next := by
    generalize (r.state (n + 1)).shared.app = y at hruns
    cases hruns with
    | conn hx =>
        cases hx with
        | connectionUp hup => exact absurd hup hdown
        | connectionDown => exact List.mem_cons_self
  obtain ⟨k, hk, hrun⟩ := piece_runs hfair hl (hnext _ hmem)
  obtain ⟨io, next, hruns, hnext⟩ := runsAt_code hrun
  have hmem : .runInLoop acceptLoop (.code (.removeConnectionInLoop c)) ∈ next := by
    generalize (r.state (k + 1)).shared.app = y at hruns
    cases hruns
    exact List.mem_cons_self
  obtain ⟨i, hi, j, -, hrun⟩ :=
    (fair hfair).payload_runs (f := .runInLoop acceptLoop (.code (.removeConnectionInLoop c)))
      rfl ⟨acceptLoop_mem, trivial⟩ hl (hnext _ hmem)
  obtain ⟨io, next, hruns, -⟩ := runsAt_code hrun
  refine ⟨i + 1, by omega, ?_⟩
  generalize (r.state (i + 1)).shared.app = y at hruns
  cases hruns with
  | removeConnectionInLoop => exact removed_removeConnectionInLoop ..

/-- A connection that was removed is destroyed. -/
theorem removed_destroyed (hacc : (r.state n).shared.app.accepted < 2 ^ 31)
    (h : Removed (r.state n).shared.app c) :
    ∃ k, n ≤ k ∧ .ran .connectDestroyed ∈ (r.state k).shared.app.log c := by
  obtain ⟨hwithin, hcount⟩ := counted (r.reachIf n) (.inr rfl) c
  have hmade : made (r.state n).shared.app c .connectDestroyed = 1 := by
    show ((r.state n).shared.app.log c).count (.removed true) = 1
    rw [(registry (r.reachIf n)).erased hacc c, if_pos h]
  by_cases hflight : inFlight cfg c .connectDestroyed (r.state n) = 0
  · refine ⟨n, Nat.le_refl _, List.count_pos_iff.mp ?_⟩
    rw [ran] at hcount
    omega
  · obtain ⟨a, ha, k, hk, j, -, hrun⟩ := (fair hfair).tally_runs hwithin hflight
    obtain rfl : a = .conn c .connectDestroyed := by
      by_contra hne
      exact ha (if_neg hne)
    exact ⟨k + 1, by omega, runsAt_logged hrun (Nat.lt_succ_self k)⟩

/-- And its descriptor is closed. -/
theorem destroyed_reset (h : .ran .connectDestroyed ∈ (r.state n).shared.app.log c) :
    ∃ k, n ≤ k ∧ .ran .resetSocket ∈ (r.state k).shared.app.log c := by
  rcases returns_run (r.reachIf n) c h with hreset | hmem
  · exact ⟨n, Nat.le_refl _, hreset⟩
  · have hc := ((base (r.reachIf n)).all.stack _ _ hmem _ rfl).1
    have hl : ((r.state n).shared.app.conn c).loop_ ∈ loops cfg :=
      Finset.mem_range.mpr (Nat.lt_succ_of_le ((registry (r.reachIf n)).loop c hc))
    obtain ⟨k, hk, hrun⟩ := piece_runs hfair hl hmem
    exact ⟨k + 1, by omega, runsAt_logged hrun (Nat.lt_succ_self k)⟩

end Fair

/-- A connection is out of the server: not in its map, watched by no poller,
used by no thread, and its descriptor closed. -/
structure Parted (poller : Poller P E) (s : State P) (c : ConnId) : Prop where
  map : ∀ n, s.shared.app.connections_ n ≠ some c
  unwatched : ∀ l, ¬ poller.registered (s.shared.app.poller l) (.conn c)
  unused : ∀ t, ∀ f ∈ s.stack t, f.uses c = false
  closed : (s.shared.app.conn c).socket_ = false

theorem parted_of_reset {s : State P} (h : (lts cfg poller).Reach s)
    (hacc : s.shared.app.accepted < 2 ^ 31) (hreset : .ran .resetSocket ∈ s.shared.app.log c)
    (hremoved : Removed s.shared.app c) : Parted poller s c := by
  obtain ⟨hunwatched, hunused⟩ := closed_quiet h hacc hreset
  exact ⟨fun n hn => (((registry h).map hacc n c).mp hn).2.2 hremoved, hunwatched, hunused,
    (socket_reset h c).mp hreset⟩

/-- In a run in which each loop comes to its functors again and again, every new
connection is established and shown to the user, and every one that is closed is
shown to the user once more and is gone for good from some point on. -/
theorem connections_complete (hfair : ∀ l ∈ loops cfg, TakesTurns r l)
    (hacc : ∀ n, (r.state n).shared.app.accepted < 2 ^ 31) :
    (∀ n t fd, RunsAt r n t (.code (.newConnection fd)) →
      ∃ m, n < m ∧ ∃ u, RunsAt r m u (piece (r.state n).shared.app.accepted .connectEstablished) ∧
        ∃ k, m < k ∧ RunsAt r k u (piece (r.state n).shared.app.accepted .connectionCallback)) ∧
    ∀ n t c, RunsAt r n t (piece c .handleClose) →
      (∃ m, n < m ∧ RunsAt r m t (piece c .connectionCallback)) ∧
        ∃ m, ∀ k, m ≤ k → Parted poller (r.state k) c := by
  refine ⟨fun n t fd h => ?_, fun n t c h => ?_⟩
  · obtain ⟨l, hl, hmem⟩ := newConnection_leaves h
    obtain ⟨m, hm, j, -, hrun⟩ := (fair hfair).payload_runs
      (f := .runInLoop l (piece (r.state n).shared.app.accepted .connectEstablished))
      rfl ⟨hl, trivial⟩ acceptLoop_mem hmem
    exact ⟨m, hm, _, hrun, change_told hfair hrun (.inl rfl)⟩
  · obtain ⟨k, hk, htold⟩ := change_told hfair h (.inr rfl)
    obtain ⟨i, hi, hremoved⟩ := told_removed hfair htold (runsAt_logged h hk)
    obtain ⟨j, hj, hdestroyed⟩ := removed_destroyed hfair (hacc i) hremoved
    obtain ⟨m, hm, hreset⟩ := destroyed_reset hfair hdestroyed
    refine ⟨⟨k, hk, htold⟩, m, fun l hl => ?_⟩
    have hremoved' : Removed (r.state l).shared.app c :=
      hremoved.imp (log_keeps · (by omega)) (log_keeps · (by omega))
    exact parted_of_reset (r.reachIf l) (hacc l) (log_keeps hreset hl) hremoved'

/-- Once a schedule leaves the only loop idle, with one connection accepted,
nothing more need happen: the loop takes its turns for ever. -/
theorem exists_idle_after {s x : State (List ChannelId)}
    {rest : List (ThreadId × Choice Code (Io (List (ChannelId × Events))))}
    (hs : (lts echoConfig anyPoller).Reach s)
    (hrest : (lts echoConfig anyPoller).run s rest = some x)
    (hidle : Idles acceptLoop [.poll acceptLoop] x) (hacc : x.shared.app.accepted = 1) :
    ∃ q : (lts echoConfig anyPoller).Run, q.state 0 = s ∧ (∀ a ∈ rest.head?, q.label 0 = a) ∧
      (∀ l ∈ loops echoConfig, TakesTurns q l) ∧
        ∀ n, (q.state n).shared.app.accepted < 2 ^ 31 := by
  obtain ⟨r, hr, -, hI, hturns, -⟩ := exists_idle_run (P := app echoConfig anyPoller)
    (l := acceptLoop) (c := .poller []) (J := fun x => x.accepted = 1)
    (fun x hx => ⟨_, rfl, hx⟩) (Lts.ReachIf.of_runIf hs hrest) hidle hacc
  obtain ⟨q, N, hq, hlabel, hsuffix⟩ := r.exists_append hs (hr ▸ hrest)
  refine ⟨q, hq, hlabel, fun l hl n => ?_, fun n => ?_⟩
  · obtain rfl : l = 0 := Nat.lt_one_iff.mp (Finset.mem_range.mp hl)
    obtain ⟨m, hm, ht, hrun⟩ := hturns n
    refine ⟨N + m, by omega, ?_, ?_⟩
    · rw [(hsuffix m).2]
      exact ht
    · rw [(hsuffix m).1]
      exact hrun
  · by_contra hn
    have hkeep := q.keeps (n := n) (m := N + n) (I := fun s => ¬ s.shared.app.accepted < 2 ^ 31)
      (fun k _ hk hlt => hk
        (Nat.lt_of_le_of_lt (step_extends (q.step k) (base (q.reachIf k))).accepted hlt))
      hn (by omega)
    rw [(hsuffix n).1, (hI n).2] at hkeep
    exact hkeep (by decide)

/-- `newConnection`, up to where the loop polls again. -/
def establishing : List (ThreadId × Choice Code (Io (List (ChannelId × Events)))) :=
  [(.loop 0, .app .none), (.loop 0, .go), (.loop 0, .app .none), (.loop 0, .app (.poller [])),
    (.loop 0, .app .none), (.loop 0, .ret), (.loop 0, .go), (.loop 0, .go)]

/-- `handleClose`, up to where the loop polls again. -/
def parting : List (ThreadId × Choice Code (Io (List (ChannelId × Events)))) :=
  [(.loop 0, .app .none), (.loop 0, .app .none), (.loop 0, .app .none), (.loop 0, .go),
    (.loop 0, .app .none), (.loop 0, .go), (.loop 0, .ret), (.loop 0, .go), (.loop 0, .go),
    (.loop 0, .app .none), (.loop 0, .app (.poller [])), (.loop 0, .app .none),
    (.loop 0, .app .none), (.loop 0, .go)]

/-- A connection is accepted, or its peer hangs up, and then nothing happens any
more. -/
theorem connections_complete_hangup :
    (∃ r : (lts echoConfig anyPoller).Run,
      RunsAt r 0 (.loop acceptLoop) (.code (.newConnection 7)) ∧
        ∃ m, 0 < m ∧ ∃ u, RunsAt r m u (piece 0 .connectEstablished) ∧
          ∃ k, m < k ∧ RunsAt r k u (piece 0 .connectionCallback)) ∧
    ∃ r : (lts echoConfig anyPoller).Run,
      RunsAt r 0 (.loop acceptLoop) (piece 0 .handleClose) ∧
        ∃ m, ∀ k, m ≤ k → Parted anyPoller (r.state k) 0 := by
  constructor
  · obtain ⟨s, hs, hp⟩ := Lts.exists_reach (lts echoConfig anyPoller)
      (listening [] ++ [(.loop 0, .poll (.poller [(.acceptor, { read := true })]) 0),
        (.loop 0, .app .none), (.loop 0, .app (.accepted (some 7)))])
      (fun s : State (List ChannelId) => decide (s.shared.app.accepted = 0 ∧
          s.stack (.loop 0) =
            [.code (.newConnection 7), .doPendingFunctors 0, .whileNotQuit 0]) &&
        ((lts echoConfig anyPoller).run s establishing).any fun x : State (List ChannelId) =>
          decide (Idles 0 [.poll 0] x ∧ x.shared.app.accepted = 1)) rfl (by decide +kernel)
    obtain ⟨hstart, hrest⟩ := Bool.and_eq_true_iff.mp hp
    obtain ⟨hnone, hstack⟩ := of_decide_eq_true hstart
    obtain ⟨x, hx, hend⟩ := (Option.any_eq_true _ _).mp hrest
    obtain ⟨hidle, hacc⟩ := of_decide_eq_true hend
    obtain ⟨q, hq, hlabel, hfair, hbound⟩ := exists_idle_after hs hx hidle hacc
    have hrun : RunsAt q 0 (.loop acceptLoop) (.code (.newConnection 7)) :=
      ⟨by rw [hlabel _ rfl]; rfl, _, by rw [hq]; exact hstack⟩
    have hestablished := (connections_complete hfair hbound).1 0 _ _ hrun
    rw [hq, hnone] at hestablished
    exact ⟨q, hrun, hestablished⟩
  · obtain ⟨s, hs, hp⟩ := Lts.exists_reach (lts echoConfig anyPoller)
      (connecting.append [(.loop 0, .ret), (.loop 0, .go), (.loop 0, .go),
        (.loop 0, .poll (.poller [(.conn 0, { close := true })]) 0), (.loop 0, .app .none)])
      (fun s : State (List ChannelId) => decide (s.stack (.loop 0) =
          [piece 0 .handleClose, .doPendingFunctors 0, .whileNotQuit 0]) &&
        ((lts echoConfig anyPoller).run s parting).any fun x : State (List ChannelId) =>
          decide (Idles 0 [.poll 0] x ∧ x.shared.app.accepted = 1)) rfl (by decide +kernel)
    obtain ⟨hclosing, hrest⟩ := Bool.and_eq_true_iff.mp hp
    have hstack := of_decide_eq_true hclosing
    obtain ⟨x, hx, hend⟩ := (Option.any_eq_true _ _).mp hrest
    obtain ⟨hidle, hacc⟩ := of_decide_eq_true hend
    obtain ⟨q, hq, hlabel, hfair, hbound⟩ := exists_idle_after hs hx hidle hacc
    have hrun : RunsAt q 0 (.loop acceptLoop) (piece 0 .handleClose) :=
      ⟨by rw [hlabel _ rfl]; rfl, _, by rw [hq]; exact hstack⟩
    exact ⟨q, hrun, ((connections_complete hfair hbound).2 0 _ 0 hrun).2⟩

end Muduox.Net.TcpServer
