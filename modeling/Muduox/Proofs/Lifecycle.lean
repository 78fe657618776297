import Muduox.Proofs.ConnectionNames
import Muduox.Proofs.ConnectionRuns
import Muduox.Proofs.ReactorTally

/-!
# The life of a connection

A connection is closed on its IO loop, removed on the accept loop, and destroyed
on its IO loop again, through three functor queues, while more events arrive on
it. What keeps this in order is counted: `newConnection` makes one
`connectEstablished`, and every `removeConnectionInLoop` that finds the entry
makes one `connectDestroyed`. A functor that was made is in flight until it runs
(`once_step`), and the map erases an entry once.

`connectDestroyed` is never handed to `runInLoop`, so it reaches a stack through
`doPendingFunctors` alone, and by then the dispatch over the active channels is
done (`Deferred`).
-/

namespace Muduox.Net

/-- The two pieces that are made once for each connection. -/
def ConnCode.once (k : ConnCode) : Prop := k = .connectEstablished ∨ k = .connectDestroyed

namespace TcpServer

open Threads Reactor TcpConnection

variable {P E : Type} {cfg : ServerConfig} {poller : Poller P E}

/-- The loops of a server. -/
def loops (cfg : ServerConfig) : Finset LoopId := Finset.range (cfg.threadNum_ + 1)

/-- The weight that counts piece `k` of connection `c`. -/
def only (c : ConnId) (k : ConnCode) (a : Code) : Nat := if a = .conn c k then 1 else 0

/-- How many calls of piece `k` of connection `c` are queued or about to run. -/
def inFlight (cfg : ServerConfig) (c : ConnId) (k : ConnCode) (s : State P) : Nat :=
  tally (only c k) (loops cfg) s

/-- How often piece `k` of connection `c` ran. -/
def ran (s : TcpServer P) (c : ConnId) (k : ConnCode) : Nat := (s.log c).count (.ran k)

/-- How often they were made. -/
def made (s : TcpServer P) (c : ConnId) : ConnCode → Nat
  | .connectEstablished => if c < s.accepted then 1 else 0
  | .connectDestroyed => (s.log c).count (.removed true)
  | _ => 0

section Steps

variable {c : ConnId} {k : ConnCode} {t : ThreadId} {s s' : TcpServer P} {a : Code}

/-- No piece of a connection leaves one of the two. -/
theorem connRuns_once {d : ConnId} {x x' : TcpConnection} {j : ConnCode} {io : Io E}
    {evs : List Event} {next : List (Frame Code)} (hk : ConnCode.once k)
    (h : x.Runs d t j io x' evs next) : ∀ g ∈ next, g.weight (only c k) = 0 := by
  intro g hg
  cases h.leaves g hg with
  | user | update | remove | removeConnection => rfl
  | _ => rcases hk with rfl | rfl <;> exact if_neg (by simp)

theorem api_once (hk : ConnCode.once k) (h : api t s a = true) : only c k a = 0 := by
  refine if_neg fun he => ?_
  subst he
  rcases hk with rfl | rfl <;> cases h

theorem poll_once {l : LoopId} {io : Io E} {r : TcpServer P × Option (List Code)}
    (h : poll poller l io s = some r) : ∀ b ∈ r.2.getD [], only c k b = 0 := by
  intro b hb
  obtain ⟨ch, rfl⟩ := poll_codes h b hb
  rfl

/-- A new connection has its `connectEstablished` made. -/
theorem newConnection_made (hk : ConnCode.once k) (fd : Int) :
    weigh (only c k) (newConnection cfg s fd).2 + made s c k =
      made (newConnection cfg s fd).1 c k := by
  rcases hk with rfl | rfl
  · show weigh _ [Frame.runInLoop _ (TcpConnection.piece s.accepted .connectEstablished)] +
      (if c < s.accepted then 1 else 0) = if c < s.accepted + 1 then 1 else 0
    rw [weigh_cons, weigh_nil]
    by_cases hc : c = s.accepted
    · subst hc
      simp [Frame.weight, Frame.payload, only]
    · have hw : only c .connectEstablished (.conn s.accepted .connectEstablished) = 0 :=
        if_neg fun he => hc (Code.conn.inj he).1.symm
      have hlt : c < s.accepted + 1 ↔ c < s.accepted := by
        constructor
        · intro h
          exact (Nat.lt_succ_iff_lt_or_eq.mp h).resolve_right hc
        · exact Nat.lt_succ_of_lt
      simp [Frame.weight, Frame.payload, hw, hlt]
  · show weigh _ [Frame.runInLoop _ (TcpConnection.piece s.accepted .connectEstablished)] +
      (s.log c).count _ = (s.log c).count _
    simp [Frame.weight, Frame.payload, only]

/-- A connection taken out of the map has its `connectDestroyed` made. -/
theorem removeConnectionInLoop_made (hk : ConnCode.once k) (d : ConnId) :
    weigh (only c k) (s.removeConnectionInLoop d).2 + made s c k =
      made (s.removeConnectionInLoop d).1 c k := by
  have hlog : (s.removeConnectionInLoop d).1.log =
    Function.update s.log d (s.log d ++
      [.removed (s.connections_ (s.conn d).name_).isSome]) := rfl
  have hnext : (s.removeConnectionInLoop d).2 =
    if (s.connections_ (s.conn d).name_).isSome then
      [.queueInLoop (s.conn d).loop_ (TcpConnection.piece d .connectDestroyed)]
    else [] := rfl
  rw [hnext]
  rcases hk with rfl | rfl
  · show _ + (if c < s.accepted then 1 else 0) = if c < s.accepted then 1 else 0
    split <;> simp [Frame.weight, Frame.payload, only]
  · show _ + (s.log c).count _ = ((s.removeConnectionInLoop d).1.log c).count _
    rw [hlog]
    by_cases hc : c = d
    · subst hc
      rw [Function.update_self, List.count_append]
      cases (s.connections_ (s.conn c).name_).isSome <;>
        simp [Frame.weight, Frame.payload, only, Nat.add_comm]
    · have hw : only c .connectDestroyed (.conn d .connectDestroyed) = 0 :=
        if_neg fun he => hc (Code.conn.inj he).1.symm
      rw [Function.update_of_ne hc]
      split <;> simp [Frame.weight, Frame.payload, hw]

/-- What a piece of code leaves of the two is what was made, on its way to the
loop of the connection. -/
theorem runs_once {io : Io E} {next : List (Frame Code)} (hk : ConnCode.once k)
    (h : Runs cfg poller t s a io s' next) (hb : Bound t a s) (hreg : Registry cfg s) :
    weigh (only c k) next + made s c k = made s' c k ∧
      ∀ g ∈ next, g.weight (only c k) ≠ 0 →
        (∃ l ∈ loops cfg, t = .loop l) ∧ g.visits (loops cfg) := by
  have hnone : (∀ g ∈ next, g.weight (only c k) = 0) → made s' c k = made s c k →
      weigh (only c k) next + made s c k = made s' c k ∧
        ∀ g ∈ next, g.weight (only c k) ≠ 0 →
          (∃ l ∈ loops cfg, t = .loop l) ∧ g.visits (loops cfg) := by
    intro hw hm
    rw [weigh_eq_zero hw, hm, Nat.zero_add]
    exact ⟨rfl, fun g hg hne => absurd (hw g hg) hne⟩
  have hloops : ∀ {l}, l ≤ cfg.threadNum_ → l ∈ loops cfg := fun hl =>
    Finset.mem_range.mpr (Nat.lt_succ_of_le hl)
  cases h with
  | @conn d j io x evs next h =>
      refine hnone (connRuns_once hk h) ?_
      rcases hk with rfl | rfl
      · rfl
      · show (Function.update s.log d _ c).count _ = _
        by_cases hd : c = d
        · subst hd
          rw [Function.update_self, List.count_append, List.count_cons_of_ne (by simp),
            List.count_eq_zero.mpr ((connRuns_events h).2 true)]
          rfl
        · rw [Function.update_of_ne hd]
          rfl
  | @handleEvent ch =>
      have hr : (s.handleEvent ch).1 = _ := (setChannel_revents s ch kNoneEvent).rest
      refine hnone (fun g hg => ?_) ?_
      · rcases mem_handleEvent hg with ⟨_, rfl⟩ | ⟨_, _, _, rfl, hj⟩
        · rfl
        · refine if_neg fun he => ?_
          cases he
          rcases hj with ⟨_, rfl⟩ | ⟨_, rfl⟩ | ⟨_, rfl⟩ | ⟨_, rfl⟩ <;> rcases hk with hk | hk <;>
            cases hk
      · rw [hr]
        rcases hk with rfl | rfl <;> rfl
  | @newConnection fd ht =>
      have hl : (getNextLoop cfg s).1 ∈ loops cfg := by
        refine hloops ?_
        unfold getNextLoop
        split
        · exact Nat.zero_le _
        · next hz => exact hreg.next.resolve_left hz
      refine ⟨newConnection_made hk fd, fun g hg _ => ⟨⟨0, hloops (Nat.zero_le _), ht⟩, ?_⟩⟩
      rw [List.mem_singleton.mp hg]
      exact ⟨hl, trivial⟩
  | @removeConnectionInLoop d ht =>
      refine ⟨removeConnectionInLoop_made hk d,
        fun g hg _ => ⟨⟨0, hloops (Nat.zero_le _), ht⟩, ?_⟩⟩
      rw [mem_removeConnectionInLoop hg]
      exact ⟨hloops (hreg.loop d hb.1.1), trivial⟩
  | removeConnection | accept =>
      refine hnone (by simp [Frame.weight, Frame.payload, only]) ?_
      rcases hk with rfl | rfl <;> rfl
  | listen =>
      refine hnone (by simp [TcpServer.listen, Frame.weight, Frame.payload, only]) ?_
      rcases hk with rfl | rfl <;> rfl
  | update | remove | acceptFailed =>
      refine hnone (by simp) ?_
      rcases hk with rfl | rfl <;> rfl

/-- A piece is on record when it ran. -/
theorem runs_ran {io : Io E} {next : List (Frame Code)} (h : Runs cfg poller t s a io s' next)
    (c : ConnId) (k : ConnCode) : ran s' c k = ran s c k + only c k a := by
  unfold ran
  cases runs_touches h c with
  | @piece j io evs next h hlog =>
      rw [hlog, List.count_append, List.count_cons, List.count_eq_zero.mpr ((connRuns_events h).1 k),
        Nat.zero_add, only]
      simp
  | idle ha h =>
      rw [only, if_neg (ha k)]
      rcases h.log with he | ⟨b, he⟩ <;> rw [he]
      · rfl
      · rw [List.count_append, List.count_cons_of_ne (by simp)]
        rfl
  | new hc h hlog =>
      rw [hlog]
      rfl

end Steps

theorem weight_started (c : ConnId) (k : ConnCode) :
    ∀ t, ∀ f ∈ (started poller).stack t, f.weight (only c k) = 0 := by
  intro t f hf
  rcases started_cases hf with ⟨l, rfl⟩ | rfl | rfl <;> rfl

/-- Each of the two pieces runs as often as it was made, once those in flight
have run, and those in flight are with the server's loops. -/
theorem counted {C : State P → ThreadId × Choice Code (Io E) → Prop} {s : State P}
    (h : (lts cfg poller).ReachIf C s) {k : ConnCode} (hk : ConnCode.once k) (c : ConnId) :
    Within (only c k) (loops cfg) s ∧
      inFlight cfg c k s + ran s.shared.app c k = made s.shared.app c k := by
  refine run_inv (I := fun s => Within (only c k) (loops cfg) s ∧
    inFlight cfg c k s + ran s.shared.app c k = made s.shared.app c k) h ?_
    fun {s b s'} hr hI _ hs => ?_
  · have hw : ∀ t, ∀ f ∈ (started poller).stack t, f.weight (only c k) = 0 := weight_started c k
    refine ⟨⟨fun t f hf hne => absurd (hw t f hf) hne, fun _ _ hq => by cases hq⟩, ?_⟩
    have htally : inFlight cfg c k (started poller) = 0 := by
      by_contra hne
      obtain ⟨t, f, hf, hfw⟩ | ⟨_, _, hq, _⟩ := exists_of_tally hne
      · exact hfw (hw t f hf)
      · cases hq
    rw [htally]
    rcases hk with rfl | rfl <;> rfl
  · obtain ⟨t, ch⟩ := b
    have hbound : ∀ {a rest}, s.stack t = .code a :: rest → Bound t a s.shared.app := fun ht =>
      (base hr).all.stack t _ (by rw [ht]; exact List.mem_cons_self) _ rfl
    obtain ⟨hwithin, hacc⟩ := tally_step hs (sound hr) hI.1
      (fun ht hx => (runs_once hk (exec_runs hx) (hbound ht) (registry hr)).2)
      (fun hx => poll_once hx) fun ha => api_once hk ha
    refine ⟨hwithin, ?_⟩
    have hold := hI.2
    unfold inFlight at hold ⊢
    cases hacc with
    | code ht hx htally =>
        have hruns := exec_runs hx
        have hmade := (runs_once (c := c) hk hruns (hbound ht) (registry hr)).1
        have hran := runs_ran hruns c k
        omega
    | poll hx htally =>
        obtain ⟨_, q, _, _, hrev, _⟩ := poll_revents hx
        have hrest : s'.shared.app = _ := hrev.rest
        have hran : ran s'.shared.app c k = ran s.shared.app c k := by
          unfold ran
          rw [hrest]
          rfl
        rw [htally, hran, hold, hrest]
        rcases hk with rfl | rfl <;> rfl
    | other hx htally => rw [htally, hx, hold]

/-- When `connectEstablished` is about to run, nothing has happened yet. -/
theorem nothing_before {C : State P → ThreadId × Choice Code (Io E) → Prop} {s : State P}
    (h : (lts cfg poller).ReachIf C s) {c : ConnId} {t : ThreadId} {rest : List (Frame Code)}
    (ht : s.stack t = TcpConnection.piece c .connectEstablished :: rest) :
    s.shared.app.log c = [] := by
  obtain ⟨hwithin, hcount⟩ := counted h (.inl rfl) c
  have hle := hwithin.le_tally (by rw [ht]; exact List.mem_cons_self)
  rw [show (TcpConnection.piece c .connectEstablished).weight (only c .connectEstablished) = 1
    from if_pos rfl] at hle
  have hmade : made s.shared.app c .connectEstablished ≤ 1 := by
    show (if _ then 1 else 0) ≤ 1
    split <;> omega
  have hran : ran s.shared.app c .connectEstablished = 0 := by
    unfold inFlight at hcount
    omega
  by_contra hne
  have hhead := (base h).app.first c hne
  exact List.count_eq_zero.mp hran (List.mem_of_mem_head? hhead)

/-! ## `connectDestroyed` waits for the dispatch to end -/

/-- What only `doPendingFunctors` puts on a stack. -/
def deferred : Frame Code → Bool
  | .functor _ _ | .code (.conn _ .connectDestroyed) => true
  | _ => false

/-- Below deferred code, `doPendingFunctors` is no longer to run. -/
def Deferred (g b : Frame Code) : Prop := deferred g = true → ∀ l, b ≠ .doPendingFunctors l

theorem pairwise_deferred {l : List (Frame Code)} (h : ∀ g ∈ l, deferred g = false) :
    l.Pairwise Deferred := by
  refine List.pairwise_of_forall_mem_list fun g hg _ _ hd => ?_
  rw [h g hg] at hd
  cases hd

theorem connRuns_deferred {c : ConnId} {t : ThreadId} {x x' : TcpConnection} {k : ConnCode}
    {io : Io E} {evs : List Event} {next : List (Frame Code)}
    (h : x.Runs c t k io x' evs next) : ∀ g ∈ next, deferred g = false := by
  intro g hg
  cases h.leaves g hg <;> rfl

theorem runs_deferred {t : ThreadId} {a : Code} {io : Io E} {s s' : TcpServer P}
    {next : List (Frame Code)} (h : Runs cfg poller t s a io s' next) :
    ∀ g ∈ next, deferred g = false := by
  cases h with
  | conn h => exact connRuns_deferred h
  | handleEvent =>
      intro g hg
      rcases mem_handleEvent hg with
        ⟨_, rfl⟩ | ⟨_, _, _, rfl, ⟨_, rfl⟩ | ⟨_, rfl⟩ | ⟨_, rfl⟩ | ⟨_, rfl⟩⟩ <;>
          rfl
  | removeConnectionInLoop =>
      intro g hg
      rw [mem_removeConnectionInLoop hg]
      rfl
  | _ => simp [TcpServer.listen, TcpServer.newConnection, deferred]

theorem deferred_step {s s' : State P} {b : ThreadId × Choice Code (Io E)}
    (hs : (lts cfg poller).step s b = some s') (hsound : Sound s) (hwrap : Static Wrapped s)
    (h : Ordered Deferred s) : Ordered Deferred s' := by
  obtain ⟨t, ch⟩ := b
  obtain ⟨f, rest, x, next, ht, hr, rfl⟩ := step_runs hs
  have hwf : Wrapped f := hwrap.stack t f (by rw [ht]; exact List.mem_cons_self)
  -- Code that is not deferred may lie on top of anything.
  have hquiet : (∀ g ∈ next, deferred g = false) →
      Ordered Deferred (s.resume t x next rest) := by
    intro hn
    refine h.resume ht (pairwise_deferred hn) fun b _ _ g hg hd => ?_
    rw [hn g hg] at hd
    cases hd
  cases hr with
  | @call a ha =>
      refine hquiet fun g hg => ?_
      simp only [List.mem_cons, List.not_mem_nil, or_false] at hg
      rcases hg with rfl | rfl
      · unfold deferred
        split
        · next he => cases he
        · next he => cases he; cases ha
        · rfl
      · rfl
  | code hx => exact hquiet (runs_deferred (exec_runs hx))
  | runHere =>
      refine hquiet fun g hg => ?_
      rw [List.mem_singleton.mp hg]
      rcases hwf with rfl | ⟨a, rfl, _, hne⟩
      · rfl
      · unfold deferred
        split
        · next he => cases he
        · next c he => exact absurd (Frame.code.inj he) (hne c)
        · rfl
  | polled hx =>
      refine hquiet fun g hg => ?_
      rcases mem_iteration hg with ⟨b, hb, rfl⟩ | rfl | rfl | rfl
      · obtain ⟨ch, rfl⟩ := polled_handleEvent hx hb
        rfl
      · rfl
      · rfl
      · rfl
  | doPendingFunctors =>
      obtain ⟨rfl, hbelow⟩ := hsound.doPendingFunctors_top ht
      refine h.resume ht ?_ fun b hb _ _ _ _ l he => hbelow l (he ▸ hb)
      refine List.pairwise_of_forall_mem_list fun _ _ g hg _ l he => ?_
      obtain ⟨_, _, hf⟩ := List.mem_map.mp hg
      rw [he] at hf
      cases hf
  | functor =>
      exact h.resume ht (List.pairwise_singleton ..) fun b _ hfb _ _ _ => hfb rfl
  | _ => exact hquiet (by simp [deferred])

theorem deferred_started : Ordered Deferred (started poller) := by
  intro t
  refine pairwise_deferred fun f hf => ?_
  rcases started_cases hf with ⟨l, rfl⟩ | rfl | rfl <;> rfl

theorem deferred_run {C : State P → ThreadId × Choice Code (Io E) → Prop} {s : State P}
    (h : (lts cfg poller).ReachIf C s) : Ordered Deferred s :=
  run_inv h deferred_started fun hr hI _ hs => deferred_step hs (sound hr) (wrapped hr) hI

/-! ## Who owns a connection -/

/-- A functor that holds connection `c`, or the rest of `connectDestroyed`, which
its functor runs. -/
def holds (c : ConnId) (f : Frame Code) : Bool :=
  match f.payload with
  | some (.conn d .connectEstablished) | some (.conn d .connectDestroyed)
  | some (.conn d .resetSocket) | some (.removeConnectionInLoop d) => d == c
  | _ => false

/-- The map, or a functor that is queued or running, owns connection `c`. -/
def Owned (s : State P) (c : ConnId) : Prop :=
  s.shared.app.connections_ (s.shared.app.conn c).name_ = some c ∨
    (∃ t, ∃ f ∈ s.stack t, holds c f = true) ∨
      ∃ l, ∃ q ∈ (s.shared.loop l).pendingFunctors_, holds c q.2 = true

/-- `connectDestroyed` runs to its end. -/
def Returns (s : State P) (c : ConnId) : Prop :=
  .ran .connectDestroyed ∈ s.shared.app.log c → .ran .resetSocket ∈ s.shared.app.log c ∨
    TcpConnection.piece c .resetSocket ∈ s.stack (.loop (s.shared.app.conn c).loop_)

theorem connRuns_destroyed {c : ConnId} {t : ThreadId} {x x' : TcpConnection} {io : Io E}
    {evs : List Event} {next : List (Frame Code)}
    (h : x.Runs c t .connectDestroyed io x' evs next) :
    t = .loop x.loop_ ∧ TcpConnection.piece c .resetSocket ∈ next := by
  cases h with
  | connectDestroyed ht => exact ⟨ht, by simp⟩

theorem returns_step {s s' : State P} {t : ThreadId} {ch : Choice Code (Io E)} {c : ConnId}
    (h : Returns s c) (hs : ConnStep cfg c t ch s s') : Returns s' c := by
  intro hmem
  cases hs with
  | @piece k io evs next rest ht hch hr hlog hs' =>
      obtain ⟨hl, _⟩ := connRuns_const hr
      rw [hlog] at hmem ⊢
      rw [hl]
      by_cases hkd : k = .connectDestroyed
      · subst hkd
        obtain ⟨rfl, hnext⟩ := connRuns_destroyed hr
        refine .inr ?_
        rw [hs', Config.resume_stack_self]
        exact List.mem_append_left _ hnext
      · have hold : .ran .connectDestroyed ∈ s.shared.app.log c := by
          rcases List.mem_append.mp hmem with h | h
          · exact h
          · rcases List.mem_cons.mp h with he | he
            · exact absurd (Event.ran.inj he).symm hkd
            · exact absurd he ((connRuns_events hr).1 _)
        rcases h hold with hran | hstack
        · exact .inl (List.mem_append_left _ hran)
        · by_cases hk : k = .resetSocket
          · subst hk
            exact .inl (List.mem_append_right _ List.mem_cons_self)
          · refine .inr ?_
            rw [hs']
            exact Config.mem_resume ht hstack (.inl fun he => hk (by cases he; rfl))
  | idle hi hstack =>
      obtain ⟨r, hx⟩ := hi.conn
      have hl : (s'.shared.app.conn c).loop_ = (s.shared.app.conn c).loop_ := by rw [hx]
      rw [hl, hstack _ _ rfl]
      rcases hi.log with he | ⟨b, he⟩
      · rw [he] at hmem ⊢
        exact h hmem
      · rw [he] at hmem ⊢
        exact (h (by simpa using hmem)).imp_left (List.mem_append_left _)
  | new _ _ hlog =>
      rw [hlog] at hmem
      cases hmem

theorem returns_run {C : State P → ThreadId × Choice Code (Io E) → Prop} {s : State P}
    (h : (lts cfg poller).ReachIf C s) (c : ConnId) : Returns s c :=
  run_inv (I := fun s => Returns s c) h (fun hmem => by cases hmem) fun hr hI _ hs =>
    returns_step hI (step_conn hs (base hr) (wrapped hr) c)

theorem holds_of_weight {c : ConnId} {k : ConnCode} {f : Frame Code} (hk : ConnCode.once k)
    (h : f.weight (only c k) ≠ 0) : holds c f = true := by
  unfold Frame.weight at h
  unfold holds
  split at h
  · next a ha =>
      have he : a = .conn c k := by
        by_contra hne
        exact h (if_neg hne)
      rw [ha, he]
      rcases hk with rfl | rfl <;> exact beq_self_eq_true c
  · exact absurd rfl h

theorem owned {C : State P → ThreadId × Choice Code (Io E) → Prop} {s : State P}
    (h : (lts cfg poller).ReachIf C s) (hacc : s.shared.app.accepted < 2 ^ 31) {c : ConnId}
    (hc : c < s.shared.app.accepted) (hlive : .ran .resetSocket ∉ s.shared.app.log c) :
    Owned s c := by
  have hreg := registry h
  by_cases hr : Removed s.shared.app c
  · right
    have hcount : inFlight cfg c .connectDestroyed s + ran s.shared.app c .connectDestroyed =
        (s.shared.app.log c).count (.removed true) := (counted h (.inr rfl) c).2
    rw [hreg.erased hacc, if_pos hr] at hcount
    by_cases hz : inFlight cfg c .connectDestroyed s = 0
    · have hran : .ran .connectDestroyed ∈ s.shared.app.log c := by
        rw [← List.count_pos_iff]
        unfold ran at hcount
        omega
      have hstack := (returns_run h c hran).resolve_left hlive
      exact .inl ⟨_, _, hstack, beq_self_eq_true c⟩
    · obtain ⟨t, f, hf, hw⟩ | ⟨l, q, hq, hw⟩ := exists_of_tally hz
      · exact .inl ⟨t, f, hf, holds_of_weight (.inr rfl) hw⟩
      · exact .inr ⟨l, q, hq, holds_of_weight (.inr rfl) hw⟩
  · exact .inl ((hreg.map hacc _ c).mpr ⟨hc, rfl, hr⟩)

/-! ## The life of a connection -/

/-- In `s`, every connection has gone through its life so far once and in order. -/
structure Lifecycle (cfg : ServerConfig) (s : State P) : Prop where
  /-- Names are pairwise distinct. -/
  names : ∀ c d, c < s.shared.app.accepted → d < s.shared.app.accepted →
    (s.shared.app.conn c).name_ = (s.shared.app.conn d).name_ → c = d
  /-- The next entry overwrites none. -/
  fresh : s.shared.app.accepted + 1 < 2 ^ 31 →
    s.shared.app.connections_ (connName cfg s.shared.app.nextConnId_) = none
  map : ∀ n c, s.shared.app.connections_ n = some c ↔
    c < s.shared.app.accepted ∧ (s.shared.app.conn c).name_ = n ∧ ¬ Removed s.shared.app c
  /-- What is counted as in flight is all there is. -/
  within : ∀ c k, ConnCode.once k → Within (only c k) (loops cfg) s
  established : ∀ c,
    inFlight cfg c .connectEstablished s + ran s.shared.app c .connectEstablished =
      if c < s.shared.app.accepted then 1 else 0
  /-- `connectEstablished` comes before everything else. -/
  first : ∀ c, s.shared.app.log c ≠ [] →
    (s.shared.app.log c).head? = some (.ran .connectEstablished)
  /-- `connectDestroyed` is queued by the removal that erases the entry, which
  is one of them. -/
  erased : ∀ c, (s.shared.app.log c).count (.removed true) =
    if Removed s.shared.app c then 1 else 0
  destroyed : ∀ c,
    inFlight cfg c .connectDestroyed s + ran s.shared.app c .connectDestroyed =
      (s.shared.app.log c).count (.removed true)
  /-- When `connectDestroyed` is about to run, it is on its loop's thread, and
  that loop is past the dispatch over the active channels. -/
  deferred : ∀ c t rest, s.stack t = TcpConnection.piece c .connectDestroyed :: rest →
    t = .loop (s.shared.app.conn c).loop_ ∧
      .doPendingFunctors (s.shared.app.conn c).loop_ ∉ s.stack t
  /-- Until `connectDestroyed` returns, the connection has an owner. -/
  owned : ∀ c, c < s.shared.app.accepted → .ran .resetSocket ∉ s.shared.app.log c → Owned s c

/-- Along every run with fewer than `2^31` accepted connections. -/
theorem lifecycle_once {s : State P} (h : (lts cfg poller).Reach s)
    (hacc : s.shared.app.accepted < 2 ^ 31) : Lifecycle cfg s where
  names _ _ hc hd := (registry h).inj hacc hc hd
  fresh := (registry h).fresh
  map := (registry h).map hacc
  within c _ hk := (counted h hk c).1
  established c := (counted h (.inl rfl) c).2
  first := (base h).app.first
  erased := (registry h).erased hacc
  destroyed c := (counted h (.inr rfl) c).2
  deferred c t rest ht := by
    have hbound : Bound t (.conn c .connectDestroyed) s.shared.app :=
      (base h).all.stack t _ (by rw [ht]; exact List.mem_cons_self) _ rfl
    refine ⟨hbound.2.2 rfl, fun hmem => ?_⟩
    have hord := deferred_run h t
    rw [ht, List.pairwise_cons] at hord
    rw [ht] at hmem
    exact hord.1 _ ((List.mem_cons.mp hmem).resolve_left (by simp)) rfl _ rfl
  owned _ hc := owned h hacc hc

/-- A connection that was accepted and closed. -/
theorem lifecycle_once_closed :
    ∃ s : State (List ChannelId), s.shared.app.accepted < 2 ^ 31 ∧
      .ran .resetSocket ∈ s.shared.app.log 0 ∧ Lifecycle echoConfig s := by
  obtain ⟨s, hs, hp⟩ := Lts.exists_reach (lts echoConfig anyPoller)
    (connecting.append [(.loop 0, .ret), (.loop 0, .go), (.loop 0, .go),
      (.loop 0, .poll (.poller [(.conn 0, { close := true })]) 0), (.loop 0, .app .none),
      (.loop 0, .app .none), (.loop 0, .app .none), (.loop 0, .app .none), (.loop 0, .go),
      (.loop 0, .app .none), (.loop 0, .go), (.loop 0, .ret), (.loop 0, .go), (.loop 0, .go),
      (.loop 0, .app .none), (.loop 0, .app (.poller [])), (.loop 0, .app .none),
      (.loop 0, .app .none)])
    (fun s => decide (s.shared.app.accepted < 2 ^ 31 ∧
      .ran .resetSocket ∈ s.shared.app.log 0)) rfl (by decide +kernel)
  obtain ⟨hacc, hran⟩ := of_decide_eq_true hp
  exact ⟨s, hacc, hran, lifecycle_once hs hacc⟩

end TcpServer

end Muduox.Net
