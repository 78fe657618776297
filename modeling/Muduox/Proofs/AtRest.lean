import Muduox.Proofs.ClosedSockets

/-!
# Nothing is left of a closed connection

A connection that was closed, by its peer, by an error or by `forceClose`, goes
through its connection callback, `removeConnection`, the accept loop and back to
its own loop before it is gone. Until the accept loop has removed it, one of the
loops has the next of these steps on its stack or in its queue (`onward`), which
is a count that every step keeps (`ReactorTally`). So when every loop waits in
`poll` with nothing queued, the connection was removed, its `connectDestroyed`
has run, and nothing owns it any more.
-/

namespace Muduox.Net.TcpServer

open Threads Reactor TcpConnection

variable {P E : Type} {cfg : ServerConfig} {poller : Poller P E}
  {C : State P → ThreadId × Choice Code (Io E) → Prop} {s s' : State P} {c : ConnId}
  {t : ThreadId} {ch : Choice Code (Io E)} {a : Code}

/-- Every loop of the server waits in `poll`, and nothing is queued for it. -/
def AtRest (cfg : ServerConfig) (s : State P) : Prop :=
  ∀ l ∈ loops cfg, (s.stack (.loop l)).head? = some (.poll l) ∧
    (s.shared.loop l).pendingFunctors_ = []

/-! ## The way to the accept loop -/

/-- Whether code takes connection `c` on from its close to its removal. -/
def onward (c : ConnId) (a : Code) : Nat :=
  if a = .conn c .connectionCallback ∨ a = .removeConnection c ∨
    a = .removeConnectionInLoop c then 1 else 0

theorem onward_ne_zero : onward c a ≠ 0 ↔
    a = .conn c .connectionCallback ∨ a = .removeConnection c ∨ a = .removeConnectionInLoop c := by
  unfold onward
  split
  · next h => simp [h]
  · next h => simp [h]

theorem api_onward {x : TcpServer P} (h : api t x a = true) : onward c a = 0 := by
  by_contra hne
  rcases onward_ne_zero.mp hne with rfl | rfl | rfl <;> cases h

theorem poll_onward {l : LoopId} {io : Io E} {x : TcpServer P}
    {r : TcpServer P × Option (List Code)} (h : poll poller l io x = some r) :
    ∀ b ∈ r.2.getD [], onward c b = 0 := by
  intro b hb
  obtain ⟨ch, rfl⟩ := poll_codes h b hb
  rfl

/-- It stays with the server's loops. -/
theorem runs_onward {io : Io E} {x x' : TcpServer P} {next : List (Frame Code)}
    (h : Runs cfg poller t x a io x' next) (hb : Bound t a x) (hreg : Registry cfg x)
    (ha : onward c a ≠ 0 → ∃ l ∈ loops cfg, t = .loop l) :
    ∀ g ∈ next, g.weight (onward c) ≠ 0 →
      (∃ l ∈ loops cfg, t = .loop l) ∧ g.visits (loops cfg) := by
  intro g hg hw
  have hloops : ∀ {l}, l ≤ cfg.threadNum_ → l ∈ loops cfg := fun hl =>
    Finset.mem_range.mpr (Nat.lt_succ_of_le hl)
  cases h with
  | @conn d k _ _ _ _ h =>
      have hhome : k.anyThread = false → ∃ l ∈ loops cfg, t = .loop l := fun hk =>
        ⟨_, hloops (hreg.loop d hb.1), hb.2.2 hk⟩
      cases h.leaves g hg with
      | connectionCallback hk => rcases hk with rfl | rfl <;> exact ⟨hhome rfl, trivial⟩
      | removeConnection => exact ⟨hhome rfl, trivial⟩
      | _ => exact absurd hw (by simp [Frame.weight, Frame.payload, onward])
  | handleEvent =>
      rcases mem_handleEvent hg with
        ⟨_, rfl⟩ | ⟨_, _, _, rfl, ⟨_, rfl⟩ | ⟨_, rfl⟩ | ⟨_, rfl⟩ | ⟨_, rfl⟩⟩ <;>
          exact absurd hw (by simp [Frame.weight, Frame.payload, onward])
  | @removeConnection d =>
      rw [List.mem_singleton.mp hg] at hw ⊢
      rcases onward_ne_zero.mp hw with he | he | he
      · cases he
      · cases he
      · cases he
        exact ⟨ha (onward_ne_zero.mpr (.inr (.inl rfl))), hloops (Nat.zero_le _), trivial⟩
  | removeConnectionInLoop =>
      rw [mem_removeConnectionInLoop hg] at hw
      exact absurd hw (by simp [Frame.weight, Frame.payload, onward])
  | accept | listen | newConnection =>
      rw [List.mem_singleton.mp hg] at hw
      exact absurd hw (by simp [Frame.weight, Frame.payload, onward])
  | update | remove | acceptFailed => cases hg

/-! ## From the close to the removal -/

/-- A connection that was closed never comes up again. -/
theorem closed_shut (h : (lts cfg poller).ReachIf C s) :
    .ran .handleClose ∈ s.shared.app.log c → Shut s.shared.app c := by
  refine run_inv (I := fun s => .ran .handleClose ∈ s.shared.app.log c → Shut s.shared.app c) h
    (fun hc => by cases hc) fun {s b s'} hr hI _ hs hc => ?_
  obtain ⟨t, ch⟩ := b
  have hext := step_extends hs (base hr)
  have hconn := step_conn hs (base hr) (wrapped hr) c
  cases hconn with
  | @piece k io evs next rest ht hch hx hlog hs' =>
      have hbound : Bound t _ s.shared.app :=
        (base hr).all.stack t _ (by rw [ht]; exact List.mem_cons_self) _ rfl
      by_cases hk : k = .handleClose
      · subst hk
        refine ⟨hext.established (hbound.2.1 (by simp)), ?_⟩
        generalize s'.shared.app.conn c = x' at hx
        cases hx
        simp
      · have hold : .ran .handleClose ∈ s.shared.app.log c := by
          rw [hlog] at hc
          rcases List.mem_append.mp hc with hc | hc
          · exact hc
          · rcases List.mem_cons.mp hc with he | he
            · cases he
              exact absurd rfl hk
            · exact absurd he ((connRuns_events hx).1 _)
        obtain ⟨hest, hup⟩ := hI hold
        refine ⟨hext.established hest, connRuns_connected hx ?_ hup⟩
        rintro rfl
        rw [nothing_before hr ht] at hold
        cases hold
  | idle hi =>
      have hold : .ran .handleClose ∈ s.shared.app.log c := by
        rcases hi.log with he | ⟨b, he⟩ <;> rw [he] at hc
        · exact hc
        · simpa using hc
      obtain ⟨hest, hup⟩ := hI hold
      obtain ⟨r, hx⟩ := hi.conn
      refine ⟨hext.established hest, ?_⟩
      rw [hx]
      exact hup
  | new _ _ hlog =>
      rw [hlog] at hc
      cases hc

/-- A connection that was closed is on its way, or was removed. -/
structure GoesOn (cfg : ServerConfig) (c : ConnId) (s : State P) : Prop where
  within : Within (onward c) (loops cfg) s
  going : .ran .handleClose ∈ s.shared.app.log c →
    Removed s.shared.app c ∨ tally (onward c) (loops cfg) s ≠ 0

theorem removed_removeConnectionInLoop (s : TcpServer P) (c : ConnId) :
    Removed (s.removeConnectionInLoop c).1 c := by
  have hlog : (s.removeConnectionInLoop c).1.log c =
      s.log c ++ [.removed (s.connections_ (s.conn c).name_).isSome] := Function.update_self ..
  unfold Removed
  rw [hlog]
  cases (s.connections_ (s.conn c).name_).isSome
  · exact .inr (List.mem_append_right _ List.mem_cons_self)
  · exact .inl (List.mem_append_right _ List.mem_cons_self)

/-- What a piece of code leaves when a closed connection waits for it. -/
theorem runs_goesOn {io : Io E} {x x' : TcpServer P} {next : List (Frame Code)}
    (h : Runs cfg poller t x a io x' next)
    (hup : a = .conn c .connectionCallback → (x.conn c).state_ ≠ .kConnected)
    (ha : onward c a ≠ 0 ∨ a = .conn c .handleClose) :
    Removed x' c ∨ weigh (onward c) next ≠ 0 := by
  have hleft : ∀ {b : Code} {g : Frame Code}, g ∈ next → g.payload = some b → onward c b ≠ 0 →
      weigh (onward c) next ≠ 0 := by
    intro b g hg hb hw hz
    have hle := le_weigh (v := onward c) hg
    rw [hz, show g.weight (onward c) = onward c b by rw [Frame.weight, hb]] at hle
    omega
  rcases ha with ha | rfl
  · rcases onward_ne_zero.mp ha with rfl | rfl | rfl
    · refine .inr ?_
      cases h with
      | conn h =>
          cases h with
          | connectionUp h => exact absurd h (hup rfl)
          | connectionDown =>
              exact hleft List.mem_cons_self rfl (onward_ne_zero.mpr (.inr (.inl rfl)))
    · refine .inr ?_
      cases h with
      | removeConnection =>
          exact hleft List.mem_cons_self rfl (onward_ne_zero.mpr (.inr (.inr rfl)))
    · refine .inl ?_
      cases h with
      | removeConnectionInLoop => exact removed_removeConnectionInLoop x c
  · refine .inr ?_
    cases h with
    | conn h =>
        cases h with
        | handleClose => exact hleft List.mem_cons_self rfl (onward_ne_zero.mpr (.inl rfl))

theorem goesOn_step (hr : (lts cfg poller).ReachIf C s) (h : GoesOn cfg c s)
    (hs : (lts cfg poller).step s (t, ch) = some s') : GoesOn cfg c s' := by
  have hext := step_extends hs (base hr)
  have hbound : ∀ {a rest}, s.stack t = .code a :: rest → Bound t a s.shared.app := fun ht =>
    (base hr).all.stack t _ (by rw [ht]; exact List.mem_cons_self) _ rfl
  have hhome : ∀ {a rest}, s.stack t = .code a :: rest → onward c a ≠ 0 →
      ∃ l ∈ loops cfg, t = .loop l := fun {a _} ht hw =>
    (h.within.stack t (.code a) (by rw [ht]; exact List.mem_cons_self) hw).1
  obtain ⟨hwithin, hacc⟩ := tally_step hs (sound hr) h.within
    (fun ht hx => runs_onward (exec_runs hx) (hbound ht) (registry hr) (hhome ht))
    (fun hx => poll_onward hx) fun ha => api_onward ha
  refine ⟨hwithin, fun hc => ?_⟩
  have hremoved : Removed s.shared.app c → Removed s'.shared.app c := fun hrem =>
    hrem.imp (fun h => (hext.log c).subset h) fun h => (hext.log c).subset h
  cases hacc with
  | @code a io next rest ht hx htally =>
      have hruns := exec_runs hx
      by_cases hclose : a = .conn c .handleClose
      · rcases runs_goesOn hruns (fun he => by rw [hclose] at he; cases he) (.inr hclose) with
          hrem | hw
        · exact .inl hrem
        · have hz : onward c a = 0 := by
            rw [hclose]
            exact if_neg (by simp)
          exact .inr (by omega)
      · have hold := (runs_mem_ran hruns hc).resolve_right hclose
        rcases h.going hold with hrem | htally₀
        · exact .inl (hremoved hrem)
        · by_cases hw : onward c a = 0
          · exact .inr (by omega)
          · have hle : onward c a ≤ 1 := by
              unfold onward
              split <;> omega
            rcases runs_goesOn hruns (fun _ => (closed_shut hr hold).2) (.inl hw) with hrem | hnext
            · exact .inl hrem
            · exact .inr (by omega)
  | poll hx htally =>
      obtain ⟨_, q, _, _, hrev, _⟩ := poll_revents hx
      have hlog : s'.shared.app.log = s.shared.app.log := hrev.log
      rw [hlog] at hc
      rw [htally]
      exact (h.going hc).imp hremoved id
  | other hx htally =>
      rw [hx] at hc ⊢
      rw [htally]
      exact h.going hc

theorem goesOn (h : (lts cfg poller).ReachIf C s) (c : ConnId) : GoesOn cfg c s := by
  refine run_inv h ⟨⟨fun t f hf hw => ?_, fun _ _ hq => by cases hq⟩, fun hc => by cases hc⟩
    fun {_ b _} hr hI _ hs => goesOn_step hr hI hs
  rcases started_cases hf with ⟨l, rfl⟩ | rfl | rfl <;>
    exact absurd hw (by simp [Frame.weight, Frame.payload, onward])

/-! ## At rest -/

/-- A loop at `poll` has no code of the server left. -/
theorem rest_stack (hr : (lts cfg poller).ReachIf C s) (hrest : AtRest cfg s) {l : LoopId}
    (hl : l ∈ loops cfg) : ∀ f ∈ s.stack (.loop l), f.payload = none := by
  intro f hf
  obtain ⟨rest, ht⟩ := List.head?_eq_some_iff.mp (hrest l hl).1
  rw [ht] at hf
  rcases List.mem_cons.mp hf with rfl | hf
  · rfl
  · have hturn := poll_rest hr ht f hf
    cases f <;> first | rfl | cases hturn

/-- What is only ever with the server's loops is nowhere then. -/
theorem nowhere_rest (hr : (lts cfg poller).ReachIf C s) (hrest : AtRest cfg s) {v : Code → Nat}
    (h : Within v (loops cfg) s) :
    (∀ t, ∀ f ∈ s.stack t, f.weight v = 0) ∧
      ∀ l, ∀ q ∈ (s.shared.loop l).pendingFunctors_, q.2.weight v = 0 := by
  refine ⟨fun t f hf => ?_, fun l q hq => ?_⟩
  · by_contra hw
    obtain ⟨⟨l, hl, rfl⟩, _⟩ := h.stack t f hf hw
    refine hw ?_
    rw [Frame.weight, rest_stack hr hrest hl f hf]
  · by_contra hw
    rw [(hrest l (h.queue l q hq hw).1).2] at hq
    cases hq

theorem tally_rest (hr : (lts cfg poller).ReachIf C s) (hrest : AtRest cfg s) {v : Code → Nat}
    (h : Within v (loops cfg) s) : tally v (loops cfg) s = 0 := by
  obtain ⟨hstack, hqueue⟩ := nowhere_rest hr hrest h
  by_contra hne
  obtain ⟨t, f, hf, hw⟩ | ⟨l, q, hq, hw⟩ := exists_of_tally hne
  · exact hw (hstack t f hf)
  · exact hw (hqueue l q hq)

/-- No thread and no queue holds a connection. -/
theorem holds_rest (hr : (lts cfg poller).ReachIf C s) (hrest : AtRest cfg s) (c : ConnId) :
    (∀ t, ∀ f ∈ s.stack t, holds c f = false) ∧
      ∀ l, ∀ q ∈ (s.shared.loop l).pendingFunctors_, holds c q.2 = false := by
  have hup := nowhere_rest hr hrest (counted hr (.inl rfl) c).1
  have hdown := nowhere_rest hr hrest (counted hr (.inr rfl) c).1
  have hon := nowhere_rest hr hrest (goesOn hr c).within
  -- The payloads of an owner, but for `resetSocket`, which is never queued.
  have hcase : ∀ f : Frame Code, f.weight (only c .connectEstablished) = 0 →
      f.weight (only c .connectDestroyed) = 0 → f.weight (onward c) = 0 →
      f.payload ≠ some (.conn c .resetSocket) → holds c f = false := by
    intro f h1 h2 h3 h4
    refine Bool.eq_false_iff.mpr fun hh => ?_
    unfold holds at hh
    split at hh
    · next d hd =>
        rw [Frame.weight, hd, eq_of_beq hh] at h1
        exact absurd h1 (by simp [only])
    · next d hd =>
        rw [Frame.weight, hd, eq_of_beq hh] at h2
        exact absurd h2 (by simp [only])
    · next d hd => exact h4 (by rw [hd, eq_of_beq hh])
    · next d hd =>
        rw [Frame.weight, hd, eq_of_beq hh] at h3
        exact absurd h3 (by simp [onward])
    · cases hh
  have hjob : ∀ {cb : Frame Code}, (cb = .user ∨ ∃ a, cb = .code a ∧ Job a) →
      cb.payload ≠ some (.conn c .resetSocket) := by
    rintro cb (rfl | ⟨a, rfl, ha⟩) he
    · cases he
    · cases he
      cases ha
  refine ⟨fun t f hf => hcase f (hup.1 t f hf) (hdown.1 t f hf) (hon.1 t f hf) fun hp => ?_,
    fun l q hq => hcase _ (hup.2 l q hq) (hdown.2 l q hq) (hon.2 l q hq)
      (hjob ((wrapped hr).queue l q hq))⟩
  have hwf : Wrapped f := (wrapped hr).stack t f hf
  cases f with
  | code a =>
      cases hp
      have hbound : Bound t _ s.shared.app := (base hr).all.stack t _ hf _ rfl
      have hl : (s.shared.app.conn c).loop_ ∈ loops cfg :=
        Finset.mem_range.mpr (Nat.lt_succ_of_le ((registry hr).loop c hbound.1))
      rw [hbound.2.2 rfl] at hf
      have hnone := rest_stack hr hrest hl _ hf
      cases hnone
  | runInLoop l cb => exact hjob (wrapped_closed.run hwf).2 hp
  | queueInLoop l cb | functor l cb => exact hjob hwf hp
  | _ => cases hp

/-- Nothing of the server refers to connection `c`, and its descriptor is closed. -/
structure Released (poller : Poller P E) (s : State P) (c : ConnId) : Prop where
  owned : ¬ Owned s c
  map : ∀ n, s.shared.app.connections_ n ≠ some c
  unwatched : ∀ l, ¬ poller.registered (s.shared.app.poller l) (.conn c)
  unused : ∀ t, ∀ f ∈ s.stack t, f.uses c = false
  closed : (s.shared.app.conn c).socket_ = false

/-- Whenever the loops are at rest, every connection that was ever closed is
released. -/
theorem released_at_rest (h : (lts cfg poller).Reach s) (hacc : s.shared.app.accepted < 2 ^ 31)
    (hrest : AtRest cfg s) (hc : .ran .handleClose ∈ s.shared.app.log c) :
    Released poller s c := by
  have hgo := goesOn h c
  have hremoved : Removed s.shared.app c :=
    (hgo.going hc).resolve_right fun hne => hne (tally_rest h hrest hgo.within)
  have hdestroyed : .ran .connectDestroyed ∈ s.shared.app.log c := by
    obtain ⟨hwithin, hcount⟩ := counted h (.inr rfl) c
    have hmade : made s.shared.app c .connectDestroyed = 1 := by
      show (s.shared.app.log c).count (.removed true) = 1
      rw [(registry h).erased hacc c, if_pos hremoved]
    rw [inFlight, tally_rest h hrest hwithin, hmade, Nat.zero_add] at hcount
    exact List.count_pos_iff.mp (by rw [ran] at hcount; omega)
  have hest : Established s.shared.app c := (closed_shut h hc).1
  have hreset : .ran .resetSocket ∈ s.shared.app.log c := by
    refine (returns_run h c hdestroyed).resolve_right fun hmem => ?_
    have hl : (s.shared.app.conn c).loop_ ∈ loops cfg :=
      Finset.mem_range.mpr (Nat.lt_succ_of_le ((registry h).loop c hest.1))
    have hnone := rest_stack h hrest hl _ hmem
    cases hnone
  obtain ⟨hunwatched, hunused⟩ := closed_quiet h hacc hreset
  obtain ⟨hstack, hqueue⟩ := holds_rest h hrest c
  have hmap : ∀ n, s.shared.app.connections_ n ≠ some c := fun n hn =>
    (((registry h).map hacc n c).mp hn).2.2 hremoved
  refine ⟨?_, hmap, hunwatched, hunused, (socket_reset h c).mp hreset⟩
  rintro (hn | ⟨t, f, hf, hh⟩ | ⟨l, q, hq, hh⟩)
  · exact hmap _ hn
  · rw [hstack t f hf] at hh
    cases hh
  · rw [hqueue l q hq] at hh
    cases hh

/-- The peer of a connection hangs up, and the loop goes back to `poll`. -/
theorem released_at_rest_hangup :
    ∃ s : State (List ChannelId), s.shared.app.accepted = 1 ∧ Released anyPoller s 0 := by
  obtain ⟨s, hs, hp⟩ := Lts.exists_reach (lts echoConfig anyPoller)
    (connecting.append [(.loop 0, .ret), (.loop 0, .go), (.loop 0, .go),
      (.loop 0, .poll (.poller [(.conn 0, { close := true })]) 0), (.loop 0, .app .none),
      (.loop 0, .app .none), (.loop 0, .app .none), (.loop 0, .app .none), (.loop 0, .go),
      (.loop 0, .app .none), (.loop 0, .go), (.loop 0, .ret), (.loop 0, .go), (.loop 0, .go),
      (.loop 0, .app .none), (.loop 0, .app (.poller [])), (.loop 0, .app .none),
      (.loop 0, .app .none), (.loop 0, .go)])
    (fun s => decide (s.shared.app.accepted = 1 ∧ .ran .handleClose ∈ s.shared.app.log 0 ∧
      (s.stack (.loop 0)).head? = some (.poll 0) ∧
      (s.shared.loop 0).pendingFunctors_ = [])) rfl (by decide +kernel)
  obtain ⟨hacc, hran, htop, hqueue⟩ := of_decide_eq_true hp
  refine ⟨s, hacc, released_at_rest hs (by rw [hacc]; decide) (fun l hl => ?_) hran⟩
  obtain rfl : l = 0 := Nat.lt_one_iff.mp (Finset.mem_range.mp hl)
  exact ⟨htop, hqueue⟩

end Muduox.Net.TcpServer
