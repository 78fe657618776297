import Muduox.Proofs.HalfClose
import Muduox.Proofs.Lifecycle

/-!
# The order of `state_`

`state_` is atomic, but `shutdown` and `forceClose` test it and store it in two
steps. The loop's thread stores unconditionally: `connectEstablished` before
anything else has happened, `handleClose` whenever the peer or an error asks for
it. So the one store that can go back is `kDisconnecting` by a thread whose test
came before `handleClose`, and after it the connection counts as open again.

The values stored are read off the history; the last of them is what `state_`
holds (`Ascending.last`).
-/

namespace Muduox.Net

/-- The place of a state in `kConnecting < kConnected < kDisconnecting <
kDisconnected`. -/
def ConnState.rank : ConnState → Nat
  | .kConnecting => 0
  | .kConnected => 1
  | .kDisconnecting => 2
  | .kDisconnected => 3

/-- What a piece stores in `state_`. -/
def ConnCode.stores : ConnCode → Option ConnState
  | .connectEstablished => some .kConnected
  | .storeShutdown | .storeForceClose => some .kDisconnecting
  | .handleClose => some .kDisconnected
  | _ => none

def Event.stores : Event → Option ConnState
  | .ran k => k.stores
  | _ => none

/-- The values `state_` has had, the one it was constructed with first. -/
def stored (log : List Event) : List ConnState := .kConnecting :: log.filterMap Event.stores

/-- `state_` never went back. -/
def NeverBack (log : List Event) : Prop := ((stored log).map ConnState.rank).Pairwise (· ≤ ·)

theorem stored_append (log evs : List Event) :
    stored (log ++ evs) = stored log ++ evs.filterMap Event.stores := by
  rw [stored, List.filterMap_append, ← List.cons_append]
  rfl

namespace TcpServer

open Threads Reactor TcpConnection

variable {P E : Type} {cfg : ServerConfig} {poller : Poller P E}

/-- `kDisconnecting` is stored only while `handleClose` has not run. -/
def StoresOpen (s : State P) (b : ThreadId × Choice Code (Io E)) : Prop :=
  ∀ c ∈ (s.stack b.1).head?.bind storesTo, .ran .handleClose ∉ s.shared.app.log c

instance (s : State P) (b : ThreadId × Choice Code (Io E)) : Decidable (StoresOpen s b) :=
  inferInstanceAs (Decidable (∀ c ∈ (s.stack b.1).head?.bind storesTo, _))

/-- The values of `state_` ascend to the one it holds. -/
structure Ascending (x : TcpConnection) (log : List Event) : Prop where
  last : (stored log).getLast? = some x.state_
  below : ∀ v ∈ stored log, v.rank ≤ x.state_.rank
  sorted : NeverBack log
  closed : x.state_ = .kDisconnected → .ran .handleClose ∈ log

theorem Ascending.new {x : TcpConnection} (h : x.state_ = .kConnecting) : Ascending x [] := by
  refine ⟨by rw [h]; rfl, fun v hv => ?_, List.pairwise_singleton .., fun hs => ?_⟩
  · rw [List.mem_singleton.mp hv, h]
  · rw [h] at hs
    cases hs

/-- Events that store nothing. -/
theorem Ascending.quiet {x x' : TcpConnection} {log evs : List Event} (h : Ascending x log)
    (hs : x'.state_ = x.state_) (he : evs.filterMap Event.stores = []) :
    Ascending x' (log ++ evs) := by
  have hstored : stored (log ++ evs) = stored log := by
    rw [stored_append, he, List.append_nil]
  refine ⟨?_, ?_, ?_, fun hd => ?_⟩
  · rw [hstored, hs]
    exact h.last
  · rw [hstored, hs]
    exact h.below
  · rw [NeverBack, hstored]
    exact h.sorted
  · exact List.mem_append_left _ (h.closed (hs ▸ hd))

/-- A store that does not go back. -/
theorem Ascending.store {x x' : TcpConnection} {log evs : List Event} {v : ConnState}
    (h : Ascending x log) (he : evs.filterMap Event.stores = [v]) (hs : x'.state_ = v)
    (hle : x.state_.rank ≤ v.rank)
    (hclosed : v = .kDisconnected → .ran .handleClose ∈ log ++ evs) :
    Ascending x' (log ++ evs) := by
  have hbelow : ∀ w ∈ stored log, w.rank ≤ v.rank := fun w hw =>
    Nat.le_trans (h.below w hw) hle
  refine ⟨?_, fun w hw => ?_, ?_, fun hd => hclosed (hs ▸ hd)⟩
  · rw [stored_append, he, hs, List.getLast?_append]
    rfl
  · rw [stored_append, he] at hw
    rw [hs]
    rcases List.mem_append.mp hw with hw | hw
    · exact hbelow w hw
    · rw [List.mem_singleton.mp hw]
  · rw [NeverBack, stored_append, he, List.map_append, List.pairwise_append]
    refine ⟨h.sorted, List.pairwise_singleton .., fun a ha b hb => ?_⟩
    obtain ⟨w, hw, rfl⟩ := List.mem_map.mp ha
    rw [List.mem_singleton.mp hb]
    exact hbelow w hw

/-- Nothing a piece reports beside itself is a store. -/
theorem connRuns_quiet {c : ConnId} {t : ThreadId} {x x' : TcpConnection} {k : ConnCode}
    {io : Io E} {evs : List Event} {next : List (Frame Code)} (h : x.Runs c t k io x' evs next) :
    evs.filterMap Event.stores = [] := by
  rw [List.filterMap_eq_nil_iff]
  intro e he
  cases e with
  | ran j => exact absurd he ((connRuns_events h).1 j)
  | _ => rfl

/-- A piece stores what its name says. -/
theorem connRuns_state {c : ConnId} {t : ThreadId} {x x' : TcpConnection} {k : ConnCode}
    {io : Io E} {evs : List Event} {next : List (Frame Code)} (h : x.Runs c t k io x' evs next) :
    x'.state_ = (k.stores).getD x.state_ := by
  cases h with
  | sendBufferHere _ _ hx | sentPart _ _ _ _ _ hx | queued _ _ hx => exact hx.state
  | _ => rfl

theorem Ascending.piece {c : ConnId} {t : ThreadId} {x x' : TcpConnection} {k : ConnCode}
    {io : Io E} {evs log : List Event} {next : List (Frame Code)} (h : Ascending x log)
    (hr : x.Runs c t k io x' evs next) (hfirst : k = .connectEstablished → log = [])
    (hopen : k.stores = some .kDisconnecting → .ran .handleClose ∉ log) :
    Ascending x' (log ++ .ran k :: evs) := by
  have hstate := connRuns_state hr
  have hevs : (Event.ran k :: evs).filterMap Event.stores = k.stores.toList := by
    rw [List.filterMap_cons, connRuns_quiet hr, show (Event.ran k).stores = k.stores from rfl]
    cases k.stores <;> rfl
  cases hv : k.stores with
  | none =>
      rw [hv] at hstate hevs
      exact h.quiet hstate hevs
  | some v =>
      rw [hv] at hstate hevs
      refine h.store hevs hstate ?_ fun hd => ?_
      · cases v with
        | kConnecting => cases k <;> cases hv
        | kConnected =>
            have hk : k = .connectEstablished := by cases k <;> first | rfl | cases hv
            have hlast := h.last
            rw [hfirst hk] at hlast
            rw [← Option.some.inj hlast]
            exact Nat.zero_le 1
        | kDisconnecting =>
            cases hx : x.state_ with
            | kDisconnected => exact absurd (h.closed hx) (hopen hv)
            | _ => decide
        | kDisconnected => cases x.state_ <;> decide
      · have hk : k = .handleClose := by
          subst hd
          cases k <;> first | rfl | cases hv
        rw [hk]
        exact List.mem_append_right _ List.mem_cons_self

theorem ascending_step {s s' : State P} {b : ThreadId × Choice Code (Io E)}
    (hr : (lts cfg poller).ReachIf StoresOpen s)
    (h : ∀ c, Ascending (s.shared.app.conn c) (s.shared.app.log c)) (hc : StoresOpen s b)
    (hs : (lts cfg poller).step s b = some s') (c : ConnId) :
    Ascending (s'.shared.app.conn c) (s'.shared.app.log c) := by
  obtain ⟨t, ch⟩ := b
  cases step_conn hs (base hr) (wrapped hr) c with
  | @piece k _ _ _ _ ht hch hruns hlog hs' =>
      rw [hlog]
      refine (h c).piece hruns (fun hk => nothing_before hr (hk ▸ ht)) fun hk => hc c ?_
      rw [ht]
      cases k <;> first | rfl | cases hk
  | idle hi =>
      obtain ⟨r, hx⟩ := hi.conn
      rcases hi.log with he | ⟨b, he⟩
      · rw [he, hx, ← List.append_nil (s.shared.app.log c)]
        exact (h c).quiet rfl rfl
      · rw [he, hx]
        exact (h c).quiet rfl rfl
  | new _ hconn hlog =>
      rw [hlog]
      exact .new (by rw [hconn.eq])

/-- Along every run in which no thread stores `kDisconnecting` after
`handleClose` has run, the values of `state_` never go back, and a closed
connection stays closed. -/
theorem state_never_back {s : State P} (h : (lts cfg poller).ReachIf StoresOpen s)
    (c : ConnId) : NeverBack (s.shared.app.log c) ∧
      (stored (s.shared.app.log c)).getLast? = some (s.shared.app.conn c).state_ ∧
      (.kDisconnected ∈ stored (s.shared.app.log c) →
        (s.shared.app.conn c).state_ = .kDisconnected) := by
  have hasc : Ascending (s.shared.app.conn c) (s.shared.app.log c) :=
    run_inv (I := fun s => ∀ c, Ascending (s.shared.app.conn c) (s.shared.app.log c)) h
      (fun _ => .new rfl) (fun hr hI hc hs => ascending_step hr hI hc hs) c
  refine ⟨hasc.sorted, hasc.last, fun hd => ?_⟩
  have hle := hasc.below _ hd
  cases hx : (s.shared.app.conn c).state_ with
  | kDisconnected => rfl
  | _ =>
      rw [hx] at hle
      exact absurd hle (by decide)

/-- The first callback shuts its connection down, and the peer closes it. -/
theorem state_never_back_closed :
    ∃ s : State (List ChannelId),
      stored (s.shared.app.log 0) = [.kConnecting, .kConnected, .kDisconnecting, .kDisconnected] ∧
        NeverBack (s.shared.app.log 0) := by
  obtain ⟨s, hs, hp⟩ := Lts.exists_reachIf (lts echoConfig anyPoller) StoresOpen
    (connecting.append [(.loop 0, .call (.conn 0 .shutdown)), (.loop 0, .app .none),
      (.loop 0, .app .none), (.loop 0, .go), (.loop 0, .app .none), (.loop 0, .ret),
      (.loop 0, .go), (.loop 0, .go),
      (.loop 0, .poll (.poller [(.conn 0, { close := true })]) 0), (.loop 0, .app .none),
      (.loop 0, .app .none)])
    (fun s => decide (stored (s.shared.app.log 0) =
      [.kConnecting, .kConnected, .kDisconnecting, .kDisconnected])) rfl (by decide +kernel)
  exact ⟨s, of_decide_eq_true hp, (state_never_back hs 0).1⟩

/-- Thread 1 is between the test and the store of `shutdown()` when the peer's
close arrives. -/
theorem shutdown_reopens :
    ¬ ∀ (s : State (List ChannelId)) (c : ConnId), (lts echoConfig anyPoller).Reach s →
      NeverBack (s.shared.app.log c) := by
  intro h
  obtain ⟨s, hs, hp⟩ := Lts.exists_reach (lts echoConfig anyPoller)
    (connecting.append [(.user 1, .call (.conn 0 .shutdown)), (.user 1, .app .none),
      (.loop 0, .ret), (.loop 0, .go), (.loop 0, .go),
      (.loop 0, .poll (.poller [(.conn 0, { close := true })]) 0), (.loop 0, .app .none),
      (.loop 0, .app .none), (.user 1, .app .none)])
    (fun s => decide (stored (s.shared.app.log 0) =
      [.kConnecting, .kConnected, .kDisconnected, .kDisconnecting])) rfl (by decide +kernel)
  have hback := h s 0 hs
  rw [NeverBack, of_decide_eq_true hp] at hback
  exact absurd hback (by decide)

end TcpServer

end Muduox.Net
