import Mathlib.Data.Int.CardIntervalMod
import Muduox.Proofs.ServerBase

/-!
# Connections are dealt out in turn

`getNextLoop` keeps an index and `newConnection` keeps a count, and nothing else
touches either, so the index is the count modulo the number of loops. A
connection never changes its loop. So the loop of a connection is known from its
number, and how many a loop has been given from how many there are.
-/

namespace Muduox.Net.TcpServer

open Threads Reactor

variable {P E : Type} {cfg : ServerConfig} {poller : Poller P E}

/-- How many connections were given to loop `l`. -/
def load (s : TcpServer P) (l : LoopId) : Nat :=
  Nat.count (fun c => (s.conn c).loop_ = l) s.accepted

/-- The loop that is dealt connection `c`. -/
def dealt (cfg : ServerConfig) (c : ConnId) : LoopId :=
  if cfg.threadNum_ = 0 then acceptLoop else c % cfg.threadNum_ + 1

structure Dealt (cfg : ServerConfig) (s : TcpServer P) : Prop where
  next : cfg.threadNum_ ≠ 0 → s.next_ = s.accepted % cfg.threadNum_
  loop : ∀ c, c < s.accepted → (s.conn c).loop_ = dealt cfg c

variable {s s' : TcpServer P} {t : ThreadId} {a : Code}

theorem Dealt.keep (h : Dealt cfg s) (hext : Extends s s') (hacc : s'.accepted = s.accepted)
    (hnext : s'.next_ = s.next_) : Dealt cfg s' := by
  refine ⟨fun hn => by rw [hnext, hacc]; exact h.next hn, fun c hc => ?_⟩
  rw [hacc] at hc
  rw [hext.loop c hc]
  exact h.loop c hc

theorem getNextLoop_dealt (h : Dealt cfg s) : (getNextLoop cfg s).1 = dealt cfg s.accepted ∧
    (cfg.threadNum_ ≠ 0 → (getNextLoop cfg s).2 = (s.accepted + 1) % cfg.threadNum_) := by
  unfold getNextLoop dealt
  split
  · next hz => exact ⟨rfl, fun hn => absurd hz hn⟩
  · next hz => exact ⟨by rw [h.next hz], fun _ => by rw [h.next hz, Nat.mod_add_mod]⟩

theorem Dealt.newConnection (h : Dealt cfg s) (fd : Int) :
    Dealt cfg (newConnection cfg s fd).1 := by
  obtain ⟨hloop, hnext⟩ := getNextLoop_dealt h
  refine ⟨hnext, fun c hc => ?_⟩
  rcases Nat.lt_succ_iff_lt_or_eq.mp hc with hlt | rfl
  · rw [(newConnection_extends s fd).loop c hlt]
    exact h.loop c hlt
  · show (Function.update s.conn s.accepted _ s.accepted).loop_ = _
    rw [Function.update_self]
    exact hloop

theorem runs_dealt {io : Io E} {next : List (Frame Code)} (h : Runs cfg poller t s a io s' next)
    (hs : Dealt cfg s) (hext : Extends s s') : Dealt cfg s' := by
  cases h with
  | newConnection => exact hs.newConnection _
  | @handleEvent ch =>
      exact hs.keep hext (setChannel_revents s ch kNoneEvent).accepted (by cases ch <;> rfl)
  | _ => exact hs.keep hext rfl rfl

theorem dealt_run {s : State P} (h : (lts cfg poller).Reach s) : Dealt cfg s.shared.app := by
  have hinv : AppInv (Dealt cfg) (fun _ _ _ => True) s := by
    refine run_inv h ⟨⟨fun _ => (Nat.zero_mod _).symm, fun c hc => absurd hc (Nat.not_lt_zero _)⟩,
      fun _ _ _ _ _ => trivial, fun _ _ _ _ _ => trivial⟩ fun {s b s'} hr hI _ hs => ?_
    have hbase := base hr
    refine hI.step hs (sound hr) (fun ht _ hx _ => ?_) (fun _ _ _ hx => ?_) fun _ _ => trivial
    · have hb := hbase.all.stack _ _ (by rw [ht]; exact List.mem_cons_self) _ rfl
      obtain ⟨_, _, hext⟩ := runs_base (exec_runs hx) hbase.app hb
      exact ⟨runs_dealt (exec_runs hx) hI.app hext, fun _ _ _ _ => trivial, fun _ _ _ => trivial⟩
    · obtain ⟨_, q, _, _, hr, _⟩ := poll_revents hx
      refine ⟨hI.app.keep (poll_base hx hbase.app).2.2 hr.accepted ?_, fun _ _ => trivial,
        fun _ _ _ => trivial⟩
      rw [hr.rest]
      rfl
  exact hinv.app

theorem count_congr {p q : Nat → Prop} [DecidablePred p] [DecidablePred q] {n : Nat}
    (h : ∀ c < n, p c ↔ q c) : Nat.count p n = Nat.count q n :=
  Nat.le_antisymm (Nat.count_mono_left fun c hc => (h c hc).mp)
    (Nat.count_mono_left fun c hc => (h c hc).mpr)

/-- How many of the first `n` connections are dealt to loop `l` of `k`. -/
theorem count_dealt {k : Nat} (hk : 0 < k) (n l : Nat) :
    Nat.count (fun c => c % k + 1 = l) n =
      if 1 ≤ l ∧ l ≤ k then n / k + if l ≤ n % k then 1 else 0 else 0 := by
  split
  · next hl =>
      have hmod : (l - 1) % k = l - 1 := Nat.mod_eq_of_lt (by omega)
      rw [count_congr (q := (· ≡ l - 1 [MOD k])) fun c _ => ?_, Nat.count_modEq_card n hk, hmod]
      · exact congrArg _ (if_congr (by omega) rfl rfl)
      · rw [Nat.ModEq, hmod]
        omega
  · next hl =>
      refine Nat.count_iff_forall_not.mpr fun c _ hc => hl ?_
      have := Nat.mod_lt c hk
      omega

/-- Of `n` connections dealt out, each of `k` loops has `n / k`, and the first
`n % k` of them have one more; no other loop has any. -/
theorem loops_balanced {s : State P} (h : (lts cfg poller).Reach s) (l : LoopId) :
    load s.shared.app l =
      if cfg.threadNum_ = 0 then if l = acceptLoop then s.shared.app.accepted else 0
      else if 1 ≤ l ∧ l ≤ cfg.threadNum_ then
        s.shared.app.accepted / cfg.threadNum_ +
          if l ≤ s.shared.app.accepted % cfg.threadNum_ then 1 else 0
      else 0 := by
  have hd := dealt_run h
  rw [load, count_congr (q := fun c => dealt cfg c = l) fun c hc => by rw [hd.loop c hc]]
  by_cases hk : cfg.threadNum_ = 0
  · rw [if_pos hk]
    split
    · next hl => exact Nat.count_iff_forall.mpr fun c _ => by rw [dealt, if_pos hk, hl]
    · next hl =>
        refine Nat.count_iff_forall_not.mpr fun c _ hc => hl ?_
        rw [dealt, if_pos hk] at hc
        exact hc.symm
  · rw [if_neg hk, ← count_dealt (Nat.pos_of_ne_zero hk)]
    exact count_congr fun c _ => by rw [dealt, if_neg hk]

/-- Three connections for two loops. -/
theorem loops_balanced_three : ∃ s : State (List ChannelId), s.shared.app.accepted = 3 ∧
    load s.shared.app 1 = 2 ∧ load s.shared.app 2 = 1 := by
  obtain ⟨s, hs, hp⟩ := Lts.exists_reach (lts { echoConfig with threadNum_ := 2 } anyPoller)
    (listening [] ++ (List.replicate 3
      [(.loop 0, .poll (.poller [(.acceptor, { read := true })]) 0), (.loop 0, .app .none),
        (.loop 0, .app (.accepted (some 7))), (.loop 0, .app .none), (.loop 0, .go),
        (.loop 0, .go), (.loop 0, .moved 8), (.loop 0, .go), (.loop 0, .go)]).flatten)
    (fun s => decide (s.shared.app.accepted = 3)) rfl (by decide)
  have hacc := of_decide_eq_true hp
  refine ⟨s, hacc, ?_, ?_⟩ <;> rw [loops_balanced hs, hacc] <;> decide

end Muduox.Net.TcpServer
