import Muduox.Net.IocpPort
import Muduox.Proofs.IocpContexts

/-!
# No stale completion

A context outlives its channel: `removeChannel` clears its `channel` and keeps it
in `deadContexts_`. So its block is never given out again, the address in a
packet leads back to the context the operation was posted through, and the
channel found there is the one that has this very context now, or none. What
`contextFromOverlapped` reads in the middle of a context begins with the byte of
`readPending`, which is 0 or 1 and not the first byte of `kMagic`.
-/

namespace Muduox.Net

namespace ContextLayout

variable {L : ContextLayout} {mem : Memory} {a : Nat}

/-- `readPending` is not taken for a magic. -/
theorem uint32_ne_magic (h : mem a = 0 ∨ mem a = 1) : mem.uint32 a ≠ kMagic := by
  unfold Memory.uint32 kMagic
  rcases h with h | h
  · rw [h, UInt8.toNat_zero]
    omega
  · rw [h, UInt8.toNat_one]
    omega

/-- Both guesses are right about a context in memory. -/
theorem contextFromOverlapped_overlapped (hmagic : mem.uint32 a = kMagic)
    (hpending : mem (a + L.readPending) = 0 ∨ mem (a + L.readPending) = 1) (isRead : Bool) :
    L.contextFromOverlapped mem (L.overlapped a isRead) = some (a, isRead) := by
  cases isRead with
  | true => simp [contextFromOverlapped, overlapped, hmagic]
  | false =>
      have hmiddle : a + L.writeOl - L.readOl = a + L.readPending := by
        have := L.apart
        omega
      have hno := uint32_ne_magic hpending
      simp [contextFromOverlapped, overlapped, hmiddle, hno, hmagic]

end ContextLayout

namespace IocpPort

open IocpPoller IocpRound ContextLayout

variable {K : Type} {L : ContextLayout} {s s' : IocpPort K}

/-- No completion is taken for another context's or reported for a channel that
has another context by now, and no context is freed under an operation. -/
structure NotStale (L : ContextLayout) (s : IocpPort K) : Prop where
  /-- The address of an operation leads back to its context. -/
  recovered : ∀ i isRead mem, s.destroyed = false → 0 < (s.operation i isRead).outstanding →
    s.Laid L mem →
    L.contextFromOverlapped mem (L.overlapped (s.address i) isRead) = some (s.address i, isRead) ∧
      s.contextAt (s.address i) = some i
  /-- A channel found for a completion is registered, with the context that the
  operation was posted through. -/
  current : ∀ i k, (i, k) ∈ s.completions → s.poller.context_ k = some i
  /-- What is pushed was found for a completion. -/
  pushed : ∀ k ∈ s.completed, ∃ i, (i, k) ∈ s.completions
  kept : ∀ i isRead, s.destroyed = false → 0 < (s.operation i isRead).outstanding → i ∉ s.freed

/-- Where the contexts are, and what a round has found. -/
structure Placed (L : ContextLayout) (s : IocpPort K) : Prop where
  sound : s.poller.Sound
  freed : s.destroyed = false → s.freed = []
  apart : s.destroyed = false → ∀ i < s.poller.allocated, ∀ j < s.poller.allocated, i ≠ j →
    s.address i ≠ s.address j
  current : ∀ i k, (i, k) ∈ s.completions → s.poller.context_ k = some i
  pushed : ∀ k ∈ s.completed, ∃ i, (i, k) ∈ s.completions
  round : ∀ r ∈ s.round, s.destroyed = false ∧ r.poller = s.poller ∧ Found s.poller r ∧
    ∀ k ∈ r.found, ∃ i, (i, k) ∈ s.completions

theorem Placed.allocated (h : Placed L s) {i : Nat} {isRead : Bool}
    (hout : 0 < (s.operation i isRead).outstanding) : i < s.poller.allocated := by
  by_contra hi
  unfold operation at hout
  rw [h.sound.fresh i (by omega)] at hout
  cases isRead <;> simp at hout

/-- Contexts are told apart by their addresses. -/
theorem Placed.contextAt (h : Placed L s) (hd : s.destroyed = false) {i : Nat}
    (hi : i < s.poller.allocated) : s.contextAt (s.address i) = some i := by
  cases hfind : s.contextAt (s.address i) with
  | none =>
      have hno := List.find?_eq_none.mp hfind i (List.mem_range.mpr hi)
      simp at hno
  | some j =>
      have hat : s.address j = s.address i := by
        have := List.find?_some hfind
        simpa using this
      have hj : j < s.poller.allocated := List.mem_range.mp (List.mem_of_find?_eq_some hfind)
      by_cases hij : i = j
      · rw [hij]
      · exact absurd hat.symm (h.apart hd i hi j hj hij)

theorem Placed.recovered (h : Placed L s) {i : Nat} {isRead : Bool} {mem : Memory}
    (hd : s.destroyed = false) (hout : 0 < (s.operation i isRead).outstanding)
    (hmem : s.Laid L mem) :
    L.contextFromOverlapped mem (L.overlapped (s.address i) isRead) = some (s.address i, isRead) ∧
      s.contextAt (s.address i) = some i := by
  have hi := h.allocated hout
  obtain ⟨hmagic, hpending⟩ := hmem i hi (by rw [h.freed hd]; exact List.not_mem_nil)
  refine ⟨contextFromOverlapped_overlapped hmagic ?_ isRead, h.contextAt hd hi⟩
  rw [hpending]
  split
  · exact .inr rfl
  · exact .inl rfl

theorem Placed.notStale (h : Placed L s) : NotStale L s :=
  ⟨fun _ _ _ hd hout hmem => h.recovered hd hout hmem, h.current, h.pushed,
    fun _ _ hd _ => by rw [h.freed hd]; exact List.not_mem_nil⟩

section Step

variable [DecidableEq K] {k : K}

/-- `updateChannel` allocates one context at most. -/
theorem updateChannel_allocated {p q : IocpPoller K} {x : Channel} {bound acceptConn : Bool}
    (hq : p.updateChannel k x bound acceptConn = some q) : q.allocated ≤ p.allocated + 1 := by
  unfold IocpPoller.updateChannel at hq
  split at hq
  · split at hq <;> cases hq
    · exact Nat.le_refl _
    · exact Nat.le_succ _
  · split at hq <;> cases hq
    exact Nat.le_succ _

theorem removeChannel_allocated {p q : IocpPoller K} {x : Channel}
    (hq : p.removeChannel k x = some q) : q.allocated = p.allocated := by
  obtain ⟨_, _, rfl⟩ := Option.map_eq_some_iff.mp hq
  rfl

omit [DecidableEq K] in
theorem found_renew {p : IocpPoller K} {r : IocpRound K} (h : Found p r) : Found r.poller r :=
  ⟨h.sound, .refl _, rfl, fun k hk => by rw [h.same.context_]; exact h.found k hk, h.revents⟩

/-- A new context is at an address of its own. -/
theorem placed_update {p : IocpPoller K} {x : Channel} {bound acceptConn : Bool} {a : Nat}
    (h : Placed L s) (hd : s.destroyed = false) (hround : s.round = none) (hfree : s.Free L a)
    (hp : s.poller.updateChannel k x bound acceptConn = some p) :
    Placed L
      { s with
        poller := p
        channel := Function.update s.channel k x
        address := Function.update s.address s.poller.allocated a
        completions := []
        completed := [] } := by
  have hle := updateChannel_allocated hp
  have hfresh : ∀ i < s.poller.allocated, s.address i ≠ a := by
    intro i hi he
    have hapart := hfree i hi (by rw [h.freed hd]; exact List.not_mem_nil)
    have := L.nonempty
    omega
  refine ⟨h.sound.updateChannel hp, h.freed, fun _ i hi j hj hij => ?_, by simp, by simp,
    by simp [hround]⟩
  have hi' : i < p.allocated := hi
  have hj' : j < p.allocated := hj
  show Function.update s.address s.poller.allocated a i ≠
    Function.update s.address s.poller.allocated a j
  by_cases hin : i = s.poller.allocated
  · rw [hin, Function.update_self, Function.update_of_ne (by omega)]
    exact (hfresh j (by omega)).symm
  · rw [Function.update_of_ne hin]
    by_cases hjn : j = s.poller.allocated
    · rw [hjn, Function.update_self]
      exact hfresh i (by omega)
    · rw [Function.update_of_ne hjn]
      exact h.apart hd i (by omega) j (by omega) hij

theorem placed_remove {p : IocpPoller K} {x : Channel} (h : Placed L s) (hround : s.round = none)
    (hp : s.poller.removeChannel k x = some p) :
    Placed L { s with poller := p, completions := [], completed := [] } := by
  refine ⟨h.sound.removeChannel hp, h.freed, fun hd i hi j hj => ?_, by simp, by simp,
    by simp [hround]⟩
  have hsame := removeChannel_allocated hp
  exact h.apart hd i (hsame ▸ hi) j (hsame ▸ hj)

theorem placed_poll {p : IocpPoller K} {e : IocpChoice K} (h : Placed L s)
    (hd : s.destroyed = false) (hp : s.poller.retryPosts s.channel e = some p) :
    Placed L
      { s with poller := p, round := some { poller := p }, completions := [], completed := [] } := by
  obtain ⟨q, hq, hsound, hretried⟩ := retryPosts_retried h.sound s.channel e
  rw [hp] at hq
  cases hq
  refine ⟨hsound, h.freed, fun hd i hi j hj => ?_, by simp, by simp, fun r hr => ?_⟩
  · have hsame := hretried.same.allocated
    exact h.apart hd i (hsame ▸ hi) j (hsame ▸ hj)
  · cases hr
    exact ⟨hd, rfl, .start hsound, by simp⟩

/-- The packet of an operation that is outstanding is taken for that operation. -/
theorem placed_packet {r : IocpRound K} {i : Nat} {isRead ok posted : Bool} {mem : Memory}
    (h : Placed L s) (hr : s.round = some r) (hout : 0 < (s.operation i isRead).outstanding)
    (hmem : s.Laid L mem) (hs : s.takePacket L r i isRead ok posted mem = some s') :
    Placed L s' := by
  obtain ⟨hd, hpoller, hfound, hnoted⟩ := h.round r hr
  obtain ⟨hctx, hat⟩ := h.recovered hd hout hmem
  simp only [takePacket, hctx, hat, Option.bind_eq_bind, Option.bind_some] at hs
  obtain ⟨r', hr', hs⟩ := Option.bind_eq_some_iff.mp hs
  cases hs
  have hfound' := complete_found hfound hr'
  have hnew : ∀ j k, (j, k) ∈ s.completions ++ ((s.poller.contexts i).channel.map (i, ·)).toList →
      s.poller.context_ k = some j := by
    intro j k hjk
    rcases List.mem_append.mp hjk with hjk | hjk
    · exact h.current j k hjk
    · cases hch : (s.poller.contexts i).channel with
      | none => simp [hch] at hjk
      | some k' =>
          rw [hch] at hjk
          cases List.mem_singleton.mp hjk
          exact (h.sound.context _ _).mpr hch
  have hsame := hfound'.same
  refine ⟨hfound'.sound, h.freed, fun hd i hi j hj => ?_, fun j k hjk => ?_, fun k hk => ?_,
    fun r₁ hr₁ => ?_⟩
  · exact h.apart hd i (hsame.allocated ▸ hi) j (hsame.allocated ▸ hj)
  · rw [hsame.context_]
    exact hnew j k hjk
  · obtain ⟨j, hj⟩ := h.pushed k hk
    exact ⟨j, List.mem_append_left _ hj⟩
  · cases hr₁
    refine ⟨hd, rfl, found_renew hfound', fun k hk => ?_⟩
    -- The only channel that comes to be found is that of the packet's context.
    have hold : k ∈ r.found ∨ (s.poller.contexts i).channel = some k := by
      rw [← hpoller]
      cases (complete_takes hr').2 with
      | read _ hch | write _ hch => exact (mem_add_found hk).imp_right fun he => by rw [he]; exact hch
      | dead => exact .inl hk
    rcases hold with hk | hch
    · obtain ⟨j, hj⟩ := hnoted k hk
      exact ⟨j, List.mem_append_left _ hj⟩
    · exact ⟨i, List.mem_append_right _ (by rw [hch]; exact List.mem_singleton.mpr rfl)⟩

theorem placed_step {a : PortCall K} (h : Placed L s) (hs : step L s a = some s') :
    Placed L s' := by
  have hidle : ¬ (s.destroyed || s.round.isSome) = true → s.destroyed = false ∧ s.round = none := by
    intro hno
    simpa using hno
  cases a with
  | update k x bound acceptConn a =>
      simp only [step] at hs
      split at hs
      · cases hs
      · next hok =>
          rw [Bool.or_eq_true, not_or] at hok
          obtain ⟨hd, hround⟩ := hidle hok.1
          obtain ⟨p, hp, rfl⟩ := Option.map_eq_some_iff.mp hs
          exact placed_update h hd hround (by simpa using hok.2) hp
  | remove k =>
      simp only [step] at hs
      split at hs
      · cases hs
      · next hok =>
          obtain ⟨p, hp, rfl⟩ := Option.map_eq_some_iff.mp hs
          exact placed_remove h (hidle hok).2 hp
  | poll e =>
      simp only [step] at hs
      split at hs
      · cases hs
      · next hok =>
          obtain ⟨p, hp, rfl⟩ := Option.map_eq_some_iff.mp hs
          exact placed_poll h (hidle hok).1 hp
  | packet i isRead ok posted mem =>
      simp only [step] at hs
      split at hs
      · cases hs
      · next r hr =>
          split at hs
          · next hok => exact placed_packet h hr hok.1 hok.2 hs
          · cases hs
  | polled order =>
      simp only [step] at hs
      split at hs
      · cases hs
      · next r hr =>
          split at hs
          · next hperm =>
              cases hs
              refine { h with pushed := fun k hk => ?_, round := by simp }
              exact (h.round r hr).2.2.2 k (hperm.mem_iff.mp hk)
          · cases hs
  | destroy =>
      simp only [step] at hs
      split at hs
      · cases hs
      · next hok =>
          cases hs
          exact ⟨h.sound, by simp, by simp, h.current, h.pushed, by simp [(hidle hok).2]⟩

end Step

/-- Whatever calls are made, whatever fails and whichever packets arrive, however
late, nothing about a completion is stale. -/
theorem never_stale [DecidableEq K] (h : (lts L K).Reach s) : NotStale L s := by
  refine (h.inv (I := Placed L) (fun s hs => ?_) fun s a s' h hs => placed_step h hs).notStale
  obtain ⟨channel, rfl⟩ := hs
  exact ⟨sound_new, fun _ => rfl, fun _ i hi => absurd hi (Nat.not_lt_zero i), by simp, by simp,
    by simp⟩

/-- Two contexts in memory, and whether their receives are pending. -/
def twoContexts (first second : Bool) : Memory := fun a =>
  if a = 1000 ∨ a = 2000 then 0x50
  else if a = 1001 ∨ a = 2001 then 0x43
  else if a = 1002 ∨ a = 2002 then 0x4F
  else if a = 1003 ∨ a = 2003 then 0x49
  else if a = 1064 then if first then 1 else 0
  else if a = 2064 then if second then 1 else 0
  else 0xFF

/-- A channel is removed with a receive outstanding, and another one is created
in its place; both receives complete. -/
theorem never_stale_replaced :
    ∃ s : IocpPort Nat, NotStale .x64 s ∧ s.completions = [(1, 0)] ∧ s.completed = [0] ∧
      s.poller.deadContexts_ = [0] := by
  let reading : Channel := { fd_ := 5, events_ := { read := true } }
  obtain ⟨s, hs, hp⟩ := Lts.exists_reach (lts .x64 Nat) (x := { channel := fun _ => {} })
    [.update 0 reading true false 1000, .poll {}, .polled [], .remove 0,
      .update 0 reading true false 2000, .poll {}, .packet 0 true true true (twoContexts true true),
      .packet 1 true true true (twoContexts false true), .polled [0]]
    (fun s => decide (s.completions = [(1, 0)] ∧ s.completed = [0] ∧ s.poller.deadContexts_ = [0]))
    ⟨_, rfl⟩ (by decide +kernel)
  exact ⟨s, never_stale hs, of_decide_eq_true hp⟩

end IocpPort

end Muduox.Net
