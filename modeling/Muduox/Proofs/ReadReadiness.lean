import Mathlib.Data.Fintype.Defs
import Muduox.Lib.Lts
import Muduox.Proofs.IocpContexts

/-!
# Read interest over a completion port

A receive that has completed is posted again in the round that takes its packet,
once for each channel and round; a channel whose receive could not be posted is
retried only while it is in `pendingPosts_`, and `dequeue` puts none there. So
the interest of a channel is lost by the second packet of a receive in one
round, which the first one's successor may well be when the data is still
unread, and by a receive that cannot be posted again. Without these two
(`Rearms`), every channel that reads waits with a receive or is retried.
-/

namespace Muduox.Net

/-- A poller and its channels; `waiting` is `poll` where it begins to wait. -/
structure IocpChannels (K : Type) where
  poller : IocpPoller K := {}
  channel : K → Channel
  waiting : Bool := false
  /-- The registered channels for which `kErrorEvent` was reported. -/
  errored : List K := []

/-- The calls of the poller, a call of `poll` in two steps. -/
inductive IocpCall (K : Type) where
  /-- `updateChannel`, with what `channel` is by now. -/
  | update (k : K) (x : Channel) (bound acceptConn : Bool)
  | remove (k : K)
  | poll (e : IocpChoice K)
  | polled (e : IocpChoice K)

namespace IocpChannels

open IocpPoller IocpRound

variable {K : Type} [DecidableEq K]

def step (s : IocpChannels K) : IocpCall K → Option (IocpChannels K)
  | .update k x bound acceptConn =>
      if s.waiting then none
      else
        (s.poller.updateChannel k x bound acceptConn).map fun p =>
          { s with poller := p, channel := Function.update s.channel k x }
  | .remove k =>
      if s.waiting then none
      else
        (s.poller.removeChannel k (s.channel k)).map fun p =>
          { s with poller := p, errored := s.errored.filter (· != k) }
  | .poll e =>
      if s.waiting then none
      else (s.poller.retryPosts s.channel e).map fun p => { s with poller := p, waiting := true }
  | .polled e =>
      if s.waiting then
        (s.poller.dequeue s.channel e).map fun r =>
          { s with
            poller := r.1
            waiting := false
            errored := (r.2.filter fun a => a.2.error).map Prod.fst ++ s.errored }
      else none

/-- The runs over channels of which none is registered. -/
def lts (K : Type) [DecidableEq K] : Lts (IocpChannels K) (IocpCall K) where
  init s := ∃ channel, s = { channel := channel }
  step := step

/-- The receive of each channel that reads completes once in a round at most, and
then another one is posted; unless the channel is to be retried, or an error is
reported for it. -/
def Rearms (s : IocpChannels K) : IocpCall K → Prop
  | .polled e =>
      ∀ q ∈ e.packets, q.isRead = true → ∀ k ∈ (s.poller.contexts q.ctx).channel,
        (s.channel k).isReading = true → k ∉ s.poller.pendingPosts_ → k ∉ s.errored →
        (∀ r ∈ e.packets, r.ctx = q.ctx → r.ok = true) →
        q.posted = true ∧ (e.packets.filter fun r => r.isRead && r.ctx == q.ctx).length ≤ 1
  | _ => True

instance (s : IocpChannels K) (a : IocpCall K) : Decidable (s.Rearms a) := by
  cases a <;> unfold Rearms <;> infer_instance

/-! ## One round -/

section Round

variable {p : IocpPoller K} {xs : K → Channel} {r r' : IocpRound K} {k : K} {i : Nat}

/-- A packet that is not of the channel's receive. -/
theorem complete_keeps {q : Packet} (h : Found p r) (hk : p.context_ k = some i)
    (hq : ¬ (q.isRead = true ∧ q.ctx = i)) (hr : complete xs r q = some r') :
    (r'.poller.contexts i).read = (r.poller.contexts i).read ∧
      (r'.channelRevents k).read = (r.channelRevents k).read := by
  by_cases hi : q.ctx = i
  · subst hi
    have hread : q.isRead = false := Bool.eq_false_iff.mpr fun hread => hq ⟨hread, rfl⟩
    refine ⟨?_, ?_⟩
    · rw [complete_self h hk hr, if_neg (by simp [hread]), completeWrite_read]
    · rw [complete_revents h hk hr]
      simp [Events.or, hread]
  · obtain ⟨hctx, hrev⟩ := complete_of_ne h hk hi hr
    rw [hctx, hrev]
    exact ⟨rfl, rfl⟩

theorem round_keeps {l : List Packet} (h : Found p r) (hk : p.context_ k = some i)
    (hl : ∀ q ∈ l, ¬ (q.isRead = true ∧ q.ctx = i)) (hr : l.foldlM (complete xs) r = some r') :
    (r'.poller.contexts i).read = (r.poller.contexts i).read := by
  refine (foldlM_inv (I := fun r' => Found p r' ∧
    (r'.poller.contexts i).read = (r.poller.contexts i).read) (fun {r₁ q r₂} hq hI hx => ?_)
    ⟨h, rfl⟩ hr).2
  exact ⟨complete_found hI.1 hx, ((complete_keeps hI.1 hk (hl q hq) hx).1).trans hI.2⟩

/-- The receive completes once at most, and is posted again. -/
theorem round_rearms {l : List Packet} (hk : p.context_ k = some i)
    (hreading : (xs k).isReading = true) (hok : ∀ q ∈ l, q.ctx = i → q.ok = true)
    (hposted : ∀ q ∈ l, q.isRead = true → q.ctx = i → q.posted = true)
    (honce : (l.filter fun q => q.isRead && q.ctx == i).length ≤ 1) :
    ∀ {r r' : IocpRound K}, Found p r → l.foldlM (complete xs) r = some r' →
      (r.poller.contexts i).read.pending = true → (r.channelRevents k).read = false →
      (r'.poller.contexts i).read.pending = true := by
  induction l with
  | nil =>
      intro r r' _ hr hpend _
      cases hr
      exact hpend
  | cons q l ih =>
      intro r r' h hr hpend hno
      rw [List.foldlM_cons] at hr
      obtain ⟨r₁, h₁, hr⟩ := Option.bind_eq_some_iff.mp hr
      have hfound := complete_found h h₁
      by_cases hq : q.isRead = true ∧ q.ctx = i
      · -- Nothing after this packet is of the receive it posts.
        obtain ⟨hread, rfl⟩ := hq
        rw [List.filter_cons_of_pos (by simp [hread]), List.length_cons] at honce
        have hnone : l.filter (fun q' => q'.isRead && q'.ctx == q.ctx) = [] :=
          List.eq_nil_of_length_eq_zero (by omega)
        rw [round_keeps hfound hk (fun q' hq' hboth => ?_) hr, complete_self h hk h₁, if_pos hread,
          completeRead_read, hreading, hok q List.mem_cons_self rfl, hno,
          hposted q List.mem_cons_self hread rfl]
        · rfl
        · refine List.filter_eq_nil_iff.mp hnone q' hq' ?_
          simp [hboth.1, hboth.2]
      · obtain ⟨hsame, hrev⟩ := complete_keeps h hk hq h₁
        refine ih (fun q' hq' => hok q' (List.mem_cons_of_mem _ hq'))
          (fun q' hq' => hposted q' (List.mem_cons_of_mem _ hq')) ?_ hfound hr ?_ ?_
        · rw [List.filter_cons_of_neg (by simpa using hq)] at honce
          exact honce
        · rw [hsame]
          exact hpend
        · rw [hrev]
          exact hno

end Round

/-- Channel `k` will hear of data: it has a receive outstanding or is retried. -/
def Armed (s : IocpChannels K) (k : K) : Prop :=
  (∃ i, s.poller.context_ k = some i ∧ (s.poller.contexts i).read.pending = true ∧
      0 < (s.poller.contexts i).read.outstanding) ∨ k ∈ s.poller.pendingPosts_

/-- It is registered, not listening, reads, and no error was reported for it. -/
def Reads (s : IocpChannels K) (k : K) : Prop :=
  s.poller.context_ k ≠ none ∧ k ∉ s.poller.selectChannels_ ∧ (s.channel k).isReading = true ∧
    k ∉ s.errored

/-! ## Along a run -/

/-- What holds between and within the calls. -/
structure Interested (s : IocpChannels K) : Prop where
  sound : s.poller.Sound
  kept : ∀ k, s.Reads k → Pending IocpContext.read s.poller k

section Step

variable {s : IocpChannels K} {k : K} {e : IocpChoice K}

theorem interested_update {x : Channel} {bound acceptConn : Bool} {q : IocpPoller K}
    (h : Interested s) (hq : s.poller.updateChannel k x bound acceptConn = some q) :
    Interested { s with poller := q, channel := Function.update s.channel k x } := by
  refine ⟨h.sound.updateChannel hq, fun j hj => ?_⟩
  obtain ⟨hreg, hselect, hreading, herr⟩ := hj
  have hreg' : q.context_ j ≠ none := hreg
  have hreading' : (Function.update s.channel k x j).isReading = true := hreading
  by_cases hjk : j = k
  · subst hjk
    rw [Function.update_self] at hreading'
    rcases updateChannel_posts h.sound hq hreg' (.inl hreading') with ⟨_, hlisten⟩ | hpost
    · exact absurd hlisten hselect
    · exact .inr hpost
  · rw [Function.update_of_ne hjk] at hreading'
    have hb := updateChannel_beside h.sound hq hjk
    rw [hb.context_] at hreg'
    exact (h.kept j ⟨hreg', fun hm => hselect (hb.select hm), hreading', herr⟩).beside hb

theorem interested_remove {q : IocpPoller K} (h : Interested s)
    (hq : s.poller.removeChannel k (s.channel k) = some q) :
    Interested { s with poller := q, errored := s.errored.filter (· != k) } := by
  refine ⟨h.sound.removeChannel hq, fun j hj => ?_⟩
  obtain ⟨hreg, hselect, hreading, herr⟩ := hj
  obtain ⟨hreg', hjk⟩ := removeChannel_registered hq hreg
  have hb := removeChannel_beside h.sound hq hjk
  refine (h.kept j ⟨hreg', fun hm => hselect (hb.select hm), hreading, fun hm => herr ?_⟩).beside hb
  exact List.mem_filter.mpr ⟨hm, by simpa using hjk⟩

theorem interested_poll {q : IocpPoller K} (h : Interested s)
    (hq : s.poller.retryPosts s.channel e = some q) :
    Interested { s with poller := q, waiting := true } := by
  obtain ⟨q', hq', hsound, hretried⟩ := retryPosts_retried h.sound s.channel e
  rw [hq] at hq'
  cases hq'
  refine ⟨hsound, fun j hj => ?_⟩
  obtain ⟨hreg, hselect, hreading, herr⟩ := hj
  have hreg' : q.context_ j ≠ none := hreg
  have hselect' : j ∉ q.selectChannels_ := hselect
  rw [hretried.same.context_] at hreg'
  rw [hretried.same.select] at hselect'
  exact (h.kept j ⟨hreg', hselect', hreading, herr⟩).retried h.sound hretried
    hretried.read fun i hi hmem hno => (hretried.done j i hi hmem hno).1 hreading

theorem interested_polled {q : IocpPoller K} {active : List (K × Events)} (h : Interested s)
    (hc : s.Rearms (.polled e)) (hq : s.poller.dequeue s.channel e = some (q, active)) :
    Interested
      { s with
        poller := q
        waiting := false
        errored := (active.filter fun a => a.2.error).map Prod.fst ++ s.errored } := by
  obtain ⟨r, hr, rfl⟩ := dequeue_eq hq
  have hfound := hr.found h.sound
  refine ⟨hfound.sound, fun k hk => ?_⟩
  obtain ⟨hreg, hselect, hreading, herr⟩ := hk
  have hreg' : r.poller.context_ k ≠ none := hreg
  have hselect' : k ∉ r.poller.selectChannels_ := hselect
  rw [hfound.same.context_] at hreg'
  rw [hfound.same.select] at hselect'
  have herr' : k ∉ s.errored := fun hm => herr (List.mem_append_right _ hm)
  rcases h.kept k ⟨hreg', hselect', hreading, herr'⟩ with ⟨i, hi, hpend⟩ | hmem
  · by_cases hposts : k ∈ s.poller.pendingPosts_
    · exact .inr (by rw [hfound.posts]; exact hposts)
    · refine .inl ⟨i, by rw [hfound.same.context_]; exact hi, ?_⟩
      have hstart : Found s.poller { poller := s.poller } := .start h.sound
      -- A failed operation would have been reported.
      have hok : ∀ q ∈ e.packets, q.ctx = i → q.ok = true := by
        intro q hq hctx
        by_contra hfail
        have hrev := foldlM_error hi hstart hr.packets
          (.inr ⟨q, hq, hctx, Bool.eq_false_iff.mpr hfail⟩)
        refine herr (List.mem_append_left _ (List.mem_map.mpr ⟨(k, r.channelRevents k), ?_, rfl⟩))
        refine List.mem_filter.mpr ⟨hr.reported h.sound ?_, hrev⟩
        intro hnone
        rw [hnone] at hrev
        cases hrev
      have hch : (s.poller.contexts i).channel = some k := (h.sound.context k i).mp hi
      by_cases hread : ∃ q ∈ e.packets, q.isRead = true ∧ q.ctx = i
      · have hboth : ∀ q ∈ e.packets, q.isRead = true → q.ctx = i → q.posted = true ∧
            (e.packets.filter fun q => q.isRead && q.ctx == i).length ≤ 1 := by
          rintro q hq hqr rfl
          exact hc q hq hqr k (by rw [hch]; rfl) hreading hposts herr' hok
        obtain ⟨q, hq, hqr, hqi⟩ := hread
        exact round_rearms hi hreading hok (fun q hq hr hi => (hboth q hq hr hi).1)
          (hboth q hq hqr hqi).2 hstart hr.packets hpend rfl
      · rw [round_keeps hstart hi (fun q hq hboth => hread ⟨q, hq, hboth⟩) hr.packets]
        exact hpend
  · exact .inr (by rw [hfound.posts]; exact hmem)

end Step

theorem interested {s : IocpChannels K} (h : (lts K).ReachIf Rearms s) : Interested s := by
  refine h.inv (I := Interested) (fun s hs => ?_) fun s a s' hI hc hs => ?_
  · obtain ⟨channel, rfl⟩ := hs
    exact ⟨sound_new, fun k hk => absurd rfl hk.1⟩
  · cases a with
    | update k x bound acceptConn =>
        simp only [lts, step] at hs
        split at hs
        · cases hs
        · obtain ⟨q, hq, rfl⟩ := Option.map_eq_some_iff.mp hs
          exact interested_update hI hq
    | remove k =>
        simp only [lts, step] at hs
        split at hs
        · cases hs
        · obtain ⟨q, hq, rfl⟩ := Option.map_eq_some_iff.mp hs
          exact interested_remove hI hq
    | poll e =>
        simp only [lts, step] at hs
        split at hs
        · cases hs
        · obtain ⟨q, hq, rfl⟩ := Option.map_eq_some_iff.mp hs
          exact interested_poll hI hq
    | polled e =>
        simp only [lts, step] at hs
        split at hs
        · obtain ⟨⟨q, active⟩, hq, rfl⟩ := Option.map_eq_some_iff.mp hs
          exact interested_polled hI hc hq
        · cases hs

/-- Along every run whose rounds post each receive again, a channel that reads is
armed, in particular where `poll` begins to wait. -/
theorem reads_armed {s : IocpChannels K} (h : (lts K).ReachIf Rearms s) (k : K)
    (hk : s.Reads k) : s.Armed k := by
  have hI := interested h
  rcases hI.kept k hk with ⟨i, hi, hpend⟩ | hmem
  · refine .inl ⟨i, hi, hpend, ?_⟩
    have hlive := (hI.sound.live i k ((hI.sound.context k i).mp hi)).1
    rw [hlive, hpend]
    exact Nat.one_pos
  · exact .inr hmem

/-- A channel that reads. -/
def reading : Channel := { events_ := { read := true } }

/-- One receive completes, and another is posted. -/
theorem reads_armed_again : ∃ s : IocpChannels Nat, s.waiting = true ∧ s.Reads 0 ∧ s.Armed 0 := by
  obtain ⟨s, hs, hp⟩ := Lts.exists_reachIf (lts Nat) Rearms
    (x := { channel := fun _ => {} })
    [.update 0 reading true false, .poll {}, .polled { packets := [⟨0, true, true, true⟩], order := [0] },
      .poll {}]
    (fun s => decide (s.waiting = true ∧ s.poller.context_ 0 ≠ none ∧
      0 ∉ s.poller.selectChannels_ ∧ (s.channel 0).isReading = true ∧ 0 ∉ s.errored))
    ⟨_, rfl⟩ (by decide +kernel)
  obtain ⟨hwait, hreads⟩ := of_decide_eq_true hp
  exact ⟨s, hwait, hreads, reads_armed hs 0 hreads⟩

/-- The receive posted again completes in the same round, because the data is
still unread. -/
theorem second_packet_disarms :
    ¬ ∀ (s : IocpChannels Nat) (k : Nat), (lts Nat).Reach s → s.waiting = true → s.Reads k →
      s.Armed k := by
  intro h
  obtain ⟨s, hs, hp⟩ := Lts.exists_reach (lts Nat)
    (x := { channel := fun _ => {} })
    [.update 0 reading true false, .poll {},
      .polled { packets := [⟨0, true, true, true⟩, ⟨0, true, true, true⟩], order := [0] }, .poll {}]
    (fun s => decide (s.waiting = true ∧ (s.poller.context_ 0 = some 0 ∧
      0 ∉ s.poller.selectChannels_ ∧ (s.channel 0).isReading = true ∧ 0 ∉ s.errored) ∧
      (s.poller.contexts 0).read.pending = false ∧ 0 ∉ s.poller.pendingPosts_))
    ⟨_, rfl⟩ (by decide +kernel)
  obtain ⟨hwait, ⟨hctx, hreads⟩, hpend, hposts⟩ := of_decide_eq_true hp
  rcases h s 0 hs hwait ⟨by rw [hctx]; simp, hreads⟩ with ⟨i, hi, hyes, _⟩ | hmem
  · rw [hctx] at hi
    cases hi
    rw [hpend] at hyes
    cases hyes
  · exact hposts hmem

end IocpChannels

end Muduox.Net
