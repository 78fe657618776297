import Muduox.Net.IocpPoller

/-!
# Who has a context

Between two calls an `IocpPoller` knows each registered channel by its context,
which is the channel's own and no other's, and the flags of such a context say
what is outstanding (`Sound`). No call disturbs that. A call of `poll` keeps the
channels and their contexts; what it retries is either posted or kept for the
next time (`Retried`), and what it reports is registered.
-/

namespace Muduox.Net

/-- The flag says whether the operation is outstanding. -/
def Operation.Live (o : Operation) : Prop := o.outstanding = if o.pending then 1 else 0

theorem Operation.Live.post {o : Operation} (h : o.Live) (posted : Bool) : (o.post posted).Live := by
  unfold Operation.post
  split
  · next hp =>
      rw [Bool.and_eq_true, Bool.not_eq_true'] at hp
      unfold Operation.Live at h ⊢
      rw [h, hp.1]
      rfl
  · exact h

theorem Operation.Live.repost {o : Operation} (h : o.Live) (again posted : Bool) :
    (if again then o.post posted else o).Live := by
  split
  · exact h.post posted
  · exact h

theorem Operation.Live.complete {o : Operation} (h : o.Live) : o.complete.Live := by
  unfold Operation.Live at h
  show o.outstanding - 1 = 0
  rw [h]
  split <;> rfl

namespace IocpPoller

variable {K : Type} {p q : IocpPoller K}

/-- Who has a context, and whose it is. -/
structure Sound (p : IocpPoller K) : Prop where
  context : ∀ k i, p.context_ k = some i ↔ (p.contexts i).channel = some k
  fresh : ∀ i, p.allocated ≤ i → p.contexts i = {}
  index : ∀ k, p.index_ k < 0 ↔ p.context_ k = none
  posts : ∀ k ∈ p.pendingPosts_, p.context_ k ≠ none
  select : ∀ k ∈ p.selectChannels_, p.context_ k ≠ none
  live : ∀ i k, (p.contexts i).channel = some k →
    (p.contexts i).read.Live ∧ (p.contexts i).write.Live

theorem sound_new : (({} : IocpPoller K)).Sound :=
  ⟨by simp, fun _ _ => rfl, by simp, by simp, by simp, by simp⟩

/-- The same channels with the same contexts. -/
structure SameContexts (p q : IocpPoller K) : Prop where
  context_ : q.context_ = p.context_
  index_ : q.index_ = p.index_
  allocated : q.allocated = p.allocated
  select : q.selectChannels_ = p.selectChannels_
  channel : ∀ i, (q.contexts i).channel = (p.contexts i).channel

theorem SameContexts.refl (p : IocpPoller K) : SameContexts p p :=
  ⟨rfl, rfl, rfl, rfl, fun _ => rfl⟩

theorem SameContexts.trans {r : IocpPoller K} (h : SameContexts p q) (h' : SameContexts q r) :
    SameContexts p r :=
  ⟨h'.context_.trans h.context_, h'.index_.trans h.index_, h'.allocated.trans h.allocated,
    h'.select.trans h.select, fun i => (h'.channel i).trans (h.channel i)⟩

theorem setContext_self (p : IocpPoller K) (i : Nat) (ctx : IocpContext K) :
    (p.setContext i ctx).contexts i = ctx :=
  Function.update_self ..

theorem setContext_same {i : Nat} {ctx : IocpContext K}
    (hctx : ctx.channel = (p.contexts i).channel) : SameContexts p (p.setContext i ctx) := by
  refine ⟨rfl, rfl, rfl, rfl, fun j => ?_⟩
  show (Function.update p.contexts i ctx j).channel = _
  by_cases hj : j = i
  · rw [hj, Function.update_self, hctx]
  · rw [Function.update_of_ne hj]

/-- One context changes, and fewer posts are pending. -/
theorem Sound.change (h : p.Sound) {i : Nat} (hsame : SameContexts p q)
    (hposts : ∀ k ∈ q.pendingPosts_, k ∈ p.pendingPosts_)
    (hother : ∀ j, j ≠ i → q.contexts j = p.contexts j) (hi : i < p.allocated)
    (hlive : ∀ k, (p.contexts i).channel = some k →
      (q.contexts i).read.Live ∧ (q.contexts i).write.Live) : q.Sound := by
  refine ⟨fun k j => ?_, fun j hj => ?_, fun k => ?_, fun k hk => ?_, fun k hk => ?_,
    fun j k hk => ?_⟩
  · rw [hsame.context_, hsame.channel]
    exact h.context k j
  · rw [hsame.allocated] at hj
    rw [hother j (by omega)]
    exact h.fresh j hj
  · rw [hsame.context_, hsame.index_]
    exact h.index k
  · rw [hsame.context_]
    exact h.posts k (hposts k hk)
  · rw [hsame.context_]
    rw [hsame.select] at hk
    exact h.select k hk
  · rw [hsame.channel] at hk
    by_cases hj : j = i
    · subst hj
      exact hlive k hk
    · rw [hother j hj]
      exact h.live j k hk

theorem Sound.allocated_of_channel (h : p.Sound) {i : Nat} {k : K}
    (hk : (p.contexts i).channel = some k) : i < p.allocated := by
  by_contra hi
  rw [h.fresh i (by omega)] at hk
  cases hk

/-- Channel `j` is as it was, but it may come to be listening. -/
structure Beside (p q : IocpPoller K) (j : K) : Prop where
  context_ : q.context_ j = p.context_ j
  contexts : ∀ i, p.context_ j = some i → q.contexts i = p.contexts i
  posts : j ∈ p.pendingPosts_ → j ∈ q.pendingPosts_
  select : j ∈ p.selectChannels_ → j ∈ q.selectChannels_

theorem Beside.trans {r : IocpPoller K} {j : K} (h : Beside p q j) (h' : Beside q r j) :
    Beside p r j :=
  ⟨h'.context_.trans h.context_,
    fun i hi => (h'.contexts i (h.context_.trans hi)).trans (h.contexts i hi),
    fun hj => h'.posts (h.posts hj), fun hj => h'.select (h.select hj)⟩

/-- One of the two operations of channel `k` has its flag set, or the channel is
retried. -/
def Pending (op : IocpContext K → Operation) (p : IocpPoller K) (k : K) : Prop :=
  (∃ i, p.context_ k = some i ∧ (op (p.contexts i)).pending = true) ∨ k ∈ p.pendingPosts_

theorem Pending.beside {op : IocpContext K → Operation} {k : K} (h : Pending op p k)
    (hb : Beside p q k) : Pending op q k := by
  rcases h with ⟨i, hi, hpend⟩ | hp
  · exact .inl ⟨i, hb.context_.trans hi, by rw [hb.contexts i hi]; exact hpend⟩
  · exact .inr (hb.posts hp)

section Calls

variable [DecidableEq K]

theorem Sound.setIndex (h : p.Sound) {k : K} (hk : p.context_ k ≠ none) :
    ({ p with index_ := Function.update p.index_ k 0 } : IocpPoller K).Sound := by
  refine { h with index := fun j => ?_ }
  show Function.update p.index_ k 0 j < 0 ↔ _
  by_cases hj : j = k
  · rw [hj, Function.update_self]
    exact ⟨fun h => absurd h (by omega), fun hn => absurd hn hk⟩
  · rw [Function.update_of_ne hj]
    exact h.index j

theorem Sound.newContext (h : p.Sound) {k : K} (hk : p.index_ k < 0) :
    ({ p.newContext k with index_ := Function.update p.index_ k 0 } : IocpPoller K).Sound := by
  have hnone : p.context_ k = none := (h.index k).mp hk
  have hfresh : ∀ j, p.context_ j ≠ some p.allocated := by
    intro j hj
    have hch := (h.context j _).mp hj
    rw [h.fresh _ (Nat.le_refl _)] at hch
    cases hch
  have hkept : ∀ j, p.context_ j ≠ none → Function.update p.context_ k (some p.allocated) j ≠ none := by
    intro j hj
    by_cases hjk : j = k
    · rw [hjk, Function.update_self]
      simp
    · rw [Function.update_of_ne hjk]
      exact hj
  refine ⟨fun j i => ?_, fun i hi => ?_, fun j => ?_, fun j hj => hkept j (h.posts j hj),
    fun j hj => hkept j (h.select j hj), fun i j hij => ?_⟩
  · show Function.update p.context_ k (some p.allocated) j = some i ↔
      (Function.update p.contexts p.allocated { channel := some k } i).channel = some j
    by_cases hjk : j = k <;> by_cases hi : i = p.allocated
    · subst hjk hi
      simp
    · rw [hjk, Function.update_self, Function.update_of_ne hi, ← h.context k i, hnone]
      simp [Ne.symm hi]
    · rw [hi, Function.update_of_ne hjk, Function.update_self]
      simp [hfresh, Ne.symm hjk]
    · rw [Function.update_of_ne hjk, Function.update_of_ne hi]
      exact h.context j i
  · have hi' : p.allocated + 1 ≤ i := hi
    show Function.update p.contexts p.allocated _ i = {}
    rw [Function.update_of_ne (by omega)]
    exact h.fresh i (by omega)
  · show Function.update p.index_ k 0 j < 0 ↔ Function.update p.context_ k (some p.allocated) j = none
    by_cases hjk : j = k
    · rw [hjk, Function.update_self, Function.update_self]
      simp
    · rw [Function.update_of_ne hjk, Function.update_of_ne hjk]
      exact h.index j
  · have hij' : (Function.update p.contexts p.allocated { channel := some k } i).channel = some j := hij
    show (Function.update p.contexts p.allocated { channel := some k } i).read.Live ∧
      (Function.update p.contexts p.allocated { channel := some k } i).write.Live
    by_cases hi : i = p.allocated
    · rw [hi, Function.update_self]
      exact ⟨rfl, rfl⟩
    · rw [Function.update_of_ne hi] at hij' ⊢
      exact h.live i j hij'

theorem Sound.register {k : K} (x : Channel) (acceptConn : Bool)
    (h : ({ p with index_ := Function.update p.index_ k 0 } : IocpPoller K).Sound) :
    (p.register k x acceptConn).Sound := by
  have hk : p.context_ k ≠ none := fun hnone => by
    have hneg := (h.index k).mpr hnone
    simp at hneg
  refine { h with posts := fun j hj => ?_, select := fun j hj => ?_ }
  · simp only [IocpPoller.register] at hj
    split at hj
    · rcases List.mem_insert_iff.mp hj with rfl | hj
      · exact hk
      · exact h.posts j hj
    · exact h.posts j hj
  · simp only [IocpPoller.register] at hj
    split at hj
    · rcases List.mem_insert_iff.mp hj with rfl | hj
      · exact hk
      · exact h.select j hj
    · exact h.select j hj

theorem Sound.updateChannel (h : p.Sound) {k : K} {x : Channel} {bound acceptConn : Bool}
    (hq : p.updateChannel k x bound acceptConn = some q) : q.Sound := by
  unfold IocpPoller.updateChannel at hq
  split at hq
  · next hk =>
      split at hq <;> cases hq
      · exact Sound.register x acceptConn (h.newContext hk)
      · exact h
  · next hk =>
      split at hq <;> cases hq
      exact Sound.register x acceptConn (h.setIndex fun hno => hk ((h.index k).mpr hno))

theorem Sound.removeChannel (h : p.Sound) {k : K} {x : Channel}
    (hq : p.removeChannel k x = some q) : q.Sound := by
  obtain ⟨n, hn, rfl⟩ := Option.map_eq_some_iff.mp hq
  have hch : (p.contexts n).channel = some k := (h.context k n).mp hn
  have hkept : ∀ {l : List K}, (∀ j ∈ l, p.context_ j ≠ none) → ∀ j ∈ l.filter (· != k),
      Function.update p.context_ k none j ≠ none := by
    intro l hl j hj
    obtain ⟨hj, hjk⟩ := List.mem_filter.mp hj
    rw [Function.update_of_ne (by simpa using hjk)]
    exact hl j hj
  refine ⟨fun j i => ?_, fun i hi => ?_, fun j => ?_, hkept h.posts, hkept h.select,
    fun i j hij => ?_⟩
  · show Function.update p.context_ k none j = some i ↔
      (Function.update p.contexts n { p.contexts n with channel := none } i).channel = some j
    by_cases hi : i = n
    · subst hi
      rw [Function.update_self]
      by_cases hjk : j = k
      · simp [hjk]
      · rw [Function.update_of_ne hjk, h.context j i, hch]
        simp [Ne.symm hjk]
    · rw [Function.update_of_ne hi, ← h.context j i]
      by_cases hjk : j = k
      · subst hjk
        rw [Function.update_self, hn]
        simp [Ne.symm hi]
      · rw [Function.update_of_ne hjk]
  · show Function.update p.contexts n _ i = {}
    have hlt := h.allocated_of_channel hch
    have hi' : p.allocated ≤ i := hi
    rw [Function.update_of_ne (by omega)]
    exact h.fresh i hi'
  · show Function.update p.index_ k (-1) j < 0 ↔ Function.update p.context_ k none j = none
    by_cases hjk : j = k
    · simp [hjk]
    · rw [Function.update_of_ne hjk, Function.update_of_ne hjk]
      exact h.index j
  · have hij' : (Function.update p.contexts n { p.contexts n with channel := none } i).channel =
      some j := hij
    show (Function.update p.contexts n { p.contexts n with channel := none } i).read.Live ∧
      (Function.update p.contexts n { p.contexts n with channel := none } i).write.Live
    by_cases hi : i = n
    · rw [hi, Function.update_self] at hij'
      cases hij'
    · rw [Function.update_of_ne hi] at hij' ⊢
      exact h.live i j hij'

theorem register_beside (p : IocpPoller K) (k j : K) (x : Channel) (acceptConn : Bool) :
    Beside p (p.register k x acceptConn) j := by
  refine ⟨rfl, fun _ _ => rfl, fun hj => ?_, fun hj => ?_⟩
  · simp only [IocpPoller.register]
    split
    · exact List.mem_insert_of_mem hj
    · exact hj
  · simp only [IocpPoller.register]
    split
    · exact List.mem_insert_of_mem hj
    · exact hj

theorem newContext_beside (h : p.Sound) {k j : K} (hj : j ≠ k) : Beside p (p.newContext k) j := by
  refine ⟨Function.update_of_ne hj .., fun i hi => ?_, id, id⟩
  have hlt := h.allocated_of_channel ((h.context j i).mp hi)
  exact Function.update_of_ne (by omega) ..

theorem updateChannel_beside (h : p.Sound) {k j : K} {x : Channel} {bound acceptConn : Bool}
    (hq : p.updateChannel k x bound acceptConn = some q) (hj : j ≠ k) : Beside p q j := by
  unfold IocpPoller.updateChannel at hq
  split at hq
  · split at hq <;> cases hq
    · exact (newContext_beside h hj).trans (register_beside ..)
    · exact ⟨rfl, fun _ _ => rfl, id, id⟩
  · split at hq <;> cases hq
    exact register_beside ..

/-- After `updateChannel` a registered channel is listening or will be posted. -/
theorem updateChannel_posts (h : p.Sound) {k : K} {x : Channel} {bound acceptConn : Bool}
    (hq : p.updateChannel k x bound acceptConn = some q) (hk : q.context_ k ≠ none)
    (hx : x.isReading = true ∨ x.isWriting = true) :
    acceptConn = true ∧ k ∈ q.selectChannels_ ∨ k ∈ q.pendingPosts_ := by
  have hreg : ∀ p : IocpPoller K, acceptConn = true ∧ k ∈ (p.register k x acceptConn).selectChannels_ ∨
      k ∈ (p.register k x acceptConn).pendingPosts_ := by
    intro p
    have hor : (x.isReading || x.isWriting) = true := Bool.or_eq_true_iff.mpr hx
    cases acceptConn with
    | true => exact .inl ⟨rfl, List.mem_insert_self⟩
    | false =>
        refine .inr ?_
        simp only [IocpPoller.register, hor, Bool.not_false, Bool.and_self, if_true]
        exact List.mem_insert_self
  unfold IocpPoller.updateChannel at hq
  split at hq
  · next hneg =>
      split at hq <;> cases hq
      · exact hreg _
      · exact absurd ((h.index k).mp hneg) hk
  · split at hq <;> cases hq
    exact hreg _

theorem removeChannel_beside (h : p.Sound) {k j : K} {x : Channel}
    (hq : p.removeChannel k x = some q) (hj : j ≠ k) : Beside p q j := by
  obtain ⟨n, hn, rfl⟩ := Option.map_eq_some_iff.mp hq
  have hkept : ∀ {l : List K}, j ∈ l → j ∈ l.filter (· != k) :=
    fun hl => List.mem_filter.mpr ⟨hl, by simpa using hj⟩
  refine ⟨Function.update_of_ne hj .., fun i hi => ?_, hkept, hkept⟩
  refine Function.update_of_ne ?_ ..
  rintro rfl
  have hch := (h.context j i).mp hi
  rw [(h.context k i).mp hn] at hch
  exact hj (Option.some.inj hch).symm

end Calls

/-! ## The retry -/

/-- What the first loop of `poll` makes of `p`. -/
structure Retried (xs : K → Channel) (p q : IocpPoller K) : Prop where
  same : SameContexts p q
  posts : ∀ k ∈ q.pendingPosts_, k ∈ p.pendingPosts_
  read : ∀ i, (p.contexts i).read.pending = true → (q.contexts i).read.pending = true
  write : ∀ i, (p.contexts i).write.pending = true → (q.contexts i).write.pending = true
  /-- Who is not kept has been posted. -/
  done : ∀ k i, p.context_ k = some i → k ∈ p.pendingPosts_ → k ∉ q.pendingPosts_ →
    ((xs k).isReading = true → (q.contexts i).read.pending = true) ∧
      ((xs k).isWriting = true → (q.contexts i).write.pending = true)

theorem Retried.refl (xs : K → Channel) (p : IocpPoller K) : Retried xs p p :=
  ⟨.refl p, fun _ => id, fun _ => id, fun _ => id, fun _ _ _ h h' => absurd h h'⟩

theorem Retried.trans {xs : K → Channel} {r : IocpPoller K} (h : Retried xs p q)
    (h' : Retried xs q r) : Retried xs p r := by
  refine ⟨h.same.trans h'.same, fun k hk => h.posts k (h'.posts k hk),
    fun i hi => h'.read i (h.read i hi), fun i hi => h'.write i (h.write i hi),
    fun k i hk hp hr => ?_⟩
  by_cases hq : k ∈ q.pendingPosts_
  · exact h'.done k i (by rw [h.same.context_]; exact hk) hq hr
  · obtain ⟨hread, hwrite⟩ := h.done k i hk hp hq
    exact ⟨fun hx => h'.read i (hread hx), fun hx => h'.write i (hwrite hx)⟩

theorem Pending.retried {op : IocpContext K → Operation} {xs : K → Channel} {k : K}
    (h : Pending op p k) (hp : p.Sound) (hq : Retried xs p q)
    (hmono : ∀ i, (op (p.contexts i)).pending = true → (op (q.contexts i)).pending = true)
    (hdone : ∀ i, p.context_ k = some i → k ∈ p.pendingPosts_ → k ∉ q.pendingPosts_ →
      (op (q.contexts i)).pending = true) : Pending op q k := by
  rcases h with ⟨i, hi, hpend⟩ | hmem
  · exact .inl ⟨i, by rw [hq.same.context_]; exact hi, hmono i hpend⟩
  · by_cases hno : k ∈ q.pendingPosts_
    · exact .inr hno
    · obtain ⟨i, hi⟩ := Option.ne_none_iff_exists'.mp (hp.posts k hmem)
      exact .inl ⟨i, by rw [hq.same.context_]; exact hi, hdone i hi hmem hno⟩

theorem post_pending {o : Operation} (h : o.pending = true) (posted : Bool) :
    (o.post posted).pending = true := by
  unfold Operation.post
  split
  · rfl
  · exact h

/-- One context changes, and its channel may be dropped when it has been posted. -/
theorem Sound.retried (h : p.Sound) {xs : K → Channel} {k : K} {i : Nat} {ctx : IocpContext K}
    (hk : p.context_ k = some i) (hch : ctx.channel = some k)
    (hread : ctx.read.Live ∧ ((p.contexts i).read.pending = true → ctx.read.pending = true))
    (hwrite : ctx.write.Live ∧ ((p.contexts i).write.pending = true → ctx.write.pending = true))
    {l : List K} (hl : ∀ j ∈ l, j ∈ p.pendingPosts_)
    (hdone : ∀ j ∈ p.pendingPosts_, j ∉ l → j = k ∧
      ((xs k).isReading = true → ctx.read.pending = true) ∧
      ((xs k).isWriting = true → ctx.write.pending = true)) :
    (({ p with pendingPosts_ := l } : IocpPoller K).setContext i ctx).Sound ∧
      Retried xs p (({ p with pendingPosts_ := l } : IocpPoller K).setContext i ctx) := by
  have hold : (p.contexts i).channel = some k := (h.context k i).mp hk
  have hset := setContext_same (p := { p with pendingPosts_ := l }) (hch.trans hold.symm)
  have hsame : SameContexts p (({ p with pendingPosts_ := l } : IocpPoller K).setContext i ctx) :=
    ⟨rfl, rfl, rfl, rfl, hset.channel⟩
  have hself : (Function.update p.contexts i ctx) i = ctx := Function.update_self ..
  have hother : ∀ j, j ≠ i → Function.update p.contexts i ctx j = p.contexts j :=
    fun j hj => Function.update_of_ne hj ..
  refine ⟨h.change hsame hl hother (h.allocated_of_channel hold) fun _ _ => ?_,
    hsame, hl, fun j hj => ?_, fun j hj => ?_, fun j n hn hj hno => ?_⟩
  · show (Function.update p.contexts i ctx i).read.Live ∧ (Function.update p.contexts i ctx i).write.Live
    rw [hself]
    exact ⟨hread.1, hwrite.1⟩
  · show (Function.update p.contexts i ctx j).read.pending = true
    by_cases hji : j = i
    · subst hji
      rw [hself]
      exact hread.2 hj
    · rw [hother j hji]
      exact hj
  · show (Function.update p.contexts i ctx j).write.pending = true
    by_cases hji : j = i
    · subst hji
      rw [hself]
      exact hwrite.2 hj
    · rw [hother j hji]
      exact hj
  · obtain ⟨rfl, hposted⟩ := hdone j hj hno
    rw [hk] at hn
    cases hn
    show (_ → (Function.update p.contexts i ctx i).read.pending = true) ∧
      (_ → (Function.update p.contexts i ctx i).write.pending = true)
    rw [hself]
    exact hposted

variable [DecidableEq K]

theorem retryPost_retried (h : p.Sound) (xs : K → Channel) (e : IocpChoice K) {k : K} {i : Nat}
    (hk : p.context_ k = some i) :
    (p.retryPost xs e k i).Sound ∧ Retried xs p (p.retryPost xs e k i) := by
  have hch : (p.contexts i).channel = some k := (h.context k i).mp hk
  obtain ⟨hlr, hlw⟩ := h.live i k hch
  unfold retryPost
  dsimp only
  rw [hch, Option.isNone_some, if_neg Bool.false_ne_true]
  generalize hread : (if (xs k).isReading then (p.contexts i).read.post (k ∉ e.recvFails)
    else (p.contexts i).read) = read
  generalize hwrite : (if (xs k).isWriting then (p.contexts i).write.post (k ∉ e.sendFails)
    else (p.contexts i).write) = write
  have hr : read.Live ∧ ((p.contexts i).read.pending = true → read.pending = true) := by
    rw [← hread]
    split
    · exact ⟨hlr.post _, fun hp => post_pending hp _⟩
    · exact ⟨hlr, id⟩
  have hw : write.Live ∧ ((p.contexts i).write.pending = true → write.pending = true) := by
    rw [← hwrite]
    split
    · exact ⟨hlw.post _, fun hp => post_pending hp _⟩
    · exact ⟨hlw, id⟩
  split
  · next hdone =>
      simp only [Bool.and_eq_true, Bool.or_eq_true, Bool.not_eq_true'] at hdone
      refine h.retried hk rfl hr hw (fun j hj => (List.mem_filter.mp hj).1) fun j hj hno => ?_
      have hjk : j = k := by
        by_contra hjk
        exact hno (List.mem_filter.mpr ⟨hj, by simpa using hjk⟩)
      refine ⟨hjk, fun hx => hdone.1.resolve_left ?_, fun hx => hdone.2.resolve_left ?_⟩ <;> simp [hx]
  · exact h.retried hk rfl hr hw (fun _ => id) fun j hj hno => absurd hj hno

/-- The first loop never fails. -/
theorem retryPosts_retried (h : p.Sound) (xs : K → Channel) (e : IocpChoice K) :
    ∃ q, p.retryPosts xs e = some q ∧ q.Sound ∧ Retried xs p q := by
  have hall : ∀ (l : List K) (p : IocpPoller K), p.Sound → (∀ k ∈ l, p.context_ k ≠ none) →
      ∃ q, l.foldlM (fun p k => (p.context_ k).map (p.retryPost xs e k)) p = some q ∧ q.Sound ∧
        Retried xs p q := by
    intro l
    induction l with
    | nil => exact fun p h _ => ⟨p, rfl, h, .refl xs p⟩
    | cons k l ih =>
        intro p h hl
        obtain ⟨i, hk⟩ := Option.ne_none_iff_exists'.mp (hl k List.mem_cons_self)
        obtain ⟨hsound, hretried⟩ := retryPost_retried h xs e hk
        obtain ⟨q, hq, hq', hrest⟩ := ih _ hsound fun j hj => by
          rw [hretried.same.context_]
          exact hl j (List.mem_cons_of_mem _ hj)
        refine ⟨q, ?_, hq', hretried.trans hrest⟩
        rw [List.foldlM_cons, hk]
        exact hq
  exact hall _ p h h.posts

end IocpPoller

/-! ## The packets -/

theorem Events.or_none (a : Events) : a.or kNoneEvent = a := by
  simp [Events.or, kNoneEvent]

namespace IocpRound

open IocpPoller

variable {K : Type} [DecidableEq K] {p : IocpPoller K} {xs : K → Channel} {r r' : IocpRound K} {q : Packet}

@[simp] theorem add_poller (r : IocpRound K) (k : K) (revents : Events) :
    (r.add k revents).poller = r.poller := by
  unfold add
  split <;> rfl

theorem add_revents_self (r : IocpRound K) (k : K) (revents : Events) :
    (r.add k revents).channelRevents k = (r.channelRevents k).or revents := by
  unfold add
  split
  · next hno => rw [hno, Events.or_none]
  · exact Function.update_self ..

theorem add_revents_of_ne (r : IocpRound K) {j k : K} (hj : j ≠ k) (revents : Events) :
    (r.add k revents).channelRevents j = r.channelRevents j := by
  unfold add
  split
  · rfl
  · exact Function.update_of_ne hj ..

theorem mem_add_found {j k : K} {revents : Events} (h : j ∈ (r.add k revents).found) :
    j ∈ r.found ∨ j = k := by
  unfold add at h
  split at h
  · exact .inl h
  · exact (List.mem_insert_iff.mp h).symm

/-- One iteration takes the packet of a receive, of a send, or of a context
without a channel. -/
inductive Takes (xs : K → Channel) (r : IocpRound K) (q : Packet) : IocpRound K → Prop
  | read {k : K} (hq : q.isRead = true) (hk : (r.poller.contexts q.ctx).channel = some k) :
      Takes xs r q (r.completeRead xs q k)
  | write {k : K} (hq : q.isRead = false) (hk : (r.poller.contexts q.ctx).channel = some k) :
      Takes xs r q (r.completeWrite xs q k)
  | dead (hk : (r.poller.contexts q.ctx).channel = none) : Takes xs r q (r.completeDead q)

theorem complete_takes (h : complete xs r q = some r') :
    ((if q.isRead then (r.poller.contexts q.ctx).read
      else (r.poller.contexts q.ctx).write).outstanding ≠ 0) ∧ Takes xs r q r' := by
  unfold complete at h
  dsimp only at h
  by_cases hout : (if q.isRead then (r.poller.contexts q.ctx).read
      else (r.poller.contexts q.ctx).write).outstanding = 0
  · rw [if_pos hout] at h
    cases h
  · rw [if_neg hout] at h
    refine ⟨hout, ?_⟩
    cases hk : (r.poller.contexts q.ctx).channel with
    | none =>
        rw [hk] at h
        cases h
        exact .dead hk
    | some k =>
        rw [hk] at h
        cases h
        split
        · next hq => exact .read hq hk
        · next hq => exact .write (by simpa using hq) hk

/-- What is found while packets are taken from `p`. -/
structure Found (p : IocpPoller K) (r : IocpRound K) : Prop where
  sound : r.poller.Sound
  same : SameContexts p r.poller
  posts : r.poller.pendingPosts_ = p.pendingPosts_
  found : ∀ k ∈ r.found, p.context_ k ≠ none
  revents : ∀ k, r.channelRevents k ≠ kNoneEvent → k ∈ r.found

omit [DecidableEq K] in
theorem Found.start (hp : p.Sound) : Found p { poller := p } :=
  ⟨hp, .refl p, rfl, by simp, fun _ hk => absurd rfl hk⟩

theorem Found.add (h : Found p r) {k : K} (hk : p.context_ k ≠ none)
    (revents : Events) : Found p (r.add k revents) := by
  refine ⟨by simpa using h.sound, by simpa using h.same, by simpa using h.posts, fun j hj => ?_,
    fun j hj => ?_⟩
  · rcases mem_add_found hj with hj | rfl
    · exact h.found j hj
    · exact hk
  · unfold IocpRound.add at hj ⊢
    split
    · next hno =>
        rw [if_pos hno] at hj
        exact h.revents j hj
    · next hrev =>
        rw [if_neg hrev] at hj
        refine List.mem_insert_iff.mpr ?_
        by_cases hjk : j = k
        · exact .inl hjk
        · refine .inr (h.revents j ?_)
          rw [← Function.update_of_ne hjk ((r.channelRevents k).or revents) r.channelRevents]
          exact hj

omit [DecidableEq K] in
/-- The operations of one context change. -/
theorem Found.setContext (h : Found p r) {i : Nat} (read write : Operation)
    (hi : i < r.poller.allocated)
    (hlive : ∀ k, (r.poller.contexts i).channel = some k → read.Live ∧ write.Live) :
    Found p
      { r with
        poller := r.poller.setContext i
          { r.poller.contexts i with read := read, write := write } } := by
  have hset : SameContexts r.poller (r.poller.setContext i
      { r.poller.contexts i with read := read, write := write }) := setContext_same rfl
  refine { h with sound := ?_, same := h.same.trans hset }
  refine h.sound.change (i := i) hset (fun _ => id) (fun j hj => Function.update_of_ne hj ..) hi
    fun k hk => ?_
  show (Function.update r.poller.contexts i _ i).read.Live ∧
    (Function.update r.poller.contexts i _ i).write.Live
  rw [Function.update_self]
  exact hlive k hk

theorem complete_found (h : Found p r) (hr : complete xs r q = some r') :
    Found p r' := by
  obtain ⟨hout, ht⟩ := complete_takes hr
  have hi : q.ctx < r.poller.allocated := by
    by_contra hi
    rw [h.sound.fresh _ (by omega)] at hout
    split at hout <;> exact hout rfl
  cases ht with
  | @read k hq hk =>
      have hreg : p.context_ k ≠ none := by
        rw [← h.same.context_, (h.sound.context k _).mpr hk]
        simp
      refine Found.add (h.setContext _ (r.poller.contexts q.ctx).write hi fun j hj => ?_) hreg _
      obtain ⟨hread, hwrite⟩ := h.sound.live _ j hj
      exact ⟨hread.complete.repost _ _, hwrite⟩
  | @write k hq hk =>
      have hreg : p.context_ k ≠ none := by
        rw [← h.same.context_, (h.sound.context k _).mpr hk]
        simp
      refine Found.add (h.setContext (r.poller.contexts q.ctx).read _ hi fun j hj => ?_) hreg _
      obtain ⟨hread, hwrite⟩ := h.sound.live _ j hj
      exact ⟨hread, hwrite.complete⟩
  | dead hk =>
      refine h.setContext _ _ hi fun j hj => ?_
      rw [hk] at hj
      cases hj

/-- The packets of other contexts leave a channel alone. -/
theorem complete_of_ne (h : Found p r) {k : K} {i : Nat} (hk : p.context_ k = some i)
    (hq : q.ctx ≠ i) (hr : complete xs r q = some r') :
    r'.poller.contexts i = r.poller.contexts i ∧ r'.channelRevents k = r.channelRevents k := by
  have hch : ∀ j, (r.poller.contexts q.ctx).channel = some j → k ≠ j := by
    rintro j hj rfl
    have hj' := (h.sound.context _ _).mpr hj
    rw [h.same.context_, hk] at hj'
    exact hq (Option.some.inj hj').symm
  have hset : ∀ ctx, (r.poller.setContext q.ctx ctx).contexts i = r.poller.contexts i :=
    fun ctx => Function.update_of_ne (Ne.symm hq) ..
  cases (complete_takes hr).2 with
  | read _ hj =>
      unfold completeRead
      exact ⟨by rw [add_poller]; exact hset _, add_revents_of_ne _ (hch _ hj) _⟩
  | write _ hj =>
      unfold completeWrite
      exact ⟨by rw [add_poller]; exact hset _, add_revents_of_ne _ (hch _ hj) _⟩
  | dead => exact ⟨hset _, rfl⟩

/-- The packets of its own. -/
theorem complete_self (h : Found p r) {k : K} (hk : p.context_ k = some q.ctx)
    (hr : complete xs r q = some r') :
    r' = if q.isRead then r.completeRead xs q k else r.completeWrite xs q k := by
  have hch : (r.poller.contexts q.ctx).channel = some k := by
    rw [← h.sound.context, h.same.context_, hk]
  cases (complete_takes hr).2 with
  | read hq hj =>
      rw [hch] at hj
      cases hj
      rw [if_pos hq]
  | write hq hj =>
      rw [hch] at hj
      cases hj
      rw [if_neg (by simp [hq])]
  | dead hj =>
      rw [hch] at hj
      cases hj

theorem completeRead_read (r : IocpRound K) (xs : K → Channel) (q : Packet) (k : K) :
    ((r.completeRead xs q k).poller.contexts q.ctx).read =
      if (xs k).isReading && q.ok && !(r.channelRevents k).read then
        (r.poller.contexts q.ctx).read.complete.post q.posted
      else (r.poller.contexts q.ctx).read.complete := by
  unfold completeRead
  dsimp only
  rw [add_poller]
  dsimp only
  rw [setContext_self]
  cases q.ok <;> cases (xs k).isReading <;> rfl

theorem completeRead_write (r : IocpRound K) (xs : K → Channel) (q : Packet) (k : K) :
    ((r.completeRead xs q k).poller.contexts q.ctx).write = (r.poller.contexts q.ctx).write := by
  unfold completeRead
  dsimp only
  rw [add_poller]
  dsimp only
  rw [setContext_self]

theorem completeWrite_read (r : IocpRound K) (xs : K → Channel) (q : Packet) (k : K) :
    ((r.completeWrite xs q k).poller.contexts q.ctx).read = (r.poller.contexts q.ctx).read := by
  unfold completeWrite
  dsimp only
  rw [add_poller]
  dsimp only
  rw [setContext_self]

/-- What a packet adds to the events of its channel. -/
theorem complete_revents (h : Found p r) {k : K} (hk : p.context_ k = some q.ctx)
    (hr : complete xs r q = some r') :
    r'.channelRevents k = (r.channelRevents k).or
      { read := q.isRead && q.ok && (xs k).isReading
        write := !q.isRead && q.ok && (xs k).isWriting
        error := !q.ok } := by
  rw [complete_self h hk hr]
  split
  · next hq =>
      unfold completeRead
      rw [add_revents_self, hq]
      cases q.ok <;> cases (xs k).isReading <;> rfl
  · next hq =>
      unfold completeWrite
      rw [add_revents_self, Bool.eq_false_iff.mpr hq]
      cases q.ok <;> cases (xs k).isWriting <;> rfl

/-- A failed operation is reported as an error, and stays reported. -/
theorem complete_error (h : Found p r) {k : K} {i : Nat} (hk : p.context_ k = some i)
    (hr : complete xs r q = some r')
    (herr : (r.channelRevents k).error = true ∨ q.ctx = i ∧ q.ok = false) :
    (r'.channelRevents k).error = true := by
  by_cases hq : q.ctx = i
  · subst hq
    rw [complete_revents h hk hr]
    rcases herr with herr | ⟨_, hok⟩
    · simp [Events.or, herr]
    · simp [Events.or, hok]
  · rw [(complete_of_ne h hk hq hr).2]
    exact herr.resolve_right fun hno => hq hno.1

/-- The invariant rule for the loop. -/
theorem foldlM_inv {I : IocpRound K → Prop} {l : List Packet}
    (hstep : ∀ {r q r'}, q ∈ l → I r → complete xs r q = some r' → I r') :
    ∀ {r r' : IocpRound K}, I r → l.foldlM (complete xs) r = some r' → I r' := by
  induction l with
  | nil =>
      intro r r' h hr
      cases hr
      exact h
  | cons q l ih =>
      intro r r' h hr
      rw [List.foldlM_cons] at hr
      obtain ⟨r₁, h₁, hr⟩ := Option.bind_eq_some_iff.mp hr
      exact ih (fun hm => hstep (List.mem_cons_of_mem _ hm)) (hstep List.mem_cons_self h h₁) hr

theorem foldlM_found {l : List Packet} (h : Found p r) (hr : l.foldlM (complete xs) r = some r') :
    Found p r' :=
  foldlM_inv (fun _ => complete_found) h hr

theorem foldlM_error {l : List Packet} {k : K} {i : Nat} (hk : p.context_ k = some i) :
    ∀ {r r' : IocpRound K}, Found p r → l.foldlM (complete xs) r = some r' →
      ((r.channelRevents k).error = true ∨ ∃ q ∈ l, q.ctx = i ∧ q.ok = false) →
      (r'.channelRevents k).error = true := by
  induction l with
  | nil =>
      intro r r' _ hr herr
      cases hr
      simpa using herr
  | cons q l ih =>
      intro r r' h hr herr
      rw [List.foldlM_cons] at hr
      obtain ⟨r₁, h₁, hr⟩ := Option.bind_eq_some_iff.mp hr
      refine ih (complete_found h h₁) hr ?_
      rcases herr with herr | ⟨q', hq', hfail⟩
      · exact .inl (complete_error h hk h₁ (.inl herr))
      · rcases List.mem_cons.mp hq' with rfl | hq'
        · exact .inl (complete_error h hk h₁ (.inr hfail))
        · exact .inr ⟨q', hq', hfail⟩

end IocpRound

namespace IocpPoller

open IocpRound

variable {K : Type} [DecidableEq K] {p q : IocpPoller K} {xs : K → Channel} {e : IocpChoice K}

/-- Where `poll` waits, takes its packets and returns. -/
structure Dequeued (xs : K → Channel) (e : IocpChoice K) (p : IocpPoller K)
    (active : List (K × Events)) (r : IocpRound K) : Prop where
  packets : e.packets.foldlM (complete xs) { poller := p } = some r
  active : active = r.active xs e
  order : ∀ k, k ∈ e.order ↔ k ∈ r.found
  selected : ∀ k ∈ e.selected, k ∈ p.selectChannels_

theorem dequeue_eq {active : List (K × Events)} (h : p.dequeue xs e = some (q, active)) :
    ∃ r, Dequeued xs e p active r ∧ q = r.poller := by
  unfold dequeue at h
  split at h
  · cases h
  · split at h
    · cases h
    · next r hr =>
        split at h
        · next hok =>
            cases h
            exact ⟨r, ⟨hr, rfl, fun k => hok.1.mem_iff, hok.2.2⟩, rfl⟩
        · cases h

theorem Dequeued.found {active : List (K × Events)} {r : IocpRound K} (hp : p.Sound)
    (h : Dequeued xs e p active r) : Found p r := by
  exact foldlM_found (.start hp) h.packets

/-- What is reported is registered. -/
theorem Dequeued.registered {active : List (K × Events)} {r : IocpRound K} (hp : p.Sound)
    (h : Dequeued xs e p active r) {k : K} {rev : Events} (hk : (k, rev) ∈ active) :
    p.context_ k ≠ none := by
  rw [h.active] at hk
  rcases List.mem_append.mp hk with hk | hk
  · obtain ⟨j, hj, he⟩ := List.mem_map.mp hk
    cases he
    exact (h.found hp).found k ((h.order k).mp hj)
  · obtain ⟨j, hj, he⟩ := List.mem_map.mp hk
    cases he
    exact hp.select k (h.selected k (List.mem_filter.mp hj).1)

/-- What is found is reported. -/
theorem Dequeued.reported {active : List (K × Events)} {r : IocpRound K} (hp : p.Sound)
    (h : Dequeued xs e p active r) {k : K} (hk : r.channelRevents k ≠ kNoneEvent) :
    (k, r.channelRevents k) ∈ active := by
  rw [h.active]
  refine List.mem_append_left _ (List.mem_map.mpr ⟨k, ?_, rfl⟩)
  exact (h.order k).mpr ((h.found hp).revents k hk)

/-- A channel has one entry. -/
theorem Dequeued.unique {active : List (K × Events)} {r : IocpRound K}
    (h : Dequeued xs e p active r) {k : K} {rev : Events} (hk : (k, rev) ∈ active)
    (hfound : k ∈ r.found) : rev = r.channelRevents k := by
  rw [h.active] at hk
  rcases List.mem_append.mp hk with hk | hk
  · obtain ⟨j, _, he⟩ := List.mem_map.mp hk
    cases he
    rfl
  · obtain ⟨j, hj, he⟩ := List.mem_map.mp hk
    cases he
    simp [hfound] at hj

theorem poll_eq {active : List (K × Events)} (hp : p.Sound) (h : p.poll xs e = some (q, active)) :
    ∃ p₁ r, p₁.Sound ∧ Retried xs p p₁ ∧ Dequeued xs e p₁ active r ∧ q = r.poller := by
  obtain ⟨p₁, hretry, hdequeue⟩ := Option.bind_eq_some_iff.mp h
  obtain ⟨p₂, hsame, hsound, hretried⟩ := retryPosts_retried hp xs e
  rw [hretry] at hsame
  cases hsame
  obtain ⟨r, hr, rfl⟩ := dequeue_eq hdequeue
  exact ⟨p₁, r, hsound, hretried, hr, rfl⟩

theorem Sound.poll {r : IocpPoller K × List (K × Events)} (hp : p.Sound)
    (h : p.poll xs e = some r) : r.1.Sound := by
  obtain ⟨p₁, r', hsound, _, hr, hq⟩ := poll_eq hp h
  rw [hq]
  exact (hr.found hsound).sound

/-- Only the channel it is called on comes to be registered. -/
theorem updateChannel_registered {k j : K} {x : Channel} {bound acceptConn : Bool}
    (h : p.updateChannel k x bound acceptConn = some q) (hj : q.context_ j ≠ none) :
    p.context_ j ≠ none ∨ j = k := by
  by_cases hjk : j = k
  · exact .inr hjk
  · refine .inl ?_
    unfold updateChannel at h
    split at h
    · split at h <;> cases h
      · rw [← Function.update_of_ne hjk (some p.allocated) p.context_]
        exact hj
      · exact hj
    · split at h <;> cases h
      exact hj

theorem removeChannel_registered {k j : K} {x : Channel} (h : p.removeChannel k x = some q)
    (hj : q.context_ j ≠ none) : p.context_ j ≠ none ∧ j ≠ k := by
  obtain ⟨i, _, rfl⟩ := Option.map_eq_some_iff.mp h
  have hj' : Function.update p.context_ k none j ≠ none := hj
  by_cases hjk : j = k
  · rw [hjk, Function.update_self] at hj'
    exact absurd rfl hj'
  · rw [Function.update_of_ne hjk] at hj'
    exact ⟨hj', hjk⟩

end IocpPoller

/-- An `IocpPoller` between two calls. -/
abbrev SoundIocp := { p : IocpPoller ChannelId // p.Sound }

/-- The poller of a loop. The socket of an acceptor is listening when its channel
is first updated; that of a connection never is. -/
def iocpPoller : Poller SoundIocp (IocpChoice ChannelId) where
  new := ⟨{}, IocpPoller.sound_new⟩
  updateChannel p k x e :=
    match h : p.1.updateChannel k x e.bound (k = .acceptor) with
    | some q => some ⟨q, p.2.updateChannel h⟩
    | none => none
  removeChannel p k x :=
    match h : p.1.removeChannel k x with
    | some q => some ⟨q, p.2.removeChannel h⟩
    | none => none
  poll p xs e :=
    match h : p.1.poll xs e with
    | some r => some (⟨r.1, p.2.poll h⟩, some r.2)
    | none => none
  registered p k := p.1.context_ k ≠ none
  not_registered_new h := h rfl
  registered_update h hj := by
    split at h <;> cases h
    next hq => exact IocpPoller.updateChannel_registered hq hj
  registered_remove h hj := by
    split at h <;> cases h
    next hq => exact IocpPoller.removeChannel_registered hq hj
  registered_poll {p xs e r j} h hj := by
    split at h <;> cases h
    next r hr =>
      obtain ⟨p₁, r', hsound, hretried, hdq, hq⟩ := IocpPoller.poll_eq p.2 hr
      have hj' : r.1.context_ j ≠ none := hj
      rw [hq, (hdq.found hsound).same.context_, hretried.same.context_] at hj'
      exact hj'
  poll_registered {p xs e p' active j rev} h hj := by
    split at h <;> cases h
    next r hr =>
      obtain ⟨p₁, r', hsound, hretried, hdq, _⟩ := IocpPoller.poll_eq p.2 hr
      have hreg := hdq.registered hsound hj
      rw [hretried.same.context_] at hreg
      exact hreg

theorem iocpPoller_poll {p : SoundIocp} {xs : ChannelId → Channel} {e : IocpChoice ChannelId}
    {q : SoundIocp × Option (List (ChannelId × Events))} (h : iocpPoller.poll p xs e = some q) :
    ∃ active, q.2 = some active ∧ p.1.poll xs e = some (q.1.1, active) := by
  simp only [iocpPoller] at h
  split at h <;> cases h
  next r hr => exact ⟨r.2, rfl, hr⟩

end Muduox.Net
