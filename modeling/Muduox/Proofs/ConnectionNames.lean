import Muduox.Proofs.ServerBase

/-!
# What `connections_` holds

`newConnection` prints `ipPort#id` into 64 characters, and the address takes 31
at most, so with a ten-digit number nothing is cut off and the name determines
the number. The number is an `int` that counts from one: while fewer than `2^31`
connections have been accepted it has not wrapped. So names are distinct, no
entry of `connections_` is overwritten, and its entries are the connections for
which `removeConnectionInLoop` has not run (`Registry`).
-/

namespace Muduox.Net

/-- `formatInt` on the numbers `nextConnId_` takes. -/
theorem formatInt_ofNat (n : Nat) : formatInt n = Nat.toDigits 10 n := by
  unfold formatInt
  rw [if_neg (by omega), Int.natAbs_natCast]

theorem toDigits_inj {m n : Nat} (h : Nat.toDigits 10 m = Nat.toDigits 10 n) : m = n := by
  rw [← Nat.ofDigitChars_ten_toDigits (n := m), h, Nat.ofDigitChars_ten_toDigits]

/-- The text fits the buffer, so the name is the address and the number. -/
theorem connName_eq (cfg : ServerConfig) {n : Nat} (hn : n < 2 ^ 31) :
    connName cfg n = cfg.name_ ++ '-' :: (cfg.ipPort_.text ++ '#' :: Nat.toDigits 10 n) := by
  have hdigits : (Nat.toDigits 10 n).length ≤ 10 :=
    (Nat.length_toDigits_le_iff (by decide) (by decide)).mpr (by omega)
  have haddr := cfg.ipPort_.short
  unfold connName snprintf
  rw [formatInt_ofNat, List.take_of_length_le]
  simp only [List.length_append, List.length_cons]
  omega

theorem connName_inj {cfg : ServerConfig} {m n : Nat} (hm : m < 2 ^ 31) (hn : n < 2 ^ 31)
    (h : connName cfg m = connName cfg n) : m = n := by
  rw [connName_eq cfg hm, connName_eq cfg hn] at h
  have h1 := List.append_cancel_left h
  have h2 := List.append_cancel_left (List.cons.inj h1).2
  exact toDigits_inj (List.cons.inj h2).2

theorem wrapInt_succ (n : Int) : wrapInt (wrapInt n + 1) = wrapInt (n + 1) := by
  unfold wrapInt
  omega

theorem wrapInt_ofNat {n : Nat} (h : n < 2 ^ 31) : wrapInt n = n := by
  unfold wrapInt
  omega

namespace TcpServer

open Threads Reactor

variable {P E : Type} {cfg : ServerConfig} {poller : Poller P E} {s s' : TcpServer P}
  {t : ThreadId} {a : Code} {c : ConnId}

/-- `removeConnectionInLoop` ran for connection `c`. -/
def Removed (s : TcpServer P) (c : ConnId) : Prop :=
  .removed true ∈ s.log c ∨ .removed false ∈ s.log c

instance (s : TcpServer P) (c : ConnId) : Decidable (Removed s c) :=
  inferInstanceAs (Decidable (_ ∨ _))

/-- The numbering, the names, and the map. -/
structure Registry (cfg : ServerConfig) (s : TcpServer P) : Prop where
  nextConnId : s.nextConnId_ = wrapInt (s.accepted + 1)
  next : cfg.threadNum_ = 0 ∨ s.next_ < cfg.threadNum_
  loop : ∀ c < s.accepted, (s.conn c).loop_ ≤ cfg.threadNum_
  name : ∀ c < s.accepted, (s.conn c).name_ = connName cfg (wrapInt (c + 1))
  map : s.accepted < 2 ^ 31 → ∀ n c, s.connections_ n = some c ↔
    c < s.accepted ∧ (s.conn c).name_ = n ∧ ¬ Removed s c
  erased : s.accepted < 2 ^ 31 → ∀ c,
    (s.log c).count (.removed true) = if Removed s c then 1 else 0

/-- A number that has not wrapped. -/
theorem connName_succ {n : Nat} (h : n + 1 < 2 ^ 31) :
    connName cfg (wrapInt (n + 1)) = connName cfg (n + 1 : Nat) := by
  rw [show (n : Int) + 1 = (n + 1 : Nat) by omega, wrapInt_ofNat h]

theorem Registry.inj (h : Registry cfg s) (hs : s.accepted < 2 ^ 31) {c d : Nat}
    (hc : c < s.accepted) (hd : d < s.accepted) (hcd : (s.conn c).name_ = (s.conn d).name_) :
    c = d := by
  rw [h.name c hc, h.name d hd, connName_succ (by omega), connName_succ (by omega)] at hcd
  have := connName_inj (by omega) (by omega) hcd
  omega

theorem Registry.fresh (h : Registry cfg s) (hs : s.accepted + 1 < 2 ^ 31) :
    s.connections_ (connName cfg s.nextConnId_) = none := by
  cases hc : s.connections_ (connName cfg s.nextConnId_) with
  | none => rfl
  | some c =>
      obtain ⟨hlt, hname, _⟩ := (h.map (by omega) _ _).mp hc
      have hlt : @LT.lt Nat _ c s.accepted := hlt
      rw [h.nextConnId, h.name c hlt, connName_succ (by omega), connName_succ hs] at hname
      have := connName_inj (by omega) hs hname
      omega

theorem removed_congr (hlog : ∀ b, (s'.log c).count (.removed b) = (s.log c).count (.removed b)) :
    Removed s' c ↔ Removed s c := by
  simp only [Removed, ← List.count_pos_iff, hlog]

/-- A step that neither accepts nor removes. -/
theorem Registry.keep (h : Registry cfg s) (hext : Extends s s')
    (hacc : s'.accepted = s.accepted) (hid : s'.nextConnId_ = s.nextConnId_)
    (hnext : s'.next_ = s.next_) (hmap : s'.connections_ = s.connections_)
    (hlog : ∀ c b, (s'.log c).count (.removed b) = (s.log c).count (.removed b)) :
    Registry cfg s' := by
  refine ⟨?_, ?_, fun c hc => ?_, fun c hc => ?_, fun hs n c => ?_, fun hs c => ?_⟩
  · rw [hid, hacc]
    exact h.nextConnId
  · rw [hnext]
    exact h.next
  · rw [hacc] at hc
    rw [hext.loop c hc]
    exact h.loop c hc
  · rw [hacc] at hc
    rw [hext.name c hc]
    exact h.name c hc
  · rw [hacc] at hs ⊢
    rw [hmap, h.map hs, removed_congr (hlog c)]
    refine and_congr_right fun hc => ?_
    rw [hext.name c hc]
  · rw [hacc] at hs
    rw [hlog, h.erased hs]
    exact if_congr (removed_congr (hlog c)).symm rfl rfl

theorem Registry.newConnection (h : Registry cfg s) (hbase : Base poller s) (fd : Int) :
    Registry cfg (newConnection cfg s fd).1 := by
  have hext : Extends s (TcpServer.newConnection cfg s fd).1 := newConnection_extends s fd
  have hself : (TcpServer.newConnection cfg s fd).1.conn s.accepted =
      { loop_ := (getNextLoop cfg s).1
        name_ := connName cfg s.nextConnId_
        channel_ := { fd_ := fd }
        messageCallback_ := cfg.messageCallback_
        writeCompleteCallback_ := cfg.writeCompleteCallback_ } := Function.update_self ..
  have hrem : ∀ c, Removed (TcpServer.newConnection cfg s fd).1 c ↔ Removed s c :=
    fun c => Iff.rfl
  have hnew : ¬ Removed s s.accepted := by
    rw [Removed, hbase.fresh _ (Nat.le_refl _)]
    simp
  refine ⟨?_, ?_, fun c hc => ?_, fun c hc => ?_, fun hs n c => ?_, fun hs c => ?_⟩
  · show wrapInt (s.nextConnId_ + 1) = wrapInt ((s.accepted + 1 : Nat) + 1)
    rw [h.nextConnId, wrapInt_succ]
    push_cast
    rfl
  · show _ ∨ (getNextLoop cfg s).2 < _
    unfold getNextLoop
    split
    · next hz => exact .inl hz
    · next hz => exact .inr (Nat.mod_lt _ (Nat.pos_of_ne_zero hz))
  · rcases Nat.lt_succ_iff_lt_or_eq.mp hc with hlt | rfl
    · rw [hext.loop c hlt]
      exact h.loop c hlt
    · rw [hself]
      show (getNextLoop cfg s).1 ≤ _
      unfold getNextLoop
      split
      · exact Nat.zero_le _
      · next hz => exact h.next.resolve_left hz
  · rcases Nat.lt_succ_iff_lt_or_eq.mp hc with hlt | rfl
    · rw [hext.name c hlt]
      exact h.name c hlt
    · rw [hself]
      show connName cfg s.nextConnId_ = _
      rw [h.nextConnId]
  · have hs : s.accepted + 1 < 2 ^ 31 := hs
    show Function.update s.connections_ (connName cfg s.nextConnId_) (some s.accepted) n = some c ↔
      c < s.accepted + 1 ∧ _
    by_cases hn : n = connName cfg s.nextConnId_
    · rw [hn, Function.update_self, hrem]
      constructor
      · intro hc
        rw [← Option.some.inj hc, hself]
        exact ⟨Nat.lt_succ_self _, rfl, hnew⟩
      · rintro ⟨hc, hname, hr⟩
        rcases Nat.lt_succ_iff_lt_or_eq.mp hc with hlt | rfl
        · rw [hext.name c hlt] at hname
          have := (h.map (by omega) _ c).mpr ⟨hlt, hname, hr⟩
          rw [h.fresh hs] at this
          cases this
        · rfl
    · rw [Function.update_of_ne hn, h.map (by omega), hrem]
      constructor
      · rintro ⟨hc, hname, hr⟩
        exact ⟨Nat.lt_succ_of_lt hc, (hext.name c hc).trans hname, hr⟩
      · rintro ⟨hc, hname, hr⟩
        rcases Nat.lt_succ_iff_lt_or_eq.mp hc with hlt | rfl
        · exact ⟨hlt, (hext.name c hlt).symm.trans hname, hr⟩
        · rw [hself] at hname
          exact absurd hname.symm hn
  · have hs : s.accepted + 1 < 2 ^ 31 := hs
    exact h.erased (by omega) c

theorem Registry.removeConnectionInLoop (h : Registry cfg s) (hc : Established s c) :
    Registry cfg (s.removeConnectionInLoop c).1 := by
  have hother : ∀ d, d ≠ c → (s.removeConnectionInLoop c).1.log d = s.log d := fun d hd =>
    Function.update_of_ne hd ..
  have hself : (s.removeConnectionInLoop c).1.log c =
      s.log c ++ [.removed (s.connections_ (s.conn c).name_).isSome] := Function.update_self ..
  have hrem : ∀ d, Removed (s.removeConnectionInLoop c).1 d ↔ Removed s d ∨ d = c := by
    intro d
    by_cases hd : d = c
    · subst hd
      rw [Removed, hself]
      cases (s.connections_ (s.conn d).name_).isSome <;> simp
    · rw [Removed, hother d hd]
      simp [Removed, hd]
  -- An entry under that name is the connection's own.
  have hsome : s.accepted < 2 ^ 31 →
      ((s.connections_ (s.conn c).name_).isSome = true ↔ ¬ Removed s c) := by
    intro hs
    constructor
    · intro hsome
      obtain ⟨d, hd⟩ := Option.isSome_iff_exists.mp hsome
      obtain ⟨hlt, hname, hr⟩ := (h.map hs _ d).mp hd
      rwa [← h.inj hs hlt hc.1 hname]
    · intro hr
      rw [(h.map hs _ c).mpr ⟨hc.1, rfl, hr⟩]
      rfl
  refine ⟨h.nextConnId, h.next, h.loop, h.name, fun hs n d => ?_, fun hs d => ?_⟩
  · have hs : s.accepted < 2 ^ 31 := hs
    show Function.update s.connections_ (s.conn c).name_ none n = some d ↔
      d < s.accepted ∧ (s.conn d).name_ = n ∧ _
    rw [hrem]
    by_cases hn : n = (s.conn c).name_
    · rw [hn, Function.update_self]
      refine ⟨fun hd => (nomatch hd), ?_⟩
      rintro ⟨hlt, hname, hr⟩
      exact absurd (.inr (h.inj hs hlt hc.1 hname)) hr
    · rw [Function.update_of_ne hn, h.map hs, not_or]
      refine and_congr_right fun _ => and_congr_right fun hname => ⟨fun hr => ⟨hr, ?_⟩, And.left⟩
      rintro rfl
      exact hn hname.symm
  · have hs : s.accepted < 2 ^ 31 := hs
    by_cases hd : d = c
    · subst hd
      rw [hself, List.count_append, h.erased hs, if_pos ((hrem d).mpr (.inr rfl))]
      by_cases hr : Removed s d
      · have hnone : ¬ (s.connections_ (s.conn d).name_).isSome = true := fun hsm =>
          (hsome hs).mp hsm hr
        rw [if_pos hr, Bool.eq_false_iff.mpr hnone]
        rfl
      · rw [if_neg hr, (hsome hs).mpr hr]
        rfl
    · rw [hother d hd, h.erased hs]
      refine if_congr ?_ rfl rfl
      rw [hrem]
      simp [hd]

theorem runs_registry {io : Io E} {next : List (Frame Code)}
    (h : Runs cfg poller t s a io s' next) (hs : Registry cfg s) (hbase : Base poller s)
    (ha : Bound t a s) : Registry cfg s' := by
  obtain ⟨_, _, hext⟩ := runs_base h hbase ha
  cases h with
  | @conn c k io x evs next h =>
      refine hs.keep hext rfl rfl rfl rfl fun d b => ?_
      by_cases hd : d = c
      · subst hd
        have hevs := List.count_eq_zero.mpr ((connRuns_events h).2 b)
        rw [setConn_log_self, List.count_append, List.count_cons_of_ne (by simp), hevs,
          Nat.add_zero]
      · rw [setConn_log_of_ne _ _ _ _ hd]
  | @handleEvent ch =>
      have hr := setChannel_revents s ch kNoneEvent
      have hrest : (s.handleEvent ch).1 = _ := hr.rest
      refine hs.keep hext ?_ ?_ ?_ ?_ fun d b => ?_ <;> rw [hrest]
  | newConnection => exact hs.newConnection hbase _
  | removeConnectionInLoop => exact hs.removeConnectionInLoop ha.1
  | _ => exact hs.keep hext rfl rfl rfl rfl fun _ _ => rfl

theorem registry_started : Registry cfg (started poller).shared.app where
  nextConnId := show (1 : Int) = wrapInt (0 + 1) by decide
  next := Nat.eq_zero_or_pos _
  loop _ hc := absurd hc (Nat.not_lt_zero _)
  name _ hc := absurd hc (Nat.not_lt_zero _)
  map _ _ _ := ⟨fun h => (nomatch h), fun h => absurd h.1 (Nat.not_lt_zero _)⟩
  erased _ _ := rfl

theorem registry {C : State P → ThreadId × Choice Code (Io E) → Prop} {s : State P}
    (h : (lts cfg poller).ReachIf C s) : Registry cfg s.shared.app := by
  have hinv : AppInv (Registry cfg) (fun _ _ _ => True) s := by
    refine run_inv h ⟨registry_started, fun _ _ _ _ _ => trivial, fun _ _ _ _ _ => trivial⟩
      fun {s b s'} hr hI _ hs => ?_
    have hbase := base hr
    refine hI.step hs (sound hr) (fun ht _ hx _ => ?_) (fun _ _ _ hx => ?_) fun _ _ => trivial
    · have hb := hbase.all.stack _ _ (by rw [ht]; exact List.mem_cons_self) _ rfl
      exact ⟨runs_registry (exec_runs hx) hI.app hbase.app hb, fun _ _ _ _ => trivial,
        fun _ _ _ => trivial⟩
    · obtain ⟨_, q, _, _, hr, _⟩ := poll_revents hx
      refine ⟨?_, fun _ _ => trivial, fun _ _ _ => trivial⟩
      refine hI.app.keep (poll_base hx hbase.app).2.2 ?_ ?_ ?_ ?_ fun d b => ?_ <;>
        (rw [hr.rest]; rfl)
  exact hinv.app

end TcpServer

end Muduox.Net
