import Muduox.Proofs.Lifecycle

/-!
# The order of the user callbacks

The connection callback announces a connection, message and write-complete
callbacks follow, and one more connection callback announces its end. The first
one is left by `connectEstablished`, which runs once, and everything else waits
behind it (`Prompt`). The last one is left by `handleClose`, which does not test
`state_`: nothing stops a second `handleClose`, or a read, after the first, and
`Channel::handleEvent` calls up to four handlers in a row. With an error and a
close event together the user is told twice that the connection is down.

The order holds in the runs in which, once `handleClose` has run, the handlers
of that connection have nothing to report (`NoLateHandler`).
-/

namespace Muduox.Net

/-- The user callbacks of a history. -/
def callbacks (log : List Event) : List Callback :=
  log.filterMap fun
    | .callback cb => some cb
    | _ => none

/-- Up to the first `handleClose`, the connection callback and then none of it;
from there on, at most one callback, which is the connection callback. -/
def CallbackProtocol (log : List Event) : Prop :=
  ∃ up down, log = up ++ down ∧ .ran .handleClose ∉ up ∧
    (∀ e ∈ down.head?, e = .ran .handleClose) ∧
    (callbacks log = [] ∨ ∃ mid, .connection ∉ mid ∧ callbacks up = .connection :: mid ∧
      (callbacks down = [] ∨ callbacks down = [.connection]))

@[simp] theorem callbacks_nil : callbacks [] = [] := rfl

@[simp] theorem callbacks_append (l m : List Event) :
    callbacks (l ++ m) = callbacks l ++ callbacks m := List.filterMap_append

@[simp] theorem callbacks_ran (k : ConnCode) (l : List Event) :
    callbacks (.ran k :: l) = callbacks l := rfl

@[simp] theorem callbacks_removed (b : Bool) : callbacks [.removed b] = [] := rfl

/-- A connection is announced and ends at most once. -/
theorem CallbackProtocol.count_le {log : List Event} (h : CallbackProtocol log) :
    (callbacks log).count .connection ≤ 2 := by
  obtain ⟨up, down, hlog, _, _, hnone | ⟨mid, hmid, hup, hdown⟩⟩ := h
  · rw [hnone]
    exact Nat.zero_le _
  · rw [hlog, callbacks_append, hup, List.cons_append, List.count_cons_self, List.count_append,
      List.count_eq_zero.mpr hmid]
    rcases hdown with hd | hd <;> rw [hd] <;> decide

namespace TcpConnection

/-- A handler of connection `x` that has something to report: it will call a user
callback, or lead to `handleClose`. -/
def reports {E : Type} (x : TcpConnection) (k : ConnCode) (io : Io E) : Bool :=
  match k, io with
  | .handleClose, _ | .handleError, _ => true
  | .handleRead, .received r => x.messageCallback_ || decide (Buffer.returned r ≤ 0)
  | .handleWrite, .sent none => x.channel_.isWriting
  | .handleWrite, .sent (some n) =>
      x.channel_.isWriting &&
        (n == 0 || x.writeCompleteCallback_ && decide (x.outputBuffer_.bytes.length ≤ n))
  | _, _ => false

end TcpConnection

namespace TcpServer

open Threads Reactor TcpConnection

variable {P E : Type} {cfg : ServerConfig} {poller : Poller P E}

/-- The handler a thread is about to run, if it has something to report. -/
def reporting (s : State P) (b : ThreadId × Choice Code (Io E)) : Option ConnId :=
  match (s.stack b.1).head?, b.2 with
  | some (.code (.conn c k)), .app io =>
      if (s.shared.app.conn c).reports k io then some c else none
  | _, _ => none

/-- Once `handleClose` has run on a connection, its handlers have nothing to
report. -/
def NoLateHandler (s : State P) (b : ThreadId × Choice Code (Io E)) : Prop :=
  ∀ c ∈ reporting s b, .ran .handleClose ∉ s.shared.app.log c

instance (s : State P) (b : ThreadId × Choice Code (Io E)) : Decidable (NoLateHandler s b) :=
  inferInstanceAs (Decidable (∀ c ∈ reporting s b, _ ∉ _))

/-- How far connection `x` is through the protocol: `calling` when a connection
callback is about to be called, `late` when a write-complete callback is. -/
inductive Stage (x : TcpConnection) (calling late : Prop) (log : List Event) : Prop
  | unborn (hest : .ran .connectEstablished ∉ log) (hclose : .ran .handleClose ∉ log)
      (hcb : callbacks log = []) (hcall : ¬ calling)
  | establishing (hest : log ≠ []) (hclose : .ran .handleClose ∉ log) (hcb : callbacks log = [])
      (hcall : calling)
  | up {mid : List Callback} (hclose : .ran .handleClose ∉ log) (hmid : .connection ∉ mid)
      (hcb : callbacks log = .connection :: mid) (hcall : ¬ calling)
  | closing {mid : List Callback} {up post : List Event}
      (hlog : log = up ++ .ran .handleClose :: post) (hclose : .ran .handleClose ∉ up)
      (hmid : .connection ∉ mid) (hcb : callbacks up = .connection :: mid)
      (hpost : callbacks post = []) (hcall : calling) (hstate : x.state_ ≠ .kConnected)
  | closed {mid : List Callback} {up post : List Event}
      (hlog : log = up ++ .ran .handleClose :: post) (hclose : .ran .handleClose ∉ up)
      (hmid : .connection ∉ mid) (hcb : callbacks up = .connection :: mid)
      (hpost : callbacks post = [.connection]) (hcall : ¬ calling) (hlate : ¬ late)
      (hstate : x.state_ ≠ .kConnected)

theorem Stage.protocol {x : TcpConnection} {calling late : Prop} {log : List Event}
    (h : Stage x calling late log) : CallbackProtocol log := by
  cases h with
  | unborn _ hclose hcb | establishing _ hclose hcb =>
      exact ⟨log, [], (List.append_nil _).symm, hclose, by simp, .inl hcb⟩
  | @up mid hclose hmid hcb =>
      exact ⟨log, [], (List.append_nil _).symm, hclose, by simp, .inr ⟨mid, hmid, hcb, .inl rfl⟩⟩
  | @closing mid up post hlog hclose hmid hcb hpost =>
      exact ⟨up, _, hlog, hclose, by simp, .inr ⟨mid, hmid, hcb, .inl hpost⟩⟩
  | @closed mid up post hlog hclose hmid hcb hpost =>
      exact ⟨up, _, hlog, hclose, by simp, .inr ⟨mid, hmid, hcb, .inr hpost⟩⟩

section Piece

variable {c : ConnId} {t : ThreadId} {x x' : TcpConnection} {k : ConnCode} {io : Io E}
  {evs : List Event} {next : List (Frame Code)}

/-- The pieces that call back. -/
theorem connRuns_callbacks (h : x.Runs c t k io x' evs next) :
    callbacks evs = [] ∨ (k = .connectionCallback ∧ callbacks evs = [.connection]) ∨
      (k.anyThread = false ∧ .connection ∉ callbacks evs ∧
        (x.reports k io = true ∨
          k = .writeCompleteCallback ∧ x.writeCompleteCallback_ = true)) := by
  have hshut : callbacks x.shutdownWrite.events = [] := by
    unfold TcpConnection.shutdownWrite
    cases x.socket_ <;> rfl
  cases h with
  | connectionUp | connectionDown => exact .inr (.inl ⟨rfl, rfl⟩)
  | readMessage _ _ hm =>
      exact .inr (.inr ⟨rfl, by simp [callbacks], .inl (by simp [reports, hm])⟩)
  | writeComplete hw => exact .inr (.inr ⟨rfl, by simp [callbacks], .inr ⟨rfl, hw⟩⟩)
  | halfClose | shutdownNow => exact .inl hshut
  | _ => exact .inl rfl

/-- The pieces that leave a connection callback. -/
theorem connRuns_calling (h : x.Runs c t k io x' evs next) :
    TcpConnection.piece c .connectionCallback ∈ next ↔
      k = .connectEstablished ∨ k = .handleClose := by
  cases h with
  | sendBufferHere | sentPart | queued => simp [piece_notMem_updateUnlessWriting]
  | _ => simp

/-- The pieces that leave a write-complete callback. -/
theorem connRuns_late (h : x.Runs c t k io x' evs next)
    (hmem : TcpConnection.piece c .writeCompleteCallback ∈ next)
    (hw : x.writeCompleteCallback_ = true) :
    x.reports k io = true ∨ x.state_ = .kConnected := by
  cases h with
  | sendBufferHere | sentPart | queued => exact absurd hmem piece_notMem_updateUnlessWriting
  | writeAll hwr => exact .inl (by simp [reports, hwr, hw])
  | sentWhole _ hs => exact .inr hs
  | _ => simp at hmem

/-- A history that goes on without another `handleClose`. -/
theorem handleClose_notMem_append {log : List Event} (hr : x.Runs c t k io x' evs next)
    (hk : k ≠ .handleClose) (hlog : .ran .handleClose ∉ log) :
    .ran .handleClose ∉ log ++ .ran k :: evs := by
  intro hmem
  rcases List.mem_append.mp hmem with hm | hm
  · exact hlog hm
  · rcases List.mem_cons.mp hm with he | hm
    · exact hk (Event.ran.inj he).symm
    · exact (connRuns_events hr).1 _ hm

theorem append_of_closed {log up post : List Event} (hlog : log = up ++ .ran .handleClose :: post)
    (evs : List Event) : log ++ evs = up ++ .ran .handleClose :: (post ++ evs) := by
  rw [hlog, List.append_assoc, List.cons_append]

section Stages

variable {calling late calling' late' : Prop} {log : List Event}

/-- The connection callback is called, which ends `calling`. -/
theorem Stage.connectionCallback (h : Stage x calling late log)
    (hr : x.Runs c t .connectionCallback io x' evs next)
    (hborn : .ran .connectEstablished ∈ log) (hcalling : calling) (hdone : ¬ calling')
    (hquiet : ¬ late') : Stage x' calling' late' (log ++ .ran .connectionCallback :: evs) := by
  have hcbs : callbacks evs = [.connection] := by
    cases hr <;> rfl
  cases h with
  | unborn hno => exact absurd hborn hno
  | establishing _ hclose hnone =>
      have hnew : callbacks (log ++ .ran .connectionCallback :: evs) = [.connection] := by
        rw [callbacks_append, hnone, callbacks_ran, hcbs, List.nil_append]
      exact .up (handleClose_notMem_append hr (by simp) hclose) List.not_mem_nil hnew hdone
  | up _ _ _ hno | closed _ _ _ _ _ hno => exact absurd hcalling hno
  | closing hlog hclose hmid hup hpost _ hst =>
      exact .closed (append_of_closed hlog _) hclose hmid hup (by simp [hpost, hcbs]) hdone hquiet
        (connRuns_connected hr (by simp) hst)

theorem Stage.handleClose (h : Stage x calling late log)
    (hr : x.Runs c t .handleClose io x' evs next) (hborn : .ran .connectEstablished ∈ log)
    (hfirst : .ran .handleClose ∉ log) (hidle : ¬ calling) (hcall : calling') :
    Stage x' calling' late' (log ++ .ran .handleClose :: evs) := by
  have hcbs : callbacks evs = [] := by
    cases hr
    rfl
  have hst : x'.state_ ≠ .kConnected := by
    cases hr
    simp
  cases h with
  | unborn hno => exact absurd hborn hno
  | establishing _ _ _ hc | closing _ _ _ _ _ hc => exact absurd hc hidle
  | closed hlog => exact absurd (by rw [hlog]; simp) hfirst
  | up hclose hmid hup => exact .closing rfl hclose hmid hup hcbs hcall hst

/-- Any other piece leaves connection callbacks alone, and calls back itself only
before the connection is closed. -/
theorem Stage.other (h : Stage x calling late log) (hr : x.Runs c t k io x' evs next)
    (hborn : .ran .connectEstablished ∈ log) (hke : k ≠ .connectEstablished)
    (hkh : k ≠ .handleClose) (hno : .connection ∉ callbacks evs)
    (hsilent : calling → callbacks evs = [])
    (hclosed : .ran .handleClose ∈ log → ¬ late → callbacks evs = [])
    (hsame : calling' ↔ calling) (hquiet : .ran .handleClose ∈ log →
      x.state_ ≠ .kConnected → ¬ late → ¬ late') :
    Stage x' calling' late' (log ++ .ran k :: evs) := by
  have hkeep : .ran .handleClose ∉ log → .ran .handleClose ∉ log ++ .ran k :: evs :=
    handleClose_notMem_append hr hkh
  cases h with
  | unborn hno => exact absurd hborn hno
  | establishing _ hclose hnone hc =>
      exact .establishing (by simp) (hkeep hclose) (by simp [hnone, hsilent hc]) (hsame.mpr hc)
  | @up mid hclose hmid hup hc =>
      have hmid' : .connection ∉ mid ++ callbacks evs := by
        rw [List.mem_append, not_or]
        exact ⟨hmid, hno⟩
      exact .up (hkeep hclose) hmid' (by simp [hup]) fun h => hc (hsame.mp h)
  | closing hlog hclose hmid hup hpost hc hst =>
      exact .closing (append_of_closed hlog _) hclose hmid hup (by simp [hpost, hsilent hc])
        (hsame.mpr hc) (connRuns_connected hr hke hst)
  | closed hlog hclose hmid hup hpost hc hlate hst =>
      have hmem : .ran .handleClose ∈ log := by
        rw [hlog]
        simp
      exact .closed (append_of_closed hlog _) hclose hmid hup
        (by simp [hpost, hclosed hmem hlate]) (fun h => hc (hsame.mp h)) (hquiet hmem hst hlate)
        (connRuns_connected hr hke hst)

/-- A piece of the connection. No piece that the loop's thread runs has a
connection callback below it, but the callback itself (`htop`). -/
theorem Stage.piece (h : Stage x calling late log) (hr : x.Runs c t k io x' evs next)
    (hfirst : k = .connectEstablished → log = [])
    (hest : k ≠ .connectEstablished → .ran .connectEstablished ∈ log)
    (hcond : x.reports k io = true → .ran .handleClose ∉ log)
    (htop : k.anyThread = false → calling → k = .connectionCallback)
    (hcb : k = .connectionCallback → calling)
    (hwc : k = .writeCompleteCallback → x.writeCompleteCallback_ = true → late)
    (hcall : calling' ↔ calling ∧ k ≠ .connectionCallback ∨
      TcpConnection.piece c .connectionCallback ∈ next)
    (hlate : late' → x.writeCompleteCallback_ = true ∧ (late ∧ k ≠ .connectionCallback ∨
      TcpConnection.piece c .writeCompleteCallback ∈ next)) :
    Stage x' calling' late' (log ++ .ran k :: evs) := by
  have hnext := connRuns_calling hr
  by_cases hk : k = .connectEstablished
  · subst hk
    have hlog : log = [] := hfirst rfl
    subst hlog
    have hcbs : callbacks evs = [] := by
      cases hr
      rfl
    exact .establishing (by simp) (handleClose_notMem_append hr (by simp) List.not_mem_nil)
      (by simpa using hcbs) (hcall.mpr (.inr (hnext.mpr (.inl rfl))))
  have hborn : .ran .connectEstablished ∈ log := hest hk
  by_cases hkc : k = .connectionCallback
  · subst hkc
    have hdone : ¬ calling' := by
      rw [hcall, hnext]
      simp
    have hquiet : ¬ late' := by
      intro hl
      rcases (hlate hl).2 with ⟨_, hne⟩ | hmem
      · exact hne rfl
      · cases hr <;> simp at hmem
    exact h.connectionCallback hr hborn (hcb rfl) hdone hquiet
  by_cases hkh : k = .handleClose
  · subst hkh
    have hidle : ¬ calling := fun hc => by cases htop rfl hc
    exact h.handleClose hr hborn (hcond (by cases hr; rfl)) hidle
      (hcall.mpr (.inr (hnext.mpr (.inr rfl))))
  have hsame : calling' ↔ calling := by
    rw [hcall, hnext]
    simp [hk, hkc, hkh]
  have hcbs := connRuns_callbacks hr
  refine h.other hr hborn hk hkh ?_ (fun hc => ?_) (fun hclosed hnolate => ?_) hsame
    fun hclosed hst hnolate hl => ?_
  · rcases hcbs with he | ⟨he, _⟩ | ⟨_, hno, _⟩
    · rw [he]
      exact List.not_mem_nil
    · exact absurd he hkc
    · exact hno
  · rcases hcbs with he | ⟨he, _⟩ | ⟨hthread, _⟩
    · exact he
    · exact absurd he hkc
    · exact absurd (htop hthread hc) hkc
  · rcases hcbs with he | ⟨he, _⟩ | ⟨_, _, hrep | ⟨he, hw⟩⟩
    · exact he
    · exact absurd he hkc
    · exact absurd hclosed (hcond hrep)
    · exact absurd (hwc he hw) hnolate
  · obtain ⟨hw, ⟨hl, _⟩ | hmem⟩ := hlate hl
    · exact hnolate hl
    · rcases connRuns_late hr hmem hw with hrep | hs
      · exact hcond hrep hclosed
      · exact hst hs

end Stages

end Piece

/-- A step that does not touch the connection. -/
theorem Stage.idle {x x' : TcpConnection} {calling late : Prop} {log log' : List Event}
    (h : Stage x calling late log) (hstate : x'.state_ = x.state_)
    (hlog : log' = log ∨ ∃ b, log' = log ++ [.removed b]) : Stage x' calling late log' := by
  rcases hlog with rfl | ⟨b, rfl⟩
  · cases h with
    | unborn hest hclose hcb hcall => exact .unborn hest hclose hcb hcall
    | establishing hest hclose hcb hcall => exact .establishing hest hclose hcb hcall
    | up hclose hmid hcb hcall => exact .up hclose hmid hcb hcall
    | closing hlog hclose hmid hcb hpost hcall hst =>
        exact .closing hlog hclose hmid hcb hpost hcall (by rwa [hstate])
    | closed hlog hclose hmid hcb hpost hcall hlate hst =>
        exact .closed hlog hclose hmid hcb hpost hcall hlate (by rwa [hstate])
  · have happend : ∀ {up post}, log = up ++ .ran .handleClose :: post →
        log ++ [.removed b] = up ++ .ran .handleClose :: (post ++ [.removed b]) := by
      intro up post hlog
      rw [hlog, List.append_assoc, List.cons_append]
    cases h with
    | unborn hest hclose hcb hcall =>
        exact .unborn (by simpa using hest) (by simpa using hclose) (by simpa using hcb) hcall
    | establishing _ hclose hcb hcall =>
        exact .establishing (by simp) (by simpa using hclose) (by simpa using hcb) hcall
    | up hclose hmid hcb hcall =>
        exact .up (by simpa using hclose) hmid (by simpa using hcb) hcall
    | closing hlog hclose hmid hcb hpost hcall hst =>
        exact .closing (happend hlog) hclose hmid hcb (by simpa using hpost) hcall
          (by rwa [hstate])
    | closed hlog hclose hmid hcb hpost hcall hlate hst =>
        exact .closed (happend hlog) hclose hmid hcb (by simpa using hpost) hcall hlate
          (by rwa [hstate])

/-- Where connection `c` is in its protocol. -/
def Staged (s : State P) (c : ConnId) : Prop :=
  Stage (s.shared.app.conn c)
    (TcpConnection.piece c .connectionCallback ∈ s.stack (.loop (s.shared.app.conn c).loop_))
    ((s.shared.app.conn c).writeCompleteCallback_ = true ∧
      TcpConnection.piece c .writeCompleteCallback ∈
        s.stack (.loop (s.shared.app.conn c).loop_))
    (s.shared.app.log c)

/-- Under a piece that its loop runs, nothing immediate waits. -/
theorem not_below {s : State P} {c : ConnId} {t : ThreadId} {k j : ConnCode}
    {rest : List (Frame Code)} (h : Ordered Prompt s)
    (ht : s.stack t = TcpConnection.piece c k :: rest) (hj : j.immediate = true) :
    TcpConnection.piece c j ∉ rest := by
  intro hmem
  have hord := h t
  rw [ht, List.pairwise_cons] at hord
  cases hord.1 _ hmem hj

theorem immediate_thread {k : ConnCode} (h : k.immediate = true) : k.anyThread = false := by
  cases k <;> first | rfl | cases h

/-- What a piece of the connection does to the immediate pieces of its loop. -/
theorem immediate_step {s s' : State P} {c : ConnId} {t : ThreadId} {k j : ConnCode}
    {io : Io E} {evs : List Event} {next rest : List (Frame Code)}
    (hbase : AppInv (Base poller) Bound s) (hprompt : Ordered Prompt s)
    (ht : s.stack t = TcpConnection.piece c k :: rest)
    (hr : (s.shared.app.conn c).Runs c t k io (s'.shared.app.conn c) evs next)
    (hs' : s' = s.resume t s'.shared next rest) (hj : j.immediate = true) :
    TcpConnection.piece c j ∈ s'.stack (.loop (s.shared.app.conn c).loop_) ↔
      TcpConnection.piece c j ∈ s.stack (.loop (s.shared.app.conn c).loop_) ∧ k ≠ j ∨
        TcpConnection.piece c j ∈ next := by
  have hthread : k.anyThread = false → t = .loop (s.shared.app.conn c).loop_ :=
    (hbase.all.stack t (TcpConnection.piece c k) (by rw [ht]; exact List.mem_cons_self) _ rfl).2.2
  by_cases htl : t = .loop (s.shared.app.conn c).loop_
  · rw [hs', ← htl, Config.resume_stack_self, ht]
    simp only [List.mem_append, List.mem_cons, not_below hprompt ht hj, or_false]
    constructor
    · exact .inr
    · rintro (⟨he, hne⟩ | hmem)
      · exact absurd (Code.conn.inj (Frame.code.inj he)).2.symm hne
      · exact hmem
  · have hne : k ≠ j := by
      rintro rfl
      exact htl (hthread (immediate_thread hj))
    have hnext : TcpConnection.piece c j ∉ next := by
      intro hmem
      rcases connRuns_next hr hthread _ hmem _ rfl with ⟨i, he, _, hi⟩ | ⟨he | he, _⟩ | he
      · cases he
        exact htl (hi (immediate_thread hj))
      all_goals cases he
    rw [hs', Config.resume_stack_of_ne s (Ne.symm htl)]
    simp [hne, hnext]

theorem Staged.piece {s s' : State P} {c : ConnId} {t : ThreadId} {k : ConnCode} {io : Io E}
    {evs : List Event} {next rest : List (Frame Code)} (h : Staged s c)
    (hbase : AppInv (Base poller) Bound s) (hprompt : Ordered Prompt s)
    (hfirst : k = .connectEstablished → s.shared.app.log c = [])
    (hc : (s.shared.app.conn c).reports k io = true → .ran .handleClose ∉ s.shared.app.log c)
    (ht : s.stack t = TcpConnection.piece c k :: rest)
    (hr : (s.shared.app.conn c).Runs c t k io (s'.shared.app.conn c) evs next)
    (hlog : s'.shared.app.log c = s.shared.app.log c ++ .ran k :: evs)
    (hs' : s' = s.resume t s'.shared next rest) : Staged s' c := by
  obtain ⟨hl, _, _, hwc⟩ := connRuns_const hr
  have htop : TcpConnection.piece c k ∈ s.stack t := by
    rw [ht]
    exact List.mem_cons_self
  have hbound : Bound t (.conn c k) s.shared.app := hbase.all.stack t _ htop _ rfl
  have hcalls := immediate_step hbase hprompt ht hr hs' (j := .connectionCallback) rfl
  have hlates := immediate_step hbase hprompt ht hr hs' (j := .writeCompleteCallback) rfl
  unfold Staged
  rw [hlog, hl, hwc]
  refine Stage.piece h hr hfirst (fun hk => (hbound.2.1 hk).2) hc (fun hk hcall => ?_)
    (fun hk => ?_) (fun hk hw => ⟨hw, ?_⟩) hcalls fun ⟨hw, hmem⟩ => ⟨hw, ?_⟩
  · rw [← hbound.2.2 hk, ht] at hcall
    rcases List.mem_cons.mp hcall with he | hmem
    · exact (Code.conn.inj (Frame.code.inj he)).2.symm
    · exact absurd hmem (not_below hprompt ht rfl)
  · subst hk
    rwa [← hbound.2.2 rfl]
  · subst hk
    rwa [← hbound.2.2 rfl]
  · rcases hlates.mp hmem with ⟨hold, _⟩ | hnew
    · by_cases hk : k = .connectionCallback
      · subst hk
        rw [← hbound.2.2 rfl, ht] at hold
        rcases List.mem_cons.mp hold with he | hbelow
        · cases he
        · exact absurd hbelow (not_below hprompt ht rfl)
      · exact .inl ⟨⟨hw, hold⟩, hk⟩
    · exact .inr hnew

theorem staged_step {C : State P → ThreadId × Choice Code (Io E) → Prop} {s s' : State P}
    {b : ThreadId × Choice Code (Io E)} (hr : (lts cfg poller).ReachIf C s) {c : ConnId}
    (h : Staged s c) (hc : c ∈ reporting s b → .ran .handleClose ∉ s.shared.app.log c)
    (hs : (lts cfg poller).step s b = some s') : Staged s' c := by
  obtain ⟨t, ch⟩ := b
  cases step_conn hs (base hr) (wrapped hr) c with
  | piece ht hch hruns hlog hs' =>
      subst hch
      refine h.piece (base hr) (prompt hr) (fun hk => ?_) (fun hrep => hc ?_) ht hruns hlog hs'
      · subst hk
        exact nothing_before hr ht
      · simp [reporting, ht, hrep]
  | idle hi hstack =>
      obtain ⟨r, hx⟩ := hi.conn
      have hl : (s'.shared.app.conn c).loop_ = (s.shared.app.conn c).loop_ := by rw [hx]
      have hw : (s'.shared.app.conn c).writeCompleteCallback_ =
          (s.shared.app.conn c).writeCompleteCallback_ := by rw [hx]
      have hst : (s'.shared.app.conn c).state_ = (s.shared.app.conn c).state_ := by rw [hx]
      unfold Staged
      rw [hl, hw, hstack _ _ rfl, hstack _ _ rfl]
      exact Stage.idle h hst hi.log
  | new _ hconn hlog hstack =>
      unfold Staged
      rw [hlog]
      exact .unborn (by simp) (by simp) rfl (hstack _ _)

theorem staged_started (c : ConnId) : Staged (started poller) c := by
  refine .unborn (by simp [started]) (by simp [started]) rfl fun hmem => ?_
  cases List.mem_singleton.mp hmem

/-- Along every run in which no handler of a closed connection has anything to
report, the callbacks of every connection keep to the protocol. -/
theorem callback_protocol {s : State P} (h : (lts cfg poller).ReachIf NoLateHandler s)
    (c : ConnId) : CallbackProtocol (s.shared.app.log c) :=
  Stage.protocol <| run_inv (I := fun s => Staged s c) h (staged_started c)
    fun hr hI hc hs => staged_step hr hI (hc c) hs

/-- A connection that comes up and is closed by its peer. -/
theorem callback_protocol_closed :
    ∃ s : State (List ChannelId),
      callbacks (s.shared.app.log 0) = [.connection, .connection] ∧
      CallbackProtocol (s.shared.app.log 0) := by
  obtain ⟨s, hs, hp⟩ := Lts.exists_reachIf (lts echoConfig anyPoller) NoLateHandler
    (connecting.append [(.loop 0, .ret), (.loop 0, .go), (.loop 0, .go),
      (.loop 0, .poll (.poller [(.conn 0, { close := true })]) 0), (.loop 0, .app .none),
      (.loop 0, .app .none), (.loop 0, .app .none)])
    (fun s => decide (callbacks (s.shared.app.log 0) = [.connection, .connection])) rfl
    (by decide +kernel)
  exact ⟨s, of_decide_eq_true hp, callback_protocol hs 0⟩

/-- With an error and a close event together the connection goes down twice. -/
theorem error_and_close_reported_twice :
    ¬ ∀ (s : State (List ChannelId)) (c : ConnId), (lts echoConfig anyPoller).Reach s →
      CallbackProtocol (s.shared.app.log c) := by
  intro h
  obtain ⟨s, hs, hp⟩ := Lts.exists_reach (lts echoConfig anyPoller)
    (connecting.append [(.loop 0, .ret), (.loop 0, .go), (.loop 0, .go),
      (.loop 0, .poll (.poller [(.conn 0, { error := true, close := true })]) 0),
      (.loop 0, .app .none), (.loop 0, .app .none), (.loop 0, .app .none), (.loop 0, .app .none),
      (.loop 0, .app .none), (.loop 0, .go), (.loop 0, .app .none), (.loop 0, .go),
      (.loop 0, .ret), (.loop 0, .app .none), (.loop 0, .app .none)])
    (fun s => decide (3 ≤ (callbacks (s.shared.app.log 0)).count .connection)) rfl
    (by decide +kernel)
  have hle := (h s 0 hs).count_le
  have := of_decide_eq_true hp
  omega

end TcpServer

end Muduox.Net
