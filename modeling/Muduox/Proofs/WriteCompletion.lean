import Muduox.Proofs.ConnectionRuns
import Muduox.Proofs.OutputStream

/-!
# The write-complete callback

It is called from two places, on different tests: in `sendInLoop` when the
socket took the whole message over an empty buffer, and in `handleWrite` when
what it took emptied the buffer. Both say the same of the output stream, that
the socket has taken everything accepted so far. `Notified` reads a history for
this: a send that gets there is answered by one callback before anything else is
accepted or sent, and there is no other callback. Between the send and its
callback only the poller is called, so a send made by the callback comes after
it and is answered on its own.

A history tells nothing of code that never gets there. That it does is the other
half (`Offers`): whatever count the socket returns is an outcome of the code that
asked it, and the callback is next when that was all.
-/

namespace Muduox.Net

/-- What `Notified` reads of a history. -/
def Event.speaks : Event → Bool
  | .accepted _ | .sent _ | .callback .writeComplete => true
  | _ => false

/-- Nothing accepted, sent or reported. -/
def Silent (evs : List Event) : Prop := ∀ e ∈ evs, e.speaks = false

/-- The socket has taken every byte of every accepted message. -/
def AllSent (log : List Event) : Prop := sentBytes log = acceptedBytes log

/-- Each send that delivers everything is answered by one callback, and each
callback answers one; `owed` says whether the last send still waits for its. -/
inductive Notified : List Event → Bool → Prop
  | nil : Notified [] false
  | quiet {log : List Event} {owed : Bool} {e : Event} :
      Notified log owed → e.speaks = false → Notified (log ++ [e]) owed
  | accepted {log : List Event} {m : Message} :
      Notified log false → Notified (log ++ [.accepted m]) false
  | part {log : List Event} {d : List UInt8} :
      Notified log false → ¬ AllSent (log ++ [.sent d]) → Notified (log ++ [.sent d]) false
  | whole {log : List Event} {d : List UInt8} :
      Notified log false → AllSent (log ++ [.sent d]) → Notified (log ++ [.sent d]) true
  | callback {log : List Event} :
      Notified log true → Notified (log ++ [.callback .writeComplete]) false

theorem Silent.append {evs evs' : List Event} (h : Silent evs) (h' : Silent evs') :
    Silent (evs ++ evs') := List.forall_mem_append.mpr ⟨h, h'⟩

theorem Silent.bytes {evs : List Event} (h : Silent evs) :
    sentBytes evs = [] ∧ acceptedBytes evs = [] := by
  induction evs with
  | nil => exact ⟨rfl, rfl⟩
  | cons e evs ih =>
      obtain ⟨he, hevs⟩ := List.forall_mem_cons.mp h
      obtain ⟨hsent, haccepted⟩ := ih hevs
      rw [← List.singleton_append, sentBytes_append, acceptedBytes_append, hsent, haccepted]
      cases e with
      | sent _ | accepted _ => cases he
      | callback cb => exact ⟨rfl, rfl⟩
      | _ => exact ⟨rfl, rfl⟩

theorem AllSent.append {log evs : List Event} (h : AllSent log) (hevs : Silent evs) :
    AllSent (log ++ evs) := by
  unfold AllSent
  rw [sentBytes_append, acceptedBytes_append, hevs.bytes.1, hevs.bytes.2, h]

theorem Notified.append {log evs : List Event} {owed : Bool} (h : Notified log owed)
    (hevs : Silent evs) : Notified (log ++ evs) owed := by
  induction evs generalizing log with
  | nil => rwa [List.append_nil]
  | cons e evs ih =>
      obtain ⟨he, hevs⟩ := List.forall_mem_cons.mp hevs
      have hrest := ih (h.quiet he) hevs
      rwa [List.append_assoc] at hrest

/-- The last send of a history waits for its callback. -/
def Waits (log : List Event) : Prop :=
  ∃ pre d q, log = pre ++ .sent d :: q ∧ Silent q ∧ AllSent (pre ++ [.sent d])

theorem Notified.waits {log : List Event} {owed : Bool} (h : Notified log owed) (ho : owed = true) :
    Waits log := by
  induction h with
  | @quiet _ _ e _ he ih =>
      obtain ⟨pre, d, q, rfl, hq, hd⟩ := ih ho
      exact ⟨pre, d, q ++ [e], by simp, hq.append (List.forall_mem_singleton.mpr he), hd⟩
  | @whole log d _ hd => exact ⟨log, d, [], rfl, by simp [Silent], hd⟩
  | nil | accepted | part | callback => cases ho

theorem Waits.delivered {log : List Event} (h : Waits log) : AllSent log := by
  obtain ⟨pre, d, q, rfl, hq, hd⟩ := h
  have := hd.append hq
  rwa [List.append_assoc] at this

/-- Each callback answers a send that was waiting. -/
theorem Notified.answers {log : List Event} {owed : Bool} (h : Notified log owed) :
    ∀ {pre post : List Event}, log = pre ++ .callback .writeComplete :: post → Waits pre := by
  -- A longer history has one more event behind the callback.
  have hlonger : ∀ {log pre post : List Event} {e : Event},
      (∀ {pre post}, log = pre ++ .callback .writeComplete :: post → Waits pre) →
      (e = .callback .writeComplete → Waits log) →
      log ++ [e] = pre ++ .callback .writeComplete :: post → Waits pre := by
    intro log pre post e ih hlast heq
    rcases List.eq_nil_or_concat post with rfl | ⟨post, e', rfl⟩
    · obtain ⟨rfl, he⟩ := List.append_inj' heq rfl
      exact hlast (List.cons.inj he).1
    · have heq' : log ++ [e] = (pre ++ .callback .writeComplete :: post) ++ [e'] := by
        rw [heq]
        simp
      exact ih (List.append_inj' heq' rfl).1
  induction h with
  | nil => intro pre post heq; simp at heq
  | quiet _ he ih => exact hlonger ih fun h => by rw [h] at he; cases he
  | accepted _ ih => exact hlonger ih fun h => by cases h
  | part _ _ ih => exact hlonger ih fun h => by cases h
  | whole _ _ ih => exact hlonger ih fun h => by cases h
  | callback h ih => exact hlonger ih fun _ => h.waits rfl

/-- There is a callback, and nothing is accepted or sent before it. -/
def Answered (evs : List Event) : Prop :=
  ∃ q rest, evs = q ++ .callback .writeComplete :: rest ∧ Silent q

/-- Each send that delivers everything is answered, or still waiting. -/
theorem Notified.answered {log : List Event} {owed : Bool} (h : Notified log owed) :
    ∀ {pre : List Event} {d : List UInt8} {post : List Event}, log = pre ++ .sent d :: post →
      AllSent (pre ++ [.sent d]) → Answered post ∨ Silent post ∧ owed = true := by
  have hlonger : ∀ {log pre post : List Event} {d : List UInt8} {e : Event} {owed owed' : Bool},
      (∀ {pre d post}, log = pre ++ .sent d :: post → AllSent (pre ++ [.sent d]) →
        Answered post ∨ Silent post ∧ owed = true) →
      (e = .sent d → AllSent (log ++ [e]) → owed' = true) →
      (e.speaks = false ∧ owed' = owed ∨ e = .callback .writeComplete ∨ owed = false) →
      log ++ [e] = pre ++ .sent d :: post → AllSent (pre ++ [.sent d]) →
      Answered post ∨ Silent post ∧ owed' = true := by
    intro log pre post d e owed owed' ih hlast hcase heq hd
    rcases List.eq_nil_or_concat post with rfl | ⟨post, e', rfl⟩
    · obtain ⟨rfl, he⟩ := List.append_inj' heq rfl
      have he := (List.cons.inj he).1
      exact .inr ⟨by simp [Silent], hlast he (he ▸ hd)⟩
    · have heq' : log ++ [e] = (pre ++ .sent d :: post) ++ [e'] := by
        rw [heq]
        simp
      obtain ⟨hlog, he⟩ := List.append_inj' heq' rfl
      cases he
      rcases ih hlog hd with ⟨q, rest, rfl, hq⟩ | ⟨hsilent, howed⟩
      · exact .inl ⟨q, rest ++ [e], by simp, hq⟩
      · rcases hcase with ⟨he, hsame⟩ | rfl | hpaid
        · refine .inr ⟨?_, hsame.trans howed⟩
          rw [List.concat_eq_append]
          exact hsilent.append (List.forall_mem_singleton.mpr he)
        · exact .inl ⟨post, [], List.concat_eq_append, hsilent⟩
        · rw [howed] at hpaid
          cases hpaid
  induction h with
  | nil => intro pre d post heq; simp at heq
  | quiet _ he ih =>
      exact hlonger ih (fun h _ => by rw [h] at he; cases he) (.inl ⟨he, rfl⟩)
  | accepted _ ih => exact hlonger ih (fun h _ => by cases h) (.inr (.inr rfl))
  | part _ hd ih => exact hlonger ih (fun _ h => absurd h hd) (.inr (.inr rfl))
  | whole _ _ ih => exact hlonger ih (fun _ _ => rfl) (.inr (.inr rfl))
  | callback _ ih => exact hlonger ih (fun h _ => by cases h) (.inr (.inl rfl))

/-! ## Runs -/

namespace TcpServer

open Threads Reactor TcpConnection

variable {P E : Type} {cfg : ServerConfig} {poller : Poller P E}

/-- The write-complete callback of `c` is to be called on the loop's thread. -/
def Owing (s : State P) (c : ConnId) : Prop :=
  TcpConnection.piece c .writeCompleteCallback ∈ s.stack (.loop (s.shared.app.conn c).loop_)

/-- Only calls of the poller come before it. -/
def CallsNext (s : State P) (c : ConnId) : Prop :=
  ∃ calls rest, s.stack (.loop (s.shared.app.conn c).loop_) =
    calls ++ TcpConnection.piece c .writeCompleteCallback :: rest ∧
      ∀ f ∈ calls, pollerCall f = true

/-- The history is told up to the callback that is on the loop's stack. -/
def Telling (s : State P) (c : ConnId) : Prop :=
  (s.shared.app.conn c).writeCompleteCallback_ = true →
    ∃ owed, Notified (s.shared.app.log c) owed ∧ (owed = true ↔ Owing s c)

section Piece

variable {c : ConnId} {t : ThreadId} {x x' : TcpConnection} {k : ConnCode} {io : Io E}
  {evs log : List Event} {next : List (Frame Code)}

theorem delivered_of_drained {x : TcpConnection} {log : List Event} (h : Conserved x log)
    (hout : x.outputBuffer_.bytes = []) : AllSent log := by
  rwa [Conserved, hout, List.append_nil] at h

theorem not_delivered {x : TcpConnection} {log : List Event} (h : Conserved x log)
    (hout : x.outputBuffer_.bytes ≠ []) : ¬ AllSent log := by
  intro hd
  rw [Conserved, hd] at h
  exact hout (List.append_right_eq_self.mp h)

/-- A piece of a connection that owes its callback iff the piece is the callback:
it is silent and leaves no callback to call, or the history goes on as told. -/
theorem connRuns_notified (h : x.Runs c t k io x' evs next) (hcb : x.writeCompleteCallback_ = true)
    {owed : Bool} (hlog : Notified log owed) (hcons : Conserved x' (log ++ .ran k :: evs))
    (hk : k.anyThread = false → t = .loop x.loop_)
    (hpaid : t = .loop x.loop_ → (owed = true ↔ k = .writeCompleteCallback)) :
    (Silent (.ran k :: evs) ∧ k ≠ .writeCompleteCallback ∧
      TcpConnection.piece c .writeCompleteCallback ∉ next) ∨
    t = .loop x.loop_ ∧ ∃ owed', Notified (log ++ .ran k :: evs) owed' ∧
      (owed' = true ↔ TcpConnection.piece c .writeCompleteCallback ∈ next) := by
  have hran : Notified (log ++ [.ran k]) owed := hlog.quiet rfl
  have hfree : k ≠ .writeCompleteCallback → t = .loop x.loop_ → owed = false := by
    intro hne ht
    exact Bool.eq_false_iff.mpr fun ho => hne ((hpaid ht).mp ho)
  have hsplit : ∀ {e : Event} {es : List Event}, log ++ .ran k :: e :: es =
      (log ++ [.ran k] ++ [e]) ++ es := by simp
  cases h with
  | writePart _ _ hlt hb =>
      have ht := hk rfl
      rw [hfree (by simp) ht] at hran
      have hrest : _ ≠ [] := fun hnil => absurd (List.drop_eq_nil_iff.mp hnil) (Nat.not_le.mpr hlt)
      have hnot := not_delivered hcons (by rw [← hb] at hrest; exact hrest)
      rw [hsplit, List.append_nil] at hnot ⊢
      exact .inr ⟨ht, false, hran.part hnot, by simp⟩
  | writeAll _ _ hb =>
      have ht := hk rfl
      rw [hfree (by simp) ht] at hran
      have hall := delivered_of_drained hcons hb
      rw [hsplit, List.append_nil] at hall ⊢
      exact .inr ⟨ht, true, hran.whole hall, by simp⟩
  | writeComplete =>
      have ht := hk rfl
      rw [(hpaid ht).mpr rfl] at hran
      rw [hsplit, List.append_nil]
      exact .inr ⟨ht, false, hran.callback, by simp⟩
  | noWriteComplete hnone =>
      rw [hcb] at hnone
      cases hnone
  | sendBufferHere _ ht | queued ht =>
      rw [hfree (by simp) ht] at hran
      rw [hsplit, List.append_nil]
      exact .inr ⟨ht, false, hran.accepted, by simpa using piece_notMem_updateUnlessWriting⟩
  | sentWhole ht _ _ hout =>
      rw [hfree (by simp) ht] at hran
      have hall := delivered_of_drained hcons hout
      rw [hsplit] at hall ⊢
      exact .inr ⟨ht, true, hran.accepted.whole hall, by simp⟩
  | sentPart ht _ _ _ hn hx =>
      rw [hfree (by simp) ht] at hran
      have hnot := not_delivered hcons (by
        rw [hx.bytes]
        intro hnil
        have := (List.append_eq_nil_iff.mp hnil).2
        exact absurd (List.drop_eq_nil_iff.mp this) (Nat.not_le.mpr hn))
      rw [hsplit] at hnot ⊢
      exact .inr
        ⟨ht, false, hran.accepted.part hnot, by simpa using piece_notMem_updateUnlessWriting⟩
  | halfClose | shutdownNow =>
      refine .inl ⟨?_, by simp, by simp⟩
      unfold TcpConnection.shutdownWrite
      cases x.socket_ <;> simp [Silent, Event.speaks]
  | _ => exact .inl ⟨by simp [Silent, Event.speaks], by simp, by simp⟩

end Piece

theorem telling_step {s s' : State P} {b : ThreadId × Choice Code (Io E)} {c : ConnId}
    (hr : (lts cfg poller).Reach s) (h : Telling s c) (hs : (lts cfg poller).step s b = some s') :
    Telling s' c := by
  obtain ⟨t, ch⟩ := b
  have hbase := base hr
  have hcons := conserved (hr.step hs) c
  cases step_conn hs hbase (wrapped hr) c with
  | @piece k io evs next rest ht hch hruns hlog hs' =>
      intro hcb
      obtain ⟨hl, -, -, hconst⟩ := connRuns_const hruns
      rw [hconst] at hcb
      obtain ⟨owed, htold, howed⟩ := h hcb
      have hbound : Bound t (.conn c k) s.shared.app :=
        hbase.all.stack t _ (by rw [ht]; exact List.mem_cons_self) _ rfl
      have hord := prompt hr t
      rw [ht, List.pairwise_cons] at hord
      -- Below a piece there is no immediate one.
      have hrest : TcpConnection.piece c .writeCompleteCallback ∉ rest := fun hmem => by
        cases hord.1 _ hmem rfl
      have hpaid : t = .loop (s.shared.app.conn c).loop_ →
          (owed = true ↔ k = .writeCompleteCallback) := by
        intro hloop
        rw [howed, Owing, ← hloop, ht, List.mem_cons, or_iff_left hrest]
        constructor
        · intro he
          cases he
          rfl
        · rintro rfl
          rfl
      rw [hlog] at hcons
      rw [hlog, Owing, hl, hs']
      rcases connRuns_notified hruns hcb htold hcons hbound.2.2 hpaid with
        ⟨hsilent, hk, hnext⟩ | ⟨hloop, owed', htold', howed'⟩
      · refine ⟨owed, htold.append hsilent, howed.trans ?_⟩
        exact (mem_resume_iff ht (by simpa using Ne.symm hk) hnext).symm
      · refine ⟨owed', htold', howed'.trans ?_⟩
        rw [← hloop, Config.resume_stack_self, List.mem_append, or_iff_left hrest]
  | idle hi hstack =>
      intro hcb
      obtain ⟨r, hx⟩ := hi.conn
      have hl : (s'.shared.app.conn c).loop_ = (s.shared.app.conn c).loop_ := by rw [hx]
      obtain ⟨owed, htold, howed⟩ := h (by rw [hx] at hcb; exact hcb)
      refine ⟨owed, ?_, ?_⟩
      · rcases hi.log with he | ⟨b, he⟩ <;> rw [he]
        · exact htold
        · exact htold.quiet rfl
      · rw [howed, Owing, Owing, hl]
        exact (hstack _ _ rfl).symm
  | new _ _ hlog hstack =>
      intro _
      rw [hlog, Owing]
      exact ⟨false, .nil, by simp [hstack]⟩

theorem telling {s : State P} (h : (lts cfg poller).Reach s) (c : ConnId) : Telling s c :=
  run_inv (I := fun s => Telling s c) h (fun hcb => by cases hcb)
    fun hr hI _ hs => telling_step hr hI hs

theorem callsNext {s : State P} {c : ConnId} (h : (lts cfg poller).Reach s) (ho : Owing s c) :
    CallsNext s c := by
  obtain ⟨calls, rest, heq⟩ := List.append_of_mem ho
  have hord := prompt h (.loop (s.shared.app.conn c).loop_)
  rw [heq, List.pairwise_append] at hord
  exact ⟨calls, rest, heq, fun f hf => hord.2.2 f hf _ List.mem_cons_self rfl⟩

/-- Thread `t` offers the socket `d`, and may be told that it took `n` bytes of
it: that is what happens, behind `evs`, and when it is all of `d` the
write-complete callback is next. -/
def Offers (cfg : ServerConfig) (poller : Poller P E) (s : State P) (t : ThreadId) (c : ConnId)
    (evs : List Event) (d : List UInt8) (n : Nat) : Prop :=
  ∃ s', (lts cfg poller).step s (t, .app (.sent (some n))) = some s' ∧
    s'.shared.app.log c = s.shared.app.log c ++ evs ++ [.sent (d.take n)] ∧
      (n = d.length → CallsNext s' c)

section Offers

variable {s : State P} {c : ConnId} {t : ThreadId} {k : ConnCode} {rest : List (Frame Code)}

/-- A piece that takes any count, and is followed by the callback when the count
is all there was. -/
theorem offers {o : TcpConnection.Outcome} {evs : List Event} {d : List UInt8} {n : Nat}
    {after : List (Frame Code)} (calls : List (Frame Code)) (h : (lts cfg poller).Reach s)
    (ht : s.stack t = TcpConnection.piece c k :: rest) (hk : k.anyThread = false)
    (ho : (s.shared.app.conn c).exec c t cfg.platform k (Io.sent (E := E) (some n)) = some o)
    (hevs : .ran k :: o.events = evs ++ [.sent (d.take n)])
    (hnext : n = d.length →
      o.next = calls ++ TcpConnection.piece c .writeCompleteCallback :: after)
    (hcalls : ∀ f ∈ calls, pollerCall f = true) : Offers cfg poller s t c evs d n := by
  have hbound : Bound t (.conn c k) s.shared.app :=
    (base h).all.stack t _ (by rw [ht]; exact List.mem_cons_self) _ rfl
  obtain ⟨hl, -⟩ := connRuns_const (TcpConnection.exec_runs ho)
  refine ⟨_, piece_step ht ho, ?_, fun hall => ⟨calls, after ++ rest, ?_, hcalls⟩⟩
  · show (s.shared.app.setConn c k o).log c = _
    rw [setConn_log_self, hevs, List.append_assoc]
  · show (s.resume t _ o.next rest).stack (.loop ((s.shared.app.setConn c k o).conn c).loop_) = _
    rw [setConn_conn_self, hl, ← hbound.2.2 hk, Config.resume_stack_self, hnext hall]
    simp

theorem offers_handleWrite {n : Nat} (h : (lts cfg poller).Reach s)
    (ht : s.stack t = TcpConnection.piece c .handleWrite :: rest)
    (hw : (s.shared.app.conn c).channel_.isWriting = true) (hpos : 0 < n)
    (hn : n ≤ (s.shared.app.conn c).outputBuffer_.bytes.length) :
    Offers cfg poller s t c [.ran .handleWrite] (s.shared.app.conn c).outputBuffer_.bytes n := by
  obtain ⟨o, ho, hevs, hnext⟩ := TcpConnection.handleWrite_takes hw hpos hn
  exact offers [TcpConnection.update c] h ht rfl ho (by rw [hevs]; rfl) hnext
    (by simp [pollerCall])

theorem offers_sendInLoop {m : Message} {n : Nat} (h : (lts cfg poller).Reach s)
    (ht : s.stack t = TcpConnection.piece c (.sendInLoop m) :: rest)
    (hstate : (s.shared.app.conn c).state_ = .kConnected)
    (hw : (s.shared.app.conn c).channel_.isWriting = false)
    (hout : (s.shared.app.conn c).outputBuffer_.bytes = []) (hn : n ≤ m.bytes.1.length)
    (hroom : n < m.bytes.1.length →
      ¬ (s.shared.app.conn c).outputBuffer_.1.Refuses (m.bytes.1.length - n)) :
    Offers cfg poller s t c [.ran (.sendInLoop m), .accepted m] m.bytes.1 n := by
  have hbound : Bound t (.conn c (.sendInLoop m)) s.shared.app :=
    (base h).all.stack t _ (by rw [ht]; exact List.mem_cons_self) _ rfl
  obtain ⟨o, ho, hevs, hnext⟩ :=
    TcpConnection.sendInLoop_takes (hbound.2.2 rfl) hstate hw hout hn hroom
  exact offers [] h ht rfl ho (by rw [hevs]; rfl) hnext (by simp)

end Offers

/-- Every connection with a write-complete callback, in every run. When the
callback is entered, the buffer is empty and the socket has taken all that was
accepted, and it is called; each callback answers a send that got there, with
nothing accepted, sent or reported between the two; and each such send is
answered so, or its callback is next on the loop's thread. Both that send may
return any count, which is then what was sent, and the callback is next when it
leaves nothing: `handleWrite`, of what is queued, and `sendInLoop`, of its message
while nothing is. -/
theorem write_completed {s : State P} (h : (lts cfg poller).Reach s) {c : ConnId}
    (hcb : (s.shared.app.conn c).writeCompleteCallback_ = true) :
    (∀ t rest, s.stack t = TcpConnection.piece c .writeCompleteCallback :: rest →
      ((s.shared.app.conn c).outputBuffer_.bytes = [] ∧ AllSent (s.shared.app.log c)) ∧
        ∃ s', (lts cfg poller).step s (t, .app .none) = some s' ∧ s'.shared.app.log c =
          s.shared.app.log c ++ [.ran .writeCompleteCallback, .callback .writeComplete]) ∧
    (∀ pre post, s.shared.app.log c = pre ++ .callback .writeComplete :: post → Waits pre) ∧
    (∀ pre d post, s.shared.app.log c = pre ++ .sent d :: post → AllSent (pre ++ [.sent d]) →
      Answered post ∨ Silent post ∧ CallsNext s c) ∧
    (∀ t rest n, s.stack t = TcpConnection.piece c .handleWrite :: rest →
      (s.shared.app.conn c).channel_.isWriting = true → 0 < n →
      n ≤ (s.shared.app.conn c).outputBuffer_.bytes.length →
      Offers cfg poller s t c [.ran .handleWrite] (s.shared.app.conn c).outputBuffer_.bytes n) ∧
    ∀ t rest m n, s.stack t = TcpConnection.piece c (.sendInLoop m) :: rest →
      (s.shared.app.conn c).state_ = .kConnected →
      (s.shared.app.conn c).channel_.isWriting = false →
      (s.shared.app.conn c).outputBuffer_.bytes = [] → n ≤ m.bytes.1.length →
      (n < m.bytes.1.length →
        ¬ (s.shared.app.conn c).outputBuffer_.1.Refuses (m.bytes.1.length - n)) →
      Offers cfg poller s t c [.ran (.sendInLoop m), .accepted m] m.bytes.1 n := by
  obtain ⟨owed, htold, howed⟩ := telling h c hcb
  refine ⟨fun t rest ht => ⟨?_, ?_⟩, fun _ _ hlog => htold.answers hlog, fun _ _ _ hlog hd => ?_,
    fun _ _ _ ht hw hpos hn => offers_handleWrite h ht hw hpos hn,
    fun _ _ _ _ ht hstate hw hout hn hroom => offers_sendInLoop h ht hstate hw hout hn hroom⟩
  · have hbound : Bound t (.conn c .writeCompleteCallback) s.shared.app :=
      (base h).all.stack t _ (by rw [ht]; exact List.mem_cons_self) _ rfl
    have ho : Owing s c := by
      rw [Owing, ← hbound.2.2 rfl, ht]
      exact List.mem_cons_self
    have hd := (htold.waits (howed.mpr ho)).delivered
    have hcons : Conserved _ _ := conserved h c
    refine ⟨?_, hd⟩
    by_contra hout
    exact not_delivered hcons hout hd
  · have hexec : (s.shared.app.conn c).exec c t cfg.platform .writeCompleteCallback
        (Io.none (E := E)) = some ⟨s.shared.app.conn c, [.callback .writeComplete], [.user]⟩ := by
      show some (s.shared.app.conn c).writeCompleteCallback = _
      rw [TcpConnection.writeCompleteCallback, if_pos hcb]
    exact ⟨_, piece_step ht hexec, setConn_log_self ..⟩
  · exact (htold.answered hlog hd).imp_right fun hw => ⟨hw.1, callsNext h (howed.mp hw.2)⟩

/-- The socket may take a message at once, or in two parts, the second in
`handleWrite`; then the callback sends another, and the callback for that one is
next. -/
theorem write_completed_nested :
    (∃ s : State (List ChannelId), sentBytes (s.shared.app.log 0) = [] ∧
      Offers echoConfig anyPoller s (.loop 0) 0 [.ran (.sendInLoop hello), .accepted hello]
        hello.bytes.1 5) ∧
    (∃ s : State (List ChannelId), sentBytes (s.shared.app.log 0) = [104, 101] ∧
      Offers echoConfig anyPoller s (.loop 0) 0 [.ran .handleWrite] [108, 108, 111] 3) ∧
    ∃ s s' : State (List ChannelId),
      (lts echoConfig anyPoller).step s (.loop 0, .app .none) = some s' ∧
        AllSent (s.shared.app.log 0) ∧
        (s'.shared.app.log 0).count (.callback .writeComplete) = 2 ∧
        (∀ pre post, s.shared.app.log 0 = pre ++ .callback .writeComplete :: post → Waits pre) ∧
        ∀ pre d post, s.shared.app.log 0 = pre ++ .sent d :: post → AllSent (pre ++ [.sent d]) →
          Answered post ∨ Silent post ∧ CallsNext s 0 := by
  refine ⟨?_, ?_, ?_⟩
  · obtain ⟨s, hs, hp⟩ := Lts.exists_reach (lts echoConfig anyPoller)
      (connecting ++ [(.loop 0, .call (.conn 0 (.send hello))), (.loop 0, .app .none)])
      (fun s : State (List ChannelId) => decide (
        (s.shared.app.conn 0).writeCompleteCallback_ = true ∧
        (s.stack (.loop 0)).head? = some (TcpConnection.piece 0 (.sendInLoop hello)) ∧
        (s.shared.app.conn 0).state_ = .kConnected ∧
        (s.shared.app.conn 0).channel_.isWriting = false ∧
        (s.shared.app.conn 0).outputBuffer_.bytes = [] ∧
        sentBytes (s.shared.app.log 0) = [])) rfl (by decide +kernel)
    obtain ⟨hcb, htop, hstate, hw, hout, hsent⟩ := of_decide_eq_true hp
    obtain ⟨rest, ht⟩ := List.head?_eq_some_iff.mp htop
    obtain ⟨-, -, -, -, hsend⟩ := write_completed hs hcb
    have hwhole : ¬ 5 < hello.bytes.1.length := by decide
    exact ⟨s, hsent, hsend _ _ _ 5 ht hstate hw hout (by decide) fun h => absurd h hwhole⟩
  · obtain ⟨s, hs, hp⟩ := Lts.exists_reach (lts echoConfig anyPoller) (greeting ++ writable)
      (fun s : State (List ChannelId) => decide (
        (s.shared.app.conn 0).writeCompleteCallback_ = true ∧
        (s.stack (.loop 0)).head? = some (TcpConnection.piece 0 .handleWrite) ∧
        (s.shared.app.conn 0).channel_.isWriting = true ∧
        (s.shared.app.conn 0).outputBuffer_.bytes = [108, 108, 111] ∧
        sentBytes (s.shared.app.log 0) = [104, 101])) rfl (by decide +kernel)
    obtain ⟨hcb, htop, hw, hout, hsent⟩ := of_decide_eq_true hp
    obtain ⟨rest, ht⟩ := List.head?_eq_some_iff.mp htop
    obtain ⟨-, -, -, hwrite, -⟩ := write_completed hs hcb
    have hoffers := hwrite _ _ 3 ht hw (by decide) (by rw [hout]; decide)
    rw [hout] at hoffers
    exact ⟨s, hsent, hoffers⟩
  · obtain ⟨s, hs, hp⟩ := Lts.exists_reach (lts echoConfig anyPoller)
      (greeting ++ writable ++ [(.loop 0, .app (.sent (some 3))), (.loop 0, .app (.poller [])),
        (.loop 0, .app .none), (.loop 0, .call (.conn 0 (.send hello))), (.loop 0, .app .none),
        (.loop 0, .app (.sent (some 5)))])
      (fun s : State (List ChannelId) => decide (
        (s.shared.app.conn 0).writeCompleteCallback_ = true ∧
        (s.stack (.loop 0)).head? = some (TcpConnection.piece 0 .writeCompleteCallback) ∧
        (s.shared.app.log 0).count (.callback .writeComplete) = 1)) rfl (by decide +kernel)
    obtain ⟨hcb, htop, hcount⟩ := of_decide_eq_true hp
    obtain ⟨rest, ht⟩ := List.head?_eq_some_iff.mp htop
    obtain ⟨hentered, hanswers, hanswered, -⟩ := write_completed hs hcb
    obtain ⟨⟨-, hall⟩, s', hstep, hlog⟩ := hentered _ _ ht
    refine ⟨s, s', hstep, hall, ?_, hanswers, hanswered⟩
    rw [hlog, List.count_append, hcount]
    rfl

end TcpServer

end Muduox.Net
