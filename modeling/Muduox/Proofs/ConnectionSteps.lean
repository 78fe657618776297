import Muduox.Net.TcpServer

/-!
# What a piece of `TcpConnection` does

`Runs` is the connection's counterpart of the reactor's: one constructor for
each way a piece can go, with the tests that led there, the connection it
leaves, what happened and the code that follows. Appending to the output buffer
is one constructor for its three callers, because all that matters to them is
which bytes the socket took first and which are queued.

The other way round, the two pieces that call `send` have an outcome for every
count it may return (`handleWrite_takes`, `sendInLoop_takes`).
-/

namespace Muduox.Net.TcpConnection

/-- `outputBuffer_` got `d` behind what it held, and writing is enabled. -/
structure Appended (x x' : TcpConnection) (d : List UInt8) : Prop where
  bytes : x'.outputBuffer_.bytes = x.outputBuffer_.bytes ++ d
  rest : x' = { x with
    outputBuffer_ := x'.outputBuffer_
    channel_ := if x.channel_.isWriting then x.channel_ else x.channel_.enableWriting }

theorem Appended.isWriting {x x' : TcpConnection} {d : List UInt8} (h : Appended x x' d) :
    x'.channel_.isWriting = true := by
  rw [h.rest]
  cases hw : x.channel_.isWriting with
  | true => simp only [hw, if_true]
  | false => rfl

theorem Appended.state {x x' : TcpConnection} {d : List UInt8} (h : Appended x x' d) :
    x'.state_ = x.state_ := by
  rw [h.rest]

/-- `update()` is called when writing was not enabled before. -/
def updateUnlessWriting (x : TcpConnection) (c : ConnId) : List (Frame Code) :=
  if x.channel_.isWriting then [] else [update c]

theorem mem_updateUnlessWriting {x : TcpConnection} {c : ConnId} {g : Frame Code}
    (h : g ∈ x.updateUnlessWriting c) : g = update c := by
  unfold updateUnlessWriting at h
  split at h
  · cases h
  · exact List.mem_singleton.mp h

theorem piece_notMem_updateUnlessWriting {x : TcpConnection} {c d : ConnId} {k : ConnCode} :
    piece c k ∉ x.updateUnlessWriting d := fun h => by
  cases mem_updateUnlessWriting h

/-- Piece by piece, what thread `t` does to connection `c`. -/
inductive Runs {E : Type} (c : ConnId) (t : ThreadId) (x : TcpConnection) :
    ConnCode → Io E → TcpConnection → List Event → List (Frame Code) → Prop
  | connectEstablished (ht : t = .loop x.loop_) :
      Runs c t x .connectEstablished .none
        { x with state_ := .kConnected, channel_ := x.channel_.enableReading } []
        [update c, piece c .connectionCallback]
  | connectionUp (h : x.state_ = .kConnected) :
      Runs c t x .connectionCallback .none x [.callback .connection] [.user]
  | connectionDown (h : x.state_ ≠ .kConnected) :
      Runs c t x .connectionCallback .none x [.callback .connection]
        [.code (.removeConnection c), .user]
  | connectDestroyed (ht : t = .loop x.loop_) :
      Runs c t x .connectDestroyed .none { x with channel_ := x.channel_.disableAll } []
        [update c, .code (.remove (.conn c)), piece c .resetSocket]
  | resetSocket : Runs c t x .resetSocket .none { x with socket_ := false } [] []
  | readMessage {b : WfBuffer} {r : RecvResult} (hr : 0 < Buffer.returned r)
      (hb : b.bytes = x.inputBuffer_.bytes ++ Buffer.delivered r) (h : x.messageCallback_ = true) :
      Runs c t x .handleRead (.received r) { x with inputBuffer_ := b } [.callback .message]
        [.user]
  | readUnannounced {b : WfBuffer} {r : RecvResult} (hr : 0 < Buffer.returned r)
      (hb : b.bytes = x.inputBuffer_.bytes ++ Buffer.delivered r)
      (h : x.messageCallback_ = false) :
      Runs c t x .handleRead (.received r) { x with inputBuffer_ := b } [] []
  | readEof {b : WfBuffer} {r : RecvResult} (hr : Buffer.returned r = 0)
      (hb : b.bytes = x.inputBuffer_.bytes ++ Buffer.delivered r) :
      Runs c t x .handleRead (.received r) { x with inputBuffer_ := b } []
        [piece c .handleClose]
  | readError {b : WfBuffer} {r : RecvResult} (hr : Buffer.returned r < 0)
      (hb : b.bytes = x.inputBuffer_.bytes ++ Buffer.delivered r) :
      Runs c t x .handleRead (.received r) { x with inputBuffer_ := b } []
        [piece c .handleError]
  | writeFailed {r : Option Nat} (h : x.channel_.isWriting = true) (hr : r = none ∨ r = some 0) :
      Runs c t x .handleWrite (.sent r) x [] [piece c .handleError]
  | writePart {b : WfBuffer} {n : Nat} (h : x.channel_.isWriting = true) (hn : 0 < n)
      (hlt : n < x.outputBuffer_.bytes.length) (hb : b.bytes = x.outputBuffer_.bytes.drop n) :
      Runs c t x .handleWrite (.sent (some n)) { x with outputBuffer_ := b }
        [.sent (x.outputBuffer_.bytes.take n)] []
  | writeAll {b : WfBuffer} (h : x.channel_.isWriting = true) (hn : x.outputBuffer_.bytes ≠ [])
      (hb : b.bytes = []) :
      Runs c t x .handleWrite (.sent (some x.outputBuffer_.bytes.length))
        { x with outputBuffer_ := b, channel_ := x.channel_.disableWriting }
        [.sent x.outputBuffer_.bytes]
        [update c, piece c .writeCompleteCallback, piece c .shutdownIfDisconnecting]
  | notWriting {r : Option Nat} (h : x.channel_.isWriting = false) :
      Runs c t x .handleWrite (.sent r) x [] []
  | writeComplete (h : x.writeCompleteCallback_ = true) :
      Runs c t x .writeCompleteCallback .none x [.callback .writeComplete] [.user]
  | noWriteComplete (h : x.writeCompleteCallback_ = false) :
      Runs c t x .writeCompleteCallback .none x [] []
  | halfClose (h : x.state_ = .kDisconnecting) :
      Runs c t x .shutdownIfDisconnecting .none x x.shutdownWrite.events []
  | noHalfClose (h : x.state_ ≠ .kDisconnecting) :
      Runs c t x .shutdownIfDisconnecting .none x [] []
  | handleClose :
      Runs c t x .handleClose .none { x with state_ := .kDisconnected } []
        [piece c .connectionCallback]
  | handleError : Runs c t x .handleError .none x [] [piece c .handleClose]
  | sendHere {m : Message} (h : x.state_ = .kConnected) (ht : t = .loop x.loop_) :
      Runs c t x (.send m) .none x [] [piece c (.sendInLoop m)]
  | sendThere {m : Message} (h : x.state_ = .kConnected) (ht : t ≠ .loop x.loop_) :
      Runs c t x (.send m) .none x [] [.runInLoop x.loop_ (piece c (.sendInLoop m))]
  | sendRefused {m : Message} (h : x.state_ ≠ .kConnected) : Runs c t x (.send m) .none x [] []
  | sendBufferHere {m : Message} {x' : TcpConnection} (h : x.state_ = .kConnected)
      (ht : t = .loop x.loop_) (hx : Appended x x' m.bytes.1) :
      Runs c t x (.sendBuffer m) .none x' [.accepted m] (updateUnlessWriting x c)
  | sendBufferThere {m : Message} (h : x.state_ = .kConnected) (ht : t ≠ .loop x.loop_) :
      Runs c t x (.sendBuffer m) .none x [] [.runInLoop x.loop_ (piece c (.sendInLoop m))]
  | sendBufferRefused {m : Message} (h : x.state_ ≠ .kConnected) :
      Runs c t x (.sendBuffer m) .none x [] []
  | dropped {m : Message} {r : Option Nat} (ht : t = .loop x.loop_) (h : x.state_ ≠ .kConnected) :
      Runs c t x (.sendInLoop m) (.sent r) x [] []
  | sentWhole {m : Message} {r : Option Nat} (ht : t = .loop x.loop_)
      (h : x.state_ = .kConnected) (hw : x.channel_.isWriting = false)
      (hout : x.outputBuffer_.bytes = []) :
      Runs c t x (.sendInLoop m) (.sent r) x [.accepted m, .sent m.bytes.1]
        [piece c .writeCompleteCallback]
  | sentPart {m : Message} {x' : TcpConnection} {n : Nat} (ht : t = .loop x.loop_)
      (h : x.state_ = .kConnected) (hw : x.channel_.isWriting = false)
      (hout : x.outputBuffer_.bytes = []) (hn : n < m.bytes.1.length)
      (hx : Appended x x' (m.bytes.1.drop n)) :
      Runs c t x (.sendInLoop m) (.sent (some n)) x' [.accepted m, .sent (m.bytes.1.take n)]
        (updateUnlessWriting x c)
  | queued {m : Message} {r : Option Nat} {x' : TcpConnection} (ht : t = .loop x.loop_)
      (h : x.state_ = .kConnected) (hx : Appended x x' m.bytes.1)
      (hq : x.channel_.isWriting = true ∨ x.outputBuffer_.bytes ≠ [] ∨ r = none) :
      Runs c t x (.sendInLoop m) (.sent r) x' [.accepted m] (updateUnlessWriting x c)
  | shutdown (h : x.state_ = .kConnected) :
      Runs c t x .shutdown .none x [] [piece c .storeShutdown]
  | noShutdown (h : x.state_ ≠ .kConnected) : Runs c t x .shutdown .none x [] []
  | storeShutdown :
      Runs c t x .storeShutdown .none { x with state_ := .kDisconnecting } []
        [.runInLoop x.loop_ (piece c .shutdownInLoop)]
  | shutdownLater (ht : t = .loop x.loop_) (h : x.channel_.isWriting = true) :
      Runs c t x .shutdownInLoop .none x [] []
  | shutdownNow (ht : t = .loop x.loop_) (h : x.channel_.isWriting = false) :
      Runs c t x .shutdownInLoop .none x x.shutdownWrite.events []
  | forceClose (h : x.state_ = .kConnected) :
      Runs c t x .forceClose .none x [] [piece c .storeForceClose]
  | forceCloseElse (h : x.state_ ≠ .kConnected) :
      Runs c t x .forceClose .none x [] [piece c .forceCloseIfDisconnecting]
  | forceCloseDisconnecting (h : x.state_ = .kDisconnecting) :
      Runs c t x .forceCloseIfDisconnecting .none x [] [piece c .storeForceClose]
  | noForceClose (h : x.state_ ≠ .kDisconnecting) :
      Runs c t x .forceCloseIfDisconnecting .none x [] []
  | storeForceClose :
      Runs c t x .storeForceClose .none { x with state_ := .kDisconnecting } []
        [.queueInLoop x.loop_ (piece c .handleClose)]
  | retrieveInput {n : Nat} :
      Runs c t x (.retrieveInput n) .none
        { x with inputBuffer_ := x.inputBuffer_.retrieve n } [] []

variable {E : Type} {c : ConnId} {t : ThreadId} {x : TcpConnection}

theorem appendOutput_eq {evs : List Event} {d : Bytes} {o : Outcome}
    (h : x.appendOutput c evs d = some o) :
    Appended x o.conn d.1 ∧ o.events = evs ∧ o.next = updateUnlessWriting x c := by
  unfold appendOutput at h
  split at h
  · cases h
  · next b hb =>
      have hbytes := WfBuffer.append_bytes hb
      rw [Option.some.injEq] at h
      subst h
      cases hw : x.channel_.isWriting with
      | true =>
          simp only [if_true, updateUnlessWriting, hw]
          exact ⟨⟨hbytes, by simp only [hw, if_true]⟩, trivial, trivial⟩
      | false =>
          simp only [Bool.false_eq_true, if_false, updateUnlessWriting, hw]
          exact ⟨⟨hbytes, by simp only [hw, Bool.false_eq_true, if_false]⟩, trivial, trivial⟩

theorem handleRead_runs {pl : Platform} {r : RecvResult} {o : Outcome}
    (h : x.handleRead c pl r = some o) :
    Runs (E := E) c t x .handleRead (.received r) o.conn o.events o.next := by
  unfold handleRead at h
  split at h
  · cases h
  · next b n hb =>
      obtain ⟨hbytes, rfl⟩ := WfBuffer.readFd_bytes hb
      dsimp only at h
      split at h
      · next hpos =>
          rw [Option.some.injEq] at h
          subst h
          split
          · next hm => exact .readMessage hpos hbytes hm
          · next hm => exact .readUnannounced hpos hbytes (Bool.eq_false_iff.mpr hm)
      · next hpos =>
          split at h
          · next hz => cases h; exact .readEof hz hbytes
          · next hz => cases h; exact .readError (by omega) hbytes

theorem handleWrite_runs {r : Option Nat} {o : Outcome} (h : x.handleWrite c r = some o) :
    Runs (E := E) c t x .handleWrite (.sent r) o.conn o.events o.next := by
  unfold handleWrite at h
  split at h
  · next hw =>
      cases r with
      | none => cases h; exact .writeFailed hw (.inl rfl)
      | some n =>
          dsimp only at h
          split at h
          · cases h
          · next hle =>
              split at h
              · next hz => cases h; exact .writeFailed hw (.inr (by rw [hz]))
              · next hz =>
                  have hb := x.outputBuffer_.retrieve_bytes n
                  split at h
                  · next he =>
                      have hdrop : x.outputBuffer_.bytes.drop n = [] :=
                        hb.symm.trans (WfBuffer.empty_iff.mp he)
                      have hlen : n = x.outputBuffer_.bytes.length := by
                        have := List.drop_eq_nil_iff.mp hdrop
                        omega
                      have hne : x.outputBuffer_.bytes ≠ [] := by
                        intro hnil
                        rw [hnil] at hlen
                        exact hz hlen
                      cases h
                      rw [List.take_of_length_le (Nat.le_of_eq hlen.symm)]
                      subst hlen
                      exact .writeAll hw hne (hb.trans hdrop)
                  · next he =>
                      have hlt : n < x.outputBuffer_.bytes.length := by
                        refine Nat.lt_of_not_le fun hge => he (WfBuffer.empty_iff.mpr ?_)
                        rw [hb, List.drop_eq_nil_iff]
                        exact hge
                      cases h
                      exact .writePart hw (Nat.pos_of_ne_zero hz) hlt hb
  · next hw => cases h; exact .notWriting (Bool.eq_false_iff.mpr hw)

theorem sendInLoop_runs {m : Message} {r : Option Nat} {o : Outcome}
    (h : x.sendInLoop c t m r = some o) :
    Runs (E := E) c t x (.sendInLoop m) (.sent r) o.conn o.events o.next := by
  unfold sendInLoop at h
  split at h
  · cases h
  · next ht =>
      have ht : t = .loop x.loop_ := Decidable.not_not.mp ht
      split at h
      · next hs => cases h; exact .dropped ht hs
      · next hs =>
          have hs : x.state_ = .kConnected := Decidable.not_not.mp hs
          split at h
          · next hidle =>
              rw [Bool.and_eq_true, Bool.not_eq_true'] at hidle
              have hout := WfBuffer.empty_iff.mp hidle.2
              cases r with
              | none =>
                  obtain ⟨hx, he, hn⟩ := appendOutput_eq h
                  rw [he, hn]
                  exact .queued ht hs hx (.inr (.inr rfl))
              | some n =>
                  dsimp only at h
                  split at h
                  · cases h
                  · split at h
                    · cases h
                      exact .sentWhole ht hs hidle.1 hout
                    · next hlt =>
                        obtain ⟨hx, he, hn⟩ := appendOutput_eq h
                        rw [he, hn]
                        exact .sentPart ht hs hidle.1 hout (Nat.lt_of_not_le hlt) hx
          · next hbusy =>
              obtain ⟨hx, he, hn⟩ := appendOutput_eq h
              rw [he, hn]
              refine .queued ht hs hx ?_
              by_contra hno
              push Not at hno
              refine hbusy ?_
              rw [Bool.and_eq_true, Bool.not_eq_true']
              exact ⟨Bool.eq_false_iff.mpr hno.1, WfBuffer.empty_iff.mpr hno.2.1⟩

theorem exec_runs {pl : Platform} {k : ConnCode} {io : Io E} {o : Outcome}
    (h : x.exec c t pl k io = some o) : Runs c t x k io o.conn o.events o.next := by
  unfold exec at h
  split at h
  case h_1 =>
    unfold connectEstablished at h
    split at h
    · next ht => cases h; exact .connectEstablished ht
    · cases h
  case h_2 =>
    cases h
    unfold connectionCallback
    split
    · next hs => exact .connectionUp hs
    · next hs => exact .connectionDown hs
  case h_3 =>
    unfold connectDestroyed at h
    split at h
    · next ht => cases h; exact .connectDestroyed ht
    · cases h
  case h_4 => cases h; exact .resetSocket
  case h_5 r => exact handleRead_runs h
  case h_6 r => exact handleWrite_runs h
  case h_7 =>
    cases h
    unfold writeCompleteCallback
    split
    · next hw => exact .writeComplete hw
    · next hw => exact .noWriteComplete (Bool.eq_false_iff.mpr hw)
  case h_8 =>
    cases h
    unfold shutdownIfDisconnecting
    split
    · next hs => exact .halfClose hs
    · next hs => exact .noHalfClose hs
  case h_9 => cases h; exact .handleClose
  case h_10 => cases h; exact .handleError
  case h_11 m =>
    cases h
    unfold send
    split
    · next hs =>
        split
        · next ht => exact .sendHere hs ht
        · next ht => exact .sendThere hs ht
    · next hs => exact .sendRefused hs
  case h_12 m =>
    unfold sendBuffer at h
    split at h
    · next hs =>
        split at h
        · next ht =>
            obtain ⟨hx, he, hn⟩ := appendOutput_eq h
            rw [he, hn]
            exact .sendBufferHere hs ht hx
        · next ht => cases h; exact .sendBufferThere hs ht
    · next hs => cases h; exact .sendBufferRefused hs
  case h_13 m r => exact sendInLoop_runs h
  case h_14 =>
    cases h
    unfold shutdown
    split
    · next hs => exact .shutdown hs
    · next hs => exact .noShutdown hs
  case h_15 => cases h; exact .storeShutdown
  case h_16 =>
    unfold shutdownInLoop at h
    split at h
    · next ht =>
        rw [Option.some.injEq] at h
        subst h
        split
        · next hw => exact .shutdownLater ht hw
        · next hw => exact .shutdownNow ht (Bool.eq_false_iff.mpr hw)
    · cases h
  case h_17 =>
    cases h
    unfold forceClose
    split
    · next hs => exact .forceClose hs
    · next hs => exact .forceCloseElse hs
  case h_18 =>
    cases h
    unfold forceCloseIfDisconnecting
    split
    · next hs => exact .forceCloseDisconnecting hs
    · next hs => exact .noForceClose hs
  case h_19 => cases h; exact .storeForceClose
  case h_20 n => cases h; exact .retrieveInput
  case h_21 => cases h

/-- What piece `k` of connection `c` may leave to run. -/
inductive Leaves (c : ConnId) (t : ThreadId) (x : TcpConnection) :
    ConnCode → Io E → Frame Code → Prop
  | user {k : ConnCode} {io : Io E} : Leaves c t x k io .user
  | update {k : ConnCode} {io : Io E} (ht : k = .handleWrite ∨ t = .loop x.loop_) :
      Leaves c t x k io (update c)
  | remove (ht : t = .loop x.loop_) :
      Leaves c t x .connectDestroyed .none (.code (.remove (.conn c)))
  | resetSocket : Leaves c t x .connectDestroyed .none (piece c .resetSocket)
  | removeConnection (h : x.state_ ≠ .kConnected) :
      Leaves c t x .connectionCallback .none (.code (.removeConnection c))
  | connectionCallback {k : ConnCode} (hk : k = .connectEstablished ∨ k = .handleClose) :
      Leaves c t x k .none (piece c .connectionCallback)
  | readEof {r : RecvResult} (hr : Buffer.returned r = 0) :
      Leaves c t x .handleRead (.received r) (piece c .handleClose)
  | readError {r : RecvResult} (hr : Buffer.returned r < 0) :
      Leaves c t x .handleRead (.received r) (piece c .handleError)
  | writeFailed {r : Option Nat} (h : x.channel_.isWriting = true) (hr : r = none ∨ r = some 0) :
      Leaves c t x .handleWrite (.sent r) (piece c .handleError)
  | handleClose : Leaves c t x .handleError .none (piece c .handleClose)
  | writeCompleteCallback {k : ConnCode} {io : Io E}
      (hk : k = .handleWrite ∨ ∃ m, k = .sendInLoop m) :
      Leaves c t x k io (piece c .writeCompleteCallback)
  | shutdownIfDisconnecting {io : Io E} :
      Leaves c t x .handleWrite io (piece c .shutdownIfDisconnecting)
  | sendHere {m : Message} (ht : t = .loop x.loop_) :
      Leaves c t x (.send m) .none (piece c (.sendInLoop m))
  | sendThere {k : ConnCode} {m : Message} (hk : k = .send m ∨ k = .sendBuffer m) :
      Leaves c t x k .none (.runInLoop x.loop_ (piece c (.sendInLoop m)))
  | storeShutdown : Leaves c t x .shutdown .none (piece c .storeShutdown)
  | shutdownInLoop :
      Leaves c t x .storeShutdown .none (.runInLoop x.loop_ (piece c .shutdownInLoop))
  | storeForceClose {k : ConnCode} (hk : k = .forceClose ∨ k = .forceCloseIfDisconnecting) :
      Leaves c t x k .none (piece c .storeForceClose)
  | forceCloseIfDisconnecting :
      Leaves c t x .forceClose .none (piece c .forceCloseIfDisconnecting)
  | forceCloseInLoop :
      Leaves c t x .storeForceClose .none (.queueInLoop x.loop_ (piece c .handleClose))

theorem Runs.leaves {k : ConnCode} {io : Io E} {x' : TcpConnection} {evs : List Event}
    {next : List (Frame Code)} (h : Runs c t x k io x' evs next) :
    ∀ g ∈ next, Leaves c t x k io g := by
  intro g hg
  cases h with
  | connectEstablished ht =>
      simp only [List.mem_cons, List.not_mem_nil, or_false] at hg
      rcases hg with rfl | rfl
      · exact .update (.inr ht)
      · exact .connectionCallback (.inl rfl)
  | connectionUp | readMessage | writeComplete =>
      cases List.mem_singleton.mp hg
      exact .user
  | connectionDown hs =>
      simp only [List.mem_cons, List.not_mem_nil, or_false] at hg
      rcases hg with rfl | rfl
      · exact .removeConnection hs
      · exact .user
  | connectDestroyed ht =>
      simp only [List.mem_cons, List.not_mem_nil, or_false] at hg
      rcases hg with rfl | rfl | rfl
      · exact .update (.inr ht)
      · exact .remove ht
      · exact .resetSocket
  | readEof hr =>
      cases List.mem_singleton.mp hg
      exact .readEof hr
  | readError hr =>
      cases List.mem_singleton.mp hg
      exact .readError hr
  | writeFailed hw hr =>
      cases List.mem_singleton.mp hg
      exact .writeFailed hw hr
  | writeAll =>
      simp only [List.mem_cons, List.not_mem_nil, or_false] at hg
      rcases hg with rfl | rfl | rfl
      · exact .update (.inl rfl)
      · exact .writeCompleteCallback (.inl rfl)
      · exact .shutdownIfDisconnecting
  | handleClose =>
      cases List.mem_singleton.mp hg
      exact .connectionCallback (.inr rfl)
  | handleError =>
      cases List.mem_singleton.mp hg
      exact .handleClose
  | sendHere _ ht =>
      cases List.mem_singleton.mp hg
      exact .sendHere ht
  | sendThere =>
      cases List.mem_singleton.mp hg
      exact .sendThere (.inl rfl)
  | sendBufferThere =>
      cases List.mem_singleton.mp hg
      exact .sendThere (.inr rfl)
  | sendBufferHere _ ht | sentPart ht | queued ht =>
      cases mem_updateUnlessWriting hg
      exact .update (.inr ht)
  | sentWhole =>
      cases List.mem_singleton.mp hg
      exact .writeCompleteCallback (.inr ⟨_, rfl⟩)
  | shutdown =>
      cases List.mem_singleton.mp hg
      exact .storeShutdown
  | storeShutdown =>
      cases List.mem_singleton.mp hg
      exact .shutdownInLoop
  | forceClose =>
      cases List.mem_singleton.mp hg
      exact .storeForceClose (.inl rfl)
  | forceCloseElse =>
      cases List.mem_singleton.mp hg
      exact .forceCloseIfDisconnecting
  | forceCloseDisconnecting =>
      cases List.mem_singleton.mp hg
      exact .storeForceClose (.inr rfl)
  | storeForceClose =>
      cases List.mem_singleton.mp hg
      exact .forceCloseInLoop
  | _ => cases hg

/-! ## What `send` may return -/

/-- Whatever count `send` returns in `handleWrite`, that is what is taken from
the front of `outputBuffer_`. -/
theorem handleWrite_takes {n : Nat} (hw : x.channel_.isWriting = true) (hpos : 0 < n)
    (hn : n ≤ x.outputBuffer_.bytes.length) :
    ∃ o, x.handleWrite c (some n) = some o ∧ o.events = [.sent (x.outputBuffer_.bytes.take n)] ∧
      (n = x.outputBuffer_.bytes.length → o.next =
        [update c, piece c .writeCompleteCallback, piece c .shutdownIfDisconnecting]) := by
  rw [handleWrite, if_pos hw]
  dsimp only
  rw [if_neg (Nat.not_lt.mpr hn), if_neg (Nat.ne_of_gt hpos)]
  split
  · exact ⟨_, rfl, rfl, fun _ => rfl⟩
  · next hrest =>
      refine ⟨_, rfl, rfl, fun hall => absurd (WfBuffer.empty_iff.mpr ?_) hrest⟩
      rw [WfBuffer.retrieve_bytes, hall, List.drop_length]

/-- So it is with the message in `sendInLoop`; the rest of it is queued, if the
buffer has the room. -/
theorem sendInLoop_takes {m : Message} {n : Nat} (ht : t = .loop x.loop_)
    (hstate : x.state_ = .kConnected) (hw : x.channel_.isWriting = false)
    (hout : x.outputBuffer_.bytes = []) (hn : n ≤ m.bytes.1.length)
    (hroom : n < m.bytes.1.length → ¬ x.outputBuffer_.1.Refuses (m.bytes.1.length - n)) :
    ∃ o, x.sendInLoop c t m (some n) = some o ∧
      o.events = [.accepted m, .sent (m.bytes.1.take n)] ∧
      (n = m.bytes.1.length → o.next = [piece c .writeCompleteCallback]) := by
  have hempty : x.outputBuffer_.empty = true := WfBuffer.empty_iff.mpr hout
  rw [sendInLoop, if_neg (not_not_intro ht), if_neg (not_not_intro hstate), hw, hempty]
  simp only [Bool.not_false, Bool.and_self, if_true]
  rw [if_neg (Nat.not_lt.mpr hn)]
  split
  · next hall =>
      refine ⟨_, rfl, ?_, fun _ => rfl⟩
      rw [List.take_of_length_le hall]
  · next hpart =>
      have hfits : (x.outputBuffer_.append (remainder m.bytes n)).isSome := by
        rw [WfBuffer.append_isSome_iff, remainder, List.length_drop]
        exact hroom (Nat.lt_of_not_le hpart)
      obtain ⟨b, hb⟩ := Option.isSome_iff_exists.mp hfits
      rw [appendOutput, hb]
      dsimp only
      split <;> exact ⟨_, rfl, rfl, fun hall => absurd (Nat.le_of_eq hall.symm) hpart⟩

end Muduox.Net.TcpConnection
