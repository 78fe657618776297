import Muduox.Proofs.ServerBase

/-!
# The output stream is conserved

Three things move a connection's output: the direct write of `sendInLoop`, the
append behind what is queued, and the drain in `handleWrite`. The direct write
happens only over an empty `outputBuffer_`, and what it leaves over is appended,
so at every moment the bytes the socket took followed by what the buffer holds
are the messages that passed the test of `state_`, in the order they did.
-/

namespace Muduox.Net

/-- The bytes the socket took. -/
def sentBytes (log : List Event) : List UInt8 :=
  log.flatMap fun
    | .sent d => d
    | _ => []

/-- The messages that passed `state_ == kConnected` on the loop's thread. -/
def acceptedMessages (log : List Event) : List Message :=
  log.filterMap fun
    | .accepted m => some m
    | _ => none

/-- The bytes of those messages, in order. -/
def acceptedBytes (log : List Event) : List UInt8 :=
  (acceptedMessages log).flatMap fun m => m.bytes.1

@[simp] theorem sentBytes_append (log evs : List Event) :
    sentBytes (log ++ evs) = sentBytes log ++ sentBytes evs := List.flatMap_append

@[simp] theorem acceptedMessages_append (log evs : List Event) :
    acceptedMessages (log ++ evs) = acceptedMessages log ++ acceptedMessages evs :=
  List.filterMap_append

@[simp] theorem acceptedBytes_append (log evs : List Event) :
    acceptedBytes (log ++ evs) = acceptedBytes log ++ acceptedBytes evs := by
  unfold acceptedBytes
  rw [acceptedMessages_append, List.flatMap_append]

/-- The socket has taken the accepted messages, but for what is still queued. -/
def Conserved (x : TcpConnection) (log : List Event) : Prop :=
  sentBytes log ++ x.outputBuffer_.bytes = acceptedBytes log

variable {E : Type} {c : ConnId} {t : ThreadId} {x x' : TcpConnection} {k : ConnCode}
  {io : Io E} {evs log : List Event} {next : List (Frame Code)}

/-- What a piece adds: the bytes it accepts are behind those it had queued. -/
theorem connRuns_stream (h : x.Runs c t k io x' evs next) :
    sentBytes (.ran k :: evs) ++ x'.outputBuffer_.bytes =
      x.outputBuffer_.bytes ++ acceptedBytes (.ran k :: evs) := by
  cases h with
  | writePart _ _ _ hb =>
      show (x.outputBuffer_.bytes.take _ ++ []) ++ _ = x.outputBuffer_.bytes ++ []
      rw [hb, List.append_nil, List.append_nil, List.take_append_drop]
  | writeAll _ _ hb =>
      show (x.outputBuffer_.bytes ++ []) ++ _ = x.outputBuffer_.bytes ++ []
      rw [hb, List.append_nil, List.append_nil]
  | sendBufferHere _ _ hx | queued _ _ hx =>
      rw [hx.bytes]
      simp [sentBytes, acceptedBytes, acceptedMessages]
  | sentWhole _ _ _ hout =>
      rw [hout]
      simp [sentBytes, acceptedBytes, acceptedMessages]
  | sentPart _ _ _ hout _ hx =>
      rw [hx.bytes, hout]
      simp [sentBytes, acceptedBytes, acceptedMessages]
  | halfClose | shutdownNow =>
      unfold TcpConnection.shutdownWrite
      split <;> simp [sentBytes, acceptedBytes, acceptedMessages]
  | _ => simp [sentBytes, acceptedBytes, acceptedMessages]

theorem Conserved.piece (hlog : Conserved x log) (h : x.Runs c t k io x' evs next) :
    Conserved x' (log ++ .ran k :: evs) := by
  show sentBytes (log ++ .ran k :: evs) ++ x'.outputBuffer_.bytes =
    acceptedBytes (log ++ .ran k :: evs)
  calc sentBytes (log ++ .ran k :: evs) ++ x'.outputBuffer_.bytes
      = sentBytes log ++ (sentBytes (.ran k :: evs) ++ x'.outputBuffer_.bytes) := by
        rw [sentBytes_append, List.append_assoc]
    _ = (sentBytes log ++ x.outputBuffer_.bytes) ++ acceptedBytes (.ran k :: evs) := by
        rw [connRuns_stream h, List.append_assoc]
    _ = acceptedBytes (log ++ .ran k :: evs) := by
        rw [show _ = acceptedBytes log from hlog, acceptedBytes_append]

/-- Events that carry no bytes. -/
theorem Conserved.quiet (hlog : Conserved x log) (hs : sentBytes evs = [])
    (ha : acceptedBytes evs = []) : Conserved x (log ++ evs) := by
  show sentBytes (log ++ evs) ++ x.outputBuffer_.bytes = acceptedBytes (log ++ evs)
  rw [sentBytes_append, acceptedBytes_append, hs, ha, List.append_nil, List.append_nil]
  exact hlog

variable {P : Type} {cfg : ServerConfig} {poller : Poller P E}

theorem conserved {s : TcpServer.State P} (h : (TcpServer.lts cfg poller).Reach s) (c : ConnId) :
    Conserved (s.shared.app.conn c) (s.shared.app.log c) := by
  refine TcpServer.conn_inv (Φ := Conserved) h (fun hx => ?_) (fun hlog hi => ?_)
    (fun hlog hr => hlog.piece hr) c
  · rcases hx with rfl | hx
    · exact WfBuffer.new_bytes
    · rw [hx.eq]
      exact WfBuffer.new_bytes
  · cases hi with
    | revents => exact hlog
    | removed => exact hlog.quiet rfl rfl

/-- Every connection of every run: the bytes the socket accepted followed by
the readable contents of `outputBuffer_` are the accepted messages, in order. -/
theorem output_conserved {s : TcpServer.State P} (h : (TcpServer.lts cfg poller).Reach s)
    (c : ConnId) :
    sentBytes (s.shared.app.log c) ++ (s.shared.app.conn c).outputBuffer_.bytes =
      acceptedBytes (s.shared.app.log c) := conserved h c

/-- What a user sends from its callback. -/
def hello : Message := ⟨.loop 0, ⟨[104, 101, 108, 108, 111], by decide⟩⟩

/-- The first callback sends it, and the socket takes two of the five bytes. -/
def TcpServer.greeting : List (ThreadId × Choice Code (Io (List (ChannelId × Events)))) :=
  TcpServer.connecting ++ [(.loop 0, .call (.conn 0 (.send hello))), (.loop 0, .app .none),
    (.loop 0, .app (.sent (some 2))), (.loop 0, .app (.poller []))]

/-- Then `poll` finds it writable, and `handleWrite` is next. -/
def TcpServer.writable : List (ThreadId × Choice Code (Io (List (ChannelId × Events)))) :=
  [(.loop 0, .ret), (.loop 0, .go), (.loop 0, .go),
    (.loop 0, .poll (.poller [(.conn 0, { write := true })]) 0), (.loop 0, .app .none)]

/-- The socket takes two of five bytes; the others wait in `outputBuffer_`. -/
theorem output_conserved_hello :
    ∃ s : TcpServer.State (List ChannelId),
      sentBytes (s.shared.app.log 0) = [104, 101] ∧
      sentBytes (s.shared.app.log 0) ++ (s.shared.app.conn 0).outputBuffer_.bytes =
        acceptedBytes (s.shared.app.log 0) := by
  obtain ⟨s, hs, hp⟩ := Lts.exists_reach (TcpServer.lts TcpServer.echoConfig anyPoller)
    TcpServer.greeting
    (fun s => sentBytes (s.shared.app.log 0) == [104, 101]) rfl (by decide +kernel)
  exact ⟨s, eq_of_beq hp, output_conserved hs 0⟩

end Muduox.Net
