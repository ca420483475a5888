import MuduoX.Net.TcpConnection

/-! The output of a connection: what is sent, what the socket takes and when the write end is
closed.

Three things decide who goes on writing: the output buffer, the channel's interest in `EPOLLOUT`
and the connection's state. `OutputInv` ties them together; every call that touches the output
preserves it (`OutputInv.apply`), and whole runs follow by induction. -/

namespace MuduoX

/-! ### What the log says of the socket -/

/-- The bytes that a `::write` got rid of. -/
def Event.accepted : Event → Bytes
  | .write bs => bs
  | _ => []

/-- The event is a call on the socket. -/
def Event.isSocket : Event → Bool
  | .write _ | .shutdownWrite => true
  | _ => false

namespace TcpConnection

variable (tid : LoopId) {c : TcpConnection} {e : Event}

/-- Everything that the socket has taken. -/
def accepted (c : TcpConnection) : Bytes := c.log.flatMap fun e => e.2.accepted

/-- The calls on the socket, oldest first. -/
def socketLog (c : TcpConnection) : List Event := (c.log.map Prod.snd).filter Event.isSocket

@[simp] theorem accepted_emit : (emit tid e c).accepted = c.accepted ++ e.accepted := by
  simp [accepted, emit]

theorem socketLog_emit : (emit tid e c).socketLog =
    c.socketLog ++ if e.isSocket then [e] else [] := by
  simp [socketLog, emit, List.filter_cons]

@[simp] theorem update_accepted : (update tid c).accepted = c.accepted := by
  rw [update, accepted_emit]
  exact List.append_nil _

@[simp] theorem update_socketLog : (update tid c).socketLog = c.socketLog := by
  rw [update, socketLog_emit]
  exact List.append_nil _

/-! ### The calls of a run -/

/-- What the loop's thread calls: user code, or the poller's `EPOLLOUT`. -/
inductive OutputCall where
  | user (call : Call)
  | handleWrite (r : WriteResult)
  deriving DecidableEq

namespace OutputCall

def apply (tid : LoopId) (c : TcpConnection) : OutputCall → TcpConnection
  | .user call => call.apply tid c
  | .handleWrite r => c.handleWrite tid r

/-- What the call sends, if the connection is connected. -/
def payload (c : TcpConnection) : OutputCall → Bytes
  | .user (.send message _) => if c.state = .kConnected then message else []
  | .user (.sendBuffer buf _) => if c.state = .kConnected then buf.readable else []
  | .user .shutdown | .handleWrite _ => []

/-- The socket's answer to a `::write`, if the call makes one. -/
@[simp] def answer : OutputCall → Option WriteResult
  | .user (.send _ r) | .user (.sendBuffer _ r) | .handleWrite r => some r
  | .user .shutdown => none

/-- The peer has not reset the connection. -/
def NoReset (call : OutputCall) : Prop :=
  call.answer ≠ some (.error .EPIPE) ∧ call.answer ≠ some (.error .ECONNRESET)

instance (call : OutputCall) : Decidable call.NoReset := inferInstanceAs (Decidable (_ ∧ _))

end OutputCall

/-- One call after the other. -/
def applyAll (tid : LoopId) (c : TcpConnection) (calls : List OutputCall) : TcpConnection :=
  calls.foldl (OutputCall.apply tid) c

/-- What a run sends. -/
def payloads (tid : LoopId) : TcpConnection → List OutputCall → Bytes
  | _, [] => []
  | c, call :: calls => call.payload c ++ payloads tid (call.apply tid c) calls

/-! ### The invariant -/

/-- `shutdownWrite` has been called at most once, and as the last call on the socket. -/
def ClosedOnce (ops : List Event) : Prop :=
  ∃ writes : List Event, .shutdownWrite ∉ writes ∧ ops = writes ++ [.shutdownWrite]

structure OutputInv (c : TcpConnection) (sent : Bytes) : Prop where
  state : c.state = .kConnected ∨ c.state = .kDisconnecting
  stream : c.accepted ++ c.outputBuffer.readable = sent
  writing : c.channel.writing ↔ c.outputBuffer.readable ≠ []
  closed : .shutdownWrite ∉ c.socketLog ∨
    c.state = .kDisconnecting ∧ ¬c.channel.writing ∧ ClosedOnce c.socketLog

namespace OutputInv

variable {sent : Bytes}

theorem open_of_connected (h : OutputInv c sent) (hs : c.state = .kConnected) :
    .shutdownWrite ∉ c.socketLog :=
  h.closed.resolve_right fun h => by simp [hs] at h

theorem open_of_writing (h : OutputInv c sent) (hw : c.channel.writing) :
    .shutdownWrite ∉ c.socketLog :=
  h.closed.resolve_right fun h => h.2.1 hw

/-- A `::write` that takes `bs` off the front of what is left to send. -/
theorem mem_write (h : .shutdownWrite ∉ c.socketLog) (bs : Bytes) :
    .shutdownWrite ∉ (emit tid (.write bs) c).socketLog := by
  simp [socketLog_emit, Event.isSocket, h]

/-- What the socket has not taken goes to the buffer, and the channel becomes interested. -/
theorem buffer {rest : Bytes} (hstate : c.state = .kConnected ∨ c.state = .kDisconnecting)
    (hstream : c.accepted ++ c.outputBuffer.readable ++ rest = sent)
    (hwriting : c.channel.writing ↔ c.outputBuffer.readable ≠ [])
    (hopen : .shutdownWrite ∉ c.socketLog) : OutputInv (buffer tid rest c) sent := by
  unfold TcpConnection.buffer
  split
  · rename_i hrest
    rw [hrest, List.append_nil] at hstream
    exact ⟨hstate, hstream, hwriting, .inl hopen⟩
  · rename_i hrest
    rw [List.append_assoc] at hstream
    rcases Decidable.em (c.channel.writing = true) with hw | hw
    · simp only [if_pos hw]
      exact ⟨hstate, by rwa [Buffer.readable_append], by simpa [hrest] using hw, .inl hopen⟩
    · simp only [if_neg hw]
      exact ⟨hstate, by rwa [enableWriting, update_accepted, update_outputBuffer,
        Buffer.readable_append], by simp [enableWriting, hrest],
        .inl (by rwa [enableWriting, update_socketLog])⟩

/-- Also a connection that disconnects goes on sending, as long as its write end is open. -/
theorem sendInLoop_of_open (h : OutputInv c sent) (hopen : .shutdownWrite ∉ c.socketLog)
    (message : Bytes) {r : WriteResult} (h₁ : r ≠ .error .EPIPE) (h₂ : r ≠ .error .ECONNRESET) :
    OutputInv (TcpConnection.sendInLoop tid message r c) (sent ++ message) := by
  unfold TcpConnection.sendInLoop
  have hstate : c.state ≠ .kDisconnected := by
    rintro hs
    rcases h.state with h | h <;> cases hs.symm.trans h
  rw [if_neg hstate]
  split
  · rename_i hidle
    have hempty := Buffer.readable_eq_nil.mpr hidle.2
    have hstream := h.stream
    rw [hempty, List.append_nil] at hstream
    match r with
    | .room n =>
      refine buffer tid h.state ?_ h.writing (mem_write tid hopen _)
      simp [Event.accepted, hempty, hstream]
    | .error e =>
      simp only
      rw [if_neg (by rintro (rfl | rfl) <;> contradiction)]
      refine buffer tid h.state ?_ h.writing (mem_write tid hopen _)
      simp [Event.accepted, hempty, hstream]
  · exact buffer tid h.state (by rw [h.stream]) h.writing hopen

theorem sendInLoop (h : OutputInv c sent) (hs : c.state = .kConnected) (message : Bytes)
    {r : WriteResult} (h₁ : r ≠ .error .EPIPE) (h₂ : r ≠ .error .ECONNRESET) :
    OutputInv (sendInLoop tid message r c) (sent ++ message) :=
  h.sendInLoop_of_open tid (h.open_of_connected hs) message h₁ h₂

theorem shutdownInLoop (hs : c.state = .kDisconnecting)
    (hstream : c.accepted ++ c.outputBuffer.readable = sent)
    (hwriting : c.channel.writing ↔ c.outputBuffer.readable ≠ [])
    (hopen : .shutdownWrite ∉ c.socketLog) : OutputInv (shutdownInLoop tid c) sent := by
  unfold TcpConnection.shutdownInLoop
  split
  · exact ⟨.inr hs, hstream, hwriting, .inl hopen⟩
  · rename_i hw
    refine ⟨.inr hs, by simpa [Event.accepted] using hstream, hwriting, .inr ⟨hs, hw, c.socketLog,
      hopen, by simp [socketLog_emit, Event.isSocket]⟩⟩

theorem shutdownIfClosing (h : OutputInv c sent) (hopen : .shutdownWrite ∉ c.socketLog) :
    OutputInv (if c.state = .kDisconnecting then TcpConnection.shutdownInLoop tid c else c)
      sent := by
  split
  · exact shutdownInLoop tid ‹_› h.stream h.writing hopen
  · exact h

/-- `EPOLLOUT` is given up exactly when the buffer has run empty. -/
theorem disableWriting (hstate : c.state = .kConnected ∨ c.state = .kDisconnecting)
    (hstream : c.accepted ++ c.outputBuffer.readable = sent) (hw : c.channel.writing)
    (hopen : .shutdownWrite ∉ c.socketLog) :
    let c' := if c.outputBuffer.readableBytes = 0 then disableWriting tid c else c
    OutputInv c' sent ∧ .shutdownWrite ∉ c'.socketLog := by
  rcases Decidable.em (c.outputBuffer.readableBytes = 0) with hb | hb
  · rw [if_pos hb, TcpConnection.disableWriting]
    have hopen' : .shutdownWrite ∉ (update tid { c with
        channel := { c.channel with writing := false } }).socketLog := by rwa [update_socketLog]
    exact ⟨⟨hstate, by rwa [update_accepted], by simpa [Buffer.readable_eq_nil] using hb,
      .inl hopen'⟩, hopen'⟩
  · rw [if_neg hb]
    exact ⟨⟨hstate, hstream, by simpa [hw, Buffer.readable_eq_nil] using hb, .inl hopen⟩, hopen⟩

theorem handleWrite (h : OutputInv c sent) (r : WriteResult) :
    OutputInv (handleWrite tid r c) sent := by
  unfold TcpConnection.handleWrite
  split
  · rename_i hw
    have hopen := h.open_of_writing hw
    match r with
    | .error e =>
      exact ⟨h.state, by simpa [Event.accepted] using h.stream, h.writing,
        .inl (mem_write tid hopen [])⟩
    | .room n =>
      simp only
      split
      · exact ⟨h.state, by simpa [Event.accepted, *] using h.stream, h.writing,
          .inl (mem_write tid hopen _)⟩
      · rename_i hne
        have hstream := h.stream
        rw [← List.take_append_drop n c.outputBuffer.readable, ← List.append_assoc] at hstream
        have hdrop : c.outputBuffer.readable.drop (c.outputBuffer.readable.take n).length =
            c.outputBuffer.readable.drop n := by
          rw [List.length_take]
          rcases Nat.le_total n c.outputBuffer.readable.length with hn | hn
          · rw [Nat.min_eq_left hn]
          · rw [Nat.min_eq_right hn, List.drop_eq_nil_of_le hn, List.drop_length]
        have hleft : (emit tid (.write (c.outputBuffer.readable.take n)) c).accepted ++
            (c.outputBuffer.retrieve (c.outputBuffer.readable.take n).length).readable = sent := by
          rw [accepted_emit, Buffer.readable_retrieve, hdrop]
          exact hstream
        obtain ⟨hinv, hopen'⟩ := disableWriting tid
          (c := { emit tid (.write (c.outputBuffer.readable.take n)) c with
            outputBuffer := c.outputBuffer.retrieve (c.outputBuffer.readable.take n).length })
          h.state hleft hw (mem_write tid hopen _)
        exact shutdownIfClosing tid hinv hopen'
  · exact h

theorem apply (h : OutputInv c sent) {call : OutputCall} (hr : call.NoReset) :
    OutputInv (call.apply tid c) (sent ++ call.payload c) := by
  cases call with
  | handleWrite r => simpa [OutputCall.apply, OutputCall.payload] using h.handleWrite tid r
  | user call =>
    rcases Decidable.em (c.state = .kConnected) with hs | hs
    · cases call with
      | send message r =>
        have hinv := h.sendInLoop tid hs message (r := r) (by simpa [OutputCall.NoReset] using hr.1)
          (by simpa [OutputCall.NoReset] using hr.2)
        simpa [OutputCall.apply, Call.apply, send, OutputCall.payload, hs] using hinv
      | sendBuffer buf r =>
        have hinv := h.sendInLoop tid hs buf.readable (r := r)
          (by simpa [OutputCall.NoReset] using hr.1) (by simpa [OutputCall.NoReset] using hr.2)
        simpa [OutputCall.apply, Call.apply, sendBuffer, OutputCall.payload, hs] using hinv
      | shutdown =>
        have hinv := shutdownInLoop tid (c := setState .kDisconnecting c) rfl h.stream
          h.writing (h.open_of_connected hs)
        simpa [OutputCall.apply, Call.apply, shutdown, OutputCall.payload, hs] using hinv
    · -- nothing is sent and nothing happens unless the connection is connected
      cases call <;>
        simpa [OutputCall.apply, Call.apply, send, sendBuffer, shutdown, OutputCall.payload, hs]
          using h

end OutputInv

theorem OutputInv.applyAll {sent : Bytes} {calls : List OutputCall} (h : OutputInv c sent)
    (hr : ∀ call ∈ calls, call.NoReset) :
    OutputInv (applyAll tid c calls) (sent ++ payloads tid c calls) := by
  induction calls generalizing c sent with
  | nil => simpa [TcpConnection.applyAll, payloads] using h
  | cons call calls ih =>
    have hcall := h.apply tid (hr call List.mem_cons_self)
    have hrest := ih hcall fun d hd => hr d (List.mem_cons_of_mem call hd)
    rw [List.append_assoc] at hrest
    exact hrest

/-! ### Runs of an established connection -/

theorem outputInv_established (creator loop : LoopId) :
    OutputInv (established creator loop) [] where
  state := .inl rfl
  stream := by
    simp [established, new, connectEstablished, enableReading, setState, accepted, Event.accepted,
      update, emit]
  writing := by simp [established, new, connectEstablished, enableReading, setState]
  closed := .inl (by
    simp [established, new, connectEstablished, enableReading, setState, socketLog, update, emit,
      Event.isSocket])

/-- **The output stream.** What the socket has taken and what is still buffered are together what
was sent; the channel waits for `EPOLLOUT` exactly while something is buffered; and the write end
is closed at most once, when everything sent has been taken, with no `::write` behind it. -/
theorem output_stream (creator loop : LoopId) (calls : List OutputCall)
    (hr : ∀ call ∈ calls, call.NoReset) :
    let c := applyAll loop (established creator loop) calls
    let sent := payloads loop (established creator loop) calls
    c.accepted ++ c.outputBuffer.readable = sent ∧
      (c.channel.isWriting ↔ c.outputBuffer.readable ≠ []) ∧
      (.shutdownWrite ∉ c.socketLog ∨ ClosedOnce c.socketLog ∧ c.accepted = sent) := by
  have h := (outputInv_established creator loop).applyAll loop hr
  rw [List.nil_append] at h
  refine ⟨h.stream, h.writing, h.closed.imp_right fun ⟨_, hw, hclosed⟩ => ⟨hclosed, ?_⟩⟩
  have hempty := Decidable.not_not.mp (mt h.writing.mpr hw)
  have hstream := h.stream
  rwa [hempty, List.append_nil] at hstream

/-- A response leaves in two pieces, with `shutdown` called in between. -/
theorem output_stream_partial :
    let calls : List OutputCall := [.user (.send (ascii "abc") (.room 1)), .user .shutdown,
      .handleWrite (.error .EWOULDBLOCK), .handleWrite (.room 9)]
    let c := applyAll 1 (established 0 1) calls
    let sent := payloads 1 (established 0 1) calls
    c.accepted ++ c.outputBuffer.readable = sent ∧
      (c.channel.isWriting ↔ c.outputBuffer.readable ≠ []) ∧
      (.shutdownWrite ∉ c.socketLog ∨ ClosedOnce c.socketLog ∧ c.accepted = sent) :=
  output_stream 0 1 _ (by decide)

example : (applyAll 1 (established 0 1) [.user (.send (ascii "abc") (.room 1)), .user .shutdown,
    .handleWrite (.room 9)]).socketLog =
      [.write (ascii "a"), .write (ascii "bc"), .shutdownWrite] := by
  decide +kernel

end TcpConnection

end MuduoX
