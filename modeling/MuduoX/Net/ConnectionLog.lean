import MuduoX.Net.TcpConnection

/-! What a method of a connection appends to the connection's log.

A method works on one thread, and all that it appends carries that thread's name (`Did`). Most of
the methods are quiet: they call nobody back and leave the channel in the epoll set. -/

namespace MuduoX

/-- Calls of the socket and of `updateChannel`. -/
def Event.Quiet : Event → Prop
  | .write _ | .shutdownWrite | .updateChannel _ => True
  | .connectionCallback _ | .messageCallback _ | .closeCallback | .removeChannel _ => False

/-- The channel is in the epoll set, with an interest in reading. -/
def Channel.Registered (ch : Channel) : Prop := ch.index = .kAdded ∧ ch.reading = true

theorem Channel.Registered.update {ch : Channel} (h : ch.Registered) :
    (EPollPoller.updateChannel ch).1 = ch := by
  obtain ⟨hindex, hreading⟩ := h
  unfold EPollPoller.updateChannel
  rw [hindex]
  simp [isNoneEvent, hreading]

namespace TcpConnection

/-- From `c` to `c'`, the thread `tid` has done things of the kind `P`. -/
structure Did (tid : LoopId) (P : Event → Prop) (c c' : TcpConnection) : Prop where
  loop : c'.channel.loop = c.channel.loop
  log : ∃ es : List Event, (∀ e ∈ es, P e) ∧ c'.log = c.log ++ es.map (tid, ·)

variable {tid : LoopId} {P Q : Event → Prop} {c c' c'' : TcpConnection}

theorem Did.of_eq (hloop : c'.channel.loop = c.channel.loop) (hlog : c'.log = c.log) :
    Did tid P c c' :=
  ⟨hloop, [], fun _ h => (List.not_mem_nil h).elim, by rw [hlog, List.map_nil, List.append_nil]⟩

theorem Did.refl (c : TcpConnection) : Did tid P c c := .of_eq rfl rfl

theorem Did.trans (h : Did tid P c c') (h' : Did tid P c' c'') : Did tid P c c'' := by
  obtain ⟨hloop, es, hes, hlog⟩ := h
  obtain ⟨hloop', es', hes', hlog'⟩ := h'
  refine ⟨hloop'.trans hloop, es ++ es', fun e he => ?_, ?_⟩
  · exact (List.mem_append.mp he).elim (hes e) (hes' e)
  · rw [hlog', hlog, List.map_append, List.append_assoc]

theorem Did.mono (h : Did tid P c c') (hPQ : ∀ e, P e → Q e) : Did tid Q c c' := by
  obtain ⟨hloop, es, hes, hlog⟩ := h
  exact ⟨hloop, es, fun e he => hPQ e (hes e he), hlog⟩

theorem did_emit {e : Event} (h : P e) (c : TcpConnection) : Did tid P c (emit tid e c) :=
  ⟨rfl, [e], by simpa using h, rfl⟩

theorem did_update (h : ∀ op, P (.updateChannel op)) (c : TcpConnection) :
    Did tid P c (update tid c) :=
  ⟨by simp [update], [.updateChannel _], by simpa using h _, rfl⟩

/-- `tid` has called nobody back and has not taken the channel out of the epoll set; at most a
connected connection has begun to disconnect. -/
structure Quiet (tid : LoopId) (c c' : TcpConnection) : Prop extends Did tid Event.Quiet c c' where
  registered : c.channel.Registered → c'.channel.Registered
  state : c'.state = c.state ∨ c.state = .kConnected ∧ c'.state = .kDisconnecting

/-- Nothing that the log, the channel or the state shows. -/
theorem Quiet.of_eq (hlog : c'.log = c.log) (hchannel : c'.channel = c.channel)
    (hstate : c'.state = c.state) : Quiet tid c c' :=
  ⟨.of_eq (congrArg Channel.loop hchannel) hlog, fun h => hchannel ▸ h, .inl hstate⟩

theorem Quiet.refl (c : TcpConnection) : Quiet tid c c := .of_eq rfl rfl rfl

theorem Quiet.trans (h : Quiet tid c c') (h' : Quiet tid c' c'') : Quiet tid c c'' := by
  refine ⟨h.toDid.trans h'.toDid, fun hr => h'.registered (h.registered hr), ?_⟩
  rcases h.state with hs | ⟨hs, hs'⟩
  · rw [← hs]
    exact h'.state
  · rcases h'.state with hs'' | ⟨hs'', -⟩
    · exact .inr ⟨hs, hs''.trans hs'⟩
    · rw [hs'] at hs''
      cases hs''

theorem quiet_emit {e : Event} (h : e.Quiet) (c : TcpConnection) : Quiet tid c (emit tid e c) :=
  ⟨did_emit h c, id, .inl rfl⟩

theorem quiet_write (bs : Bytes) (c : TcpConnection) : Quiet tid c (emit tid (.write bs) c) :=
  quiet_emit (e := .write bs) trivial c

theorem quiet_setWriting (w : Bool) (c : TcpConnection) :
    Quiet tid c (update tid { c with channel := { c.channel with writing := w } }) := by
  have hset : Did tid Event.Quiet c { c with channel := { c.channel with writing := w } } :=
    .of_eq rfl rfl
  refine ⟨hset.trans (did_update (fun _ => trivial) _), fun h => ?_, .inl rfl⟩
  have hreg : { c.channel with writing := w }.Registered := h
  exact (congrArg Channel.Registered hreg.update).mpr hreg

theorem quiet_buffer (rest : Bytes) (c : TcpConnection) : Quiet tid c (buffer tid rest c) := by
  unfold buffer
  split
  · exact .refl c
  · have happend : Quiet tid c { c with outputBuffer := c.outputBuffer.append rest } :=
      .of_eq rfl rfl rfl
    simp only
    split
    · exact happend
    · exact happend.trans (quiet_setWriting true _)

theorem quiet_sendInLoop (message : Bytes) (r : WriteResult) (c : TcpConnection) :
    Quiet tid c (sendInLoop tid message r c) := by
  unfold sendInLoop
  split
  · exact .refl c
  · split
    · cases r with
      | room n => exact (quiet_write _ c).trans (quiet_buffer _ _)
      | error e =>
        simp only
        split
        · exact quiet_write [] c
        · exact (quiet_write [] c).trans (quiet_buffer _ _)
    · exact quiet_buffer _ _

theorem quiet_shutdownInLoop (c : TcpConnection) : Quiet tid c (shutdownInLoop tid c) := by
  unfold shutdownInLoop
  split
  · exact .refl c
  · exact quiet_emit (e := .shutdownWrite) trivial c

theorem quiet_shutdownIfClosing (c : TcpConnection) :
    Quiet tid c (if c.state = .kDisconnecting then shutdownInLoop tid c else c) := by
  split
  · exact quiet_shutdownInLoop c
  · exact .refl c

/-- The end of `handleWrite`. -/
theorem quiet_written (c : TcpConnection) : Quiet tid c
    (let c := if c.outputBuffer.readableBytes = 0 then disableWriting tid c else c
    if c.state = .kDisconnecting then shutdownInLoop tid c else c) := by
  have hwriting : Quiet tid c
      (if c.outputBuffer.readableBytes = 0 then disableWriting tid c else c) := by
    split
    · exact quiet_setWriting false c
    · exact .refl c
  exact hwriting.trans (quiet_shutdownIfClosing _)

theorem quiet_handleWrite (r : WriteResult) (c : TcpConnection) :
    Quiet tid c (handleWrite tid r c) := by
  unfold handleWrite
  split
  · cases r with
    | error e => exact quiet_write [] c
    | room n =>
      simp only
      split
      · exact quiet_write _ c
      · have hretrieved : Quiet tid c { emit tid (.write (c.outputBuffer.readable.take n)) c with
            outputBuffer := c.outputBuffer.retrieve (c.outputBuffer.readable.take n).length } :=
          (quiet_write _ c).trans (.of_eq rfl rfl rfl)
        exact hretrieved.trans (quiet_written _)
  · exact .refl c

theorem quiet_send (message : Bytes) (r : WriteResult) (c : TcpConnection) :
    Quiet tid c (send tid message r c) := by
  unfold send
  split
  · exact quiet_sendInLoop _ _ c
  · exact .refl c

theorem quiet_sendBuffer (buf : Buffer) (r : WriteResult) (c : TcpConnection) :
    Quiet tid c (sendBuffer tid buf r c).1 := by
  unfold sendBuffer
  split
  · exact quiet_sendInLoop _ _ c
  · exact .refl c

theorem quiet_shutdown (c : TcpConnection) : Quiet tid c (shutdown tid c) := by
  unfold shutdown
  split
  · rename_i hs
    have hset : Quiet tid c (setState .kDisconnecting c) :=
      ⟨.of_eq rfl rfl, id, .inr ⟨hs, rfl⟩⟩
    exact hset.trans (quiet_shutdownInLoop _)
  · exact .refl c

theorem Call.quiet (call : Call) (c : TcpConnection) : Quiet tid c (call.apply tid c) := by
  cases call with
  | send message r => exact quiet_send message r c
  | sendBuffer buf r => exact quiet_sendBuffer buf r c
  | shutdown => exact quiet_shutdown c

theorem Call.foldl_quiet (calls : List Call) (c : TcpConnection) :
    Quiet tid c (calls.foldl (Call.apply tid) c) := by
  induction calls generalizing c with
  | nil => exact .refl c
  | cons call calls ih => exact (call.quiet c).trans (ih _)

/-! The methods that call back, or leave the epoll set. -/

theorem Quiet.did (h : Quiet tid c c') : Did tid (fun _ => True) c c' :=
  h.toDid.mono fun _ _ => trivial

theorem did_disableAll (c : TcpConnection) : Did tid (fun _ => True) c (disableAll tid c) := by
  have hset : Did tid (fun _ => True) c
      { c with channel := { c.channel with reading := false, writing := false } } := .of_eq rfl rfl
  exact hset.trans (did_update (fun _ => trivial) _)

theorem did_remove (c : TcpConnection) : Did tid (fun _ => True) c (remove tid c) :=
  ⟨rfl, [.removeChannel _], fun _ _ => trivial, rfl⟩

/-- `kDisconnected`, no interest in any event, and the callback. -/
theorem did_down (c : TcpConnection) : Did tid (fun _ => True) c
    (emit tid (.connectionCallback false) (disableAll tid (setState .kDisconnected c))) := by
  have hset : Did tid (fun _ => True) c (setState .kDisconnected c) := .of_eq rfl rfl
  exact (hset.trans (did_disableAll _)).trans (did_emit trivial _)

theorem did_connectEstablished (calls : List Call) (c : TcpConnection) :
    Did tid (fun _ => True) c (connectEstablished tid calls c) := by
  have hset : Did tid (fun _ => True) c { setState .kConnected c with
      channel := { c.channel with reading := true } } := .of_eq rfl rfl
  have hup := (hset.trans (did_update (fun _ => trivial) _)).trans
    (did_emit (e := .connectionCallback true) trivial _)
  exact hup.trans (Call.foldl_quiet calls _).did

theorem did_connectDestroyed (c : TcpConnection) :
    Did tid (fun _ => True) c (connectDestroyed tid c) := by
  unfold connectDestroyed
  split
  · exact (did_down c).trans (did_remove _)
  · exact did_remove c

theorem did_handleClose (c : TcpConnection) : Did tid (fun _ => True) c (handleClose tid c) :=
  (did_down c).trans (did_emit trivial _)

theorem did_handleRead (r : ReadResult) (calls : List Call) (c : TcpConnection) :
    Did tid (fun _ => True) c (handleRead tid r calls c) := by
  cases r with
  | data first rest =>
    have hmessage : Did tid (fun _ => True) c (emit tid (.messageCallback (first :: rest)) c) :=
      did_emit trivial c
    exact hmessage.trans (Call.foldl_quiet calls _).did
  | eof => exact did_handleClose c
  | error => exact .refl c

end TcpConnection

end MuduoX
