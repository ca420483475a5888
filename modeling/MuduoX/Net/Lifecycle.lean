import MuduoX.Net.Confinement

/-! The callbacks of a connection: up, messages, down.

`Lifecycle` ties the callbacks that a connection has made to its state and to its channel: it is in
the epoll set exactly between up and down. That a handler runs only while the channel is in the
epoll set is what `Safe` asks of a run, together with two things that the source does not check:
`connectDestroyed` does nothing in the state `kDisconnecting`, and `shutdown` of another thread
may come too late. -/

namespace MuduoX

def Event.isCallback : Event → Bool
  | .connectionCallback _ | .messageCallback _ | .closeCallback => true
  | _ => false

def Event.isRemoval : Event → Bool
  | .removeChannel _ => true
  | _ => false

theorem Event.Quiet.isCallback {e : Event} (h : e.Quiet) : e.isCallback = false := by
  cases e <;> first | rfl | exact h.elim

theorem Event.Quiet.isRemoval {e : Event} (h : e.Quiet) : e.isRemoval = false := by
  cases e <;> first | rfl | exact h.elim

/-- The channel is not in the epoll set and will not be put there by a write. -/
def Channel.Idle (ch : Channel) : Prop := ch.index ≠ .kAdded ∧ ch.writing = false

namespace TcpConnection

variable {tid : LoopId} {c c' : TcpConnection}

/-- The callbacks that a connection has made, oldest first. -/
def callbacks (c : TcpConnection) : List Event := (c.log.map Prod.snd).filter Event.isCallback

/-- `connectDestroyed` has come to its end. -/
def Removed (c : TcpConnection) : Prop := ∃ x ∈ c.log, x.2.isRemoval

/-- Up, then the messages, then down, then the close callback; and down by the end of
`connectDestroyed`. -/
def FollowsProtocol (c : TcpConnection) : Prop :=
  (∃ messages : List Bytes, c.callbacks <+: .connectionCallback true ::
    messages.map .messageCallback ++ [.connectionCallback false, .closeCallback]) ∧
  (c.Removed → .connectionCallback false ∈ c.callbacks)

/-! ### The life of a connection -/

inductive Lifecycle (c : TcpConnection) : Prop
  | connecting : c.state = .kConnecting → c.callbacks = [] → ¬c.Removed → c.channel.Idle →
    Lifecycle c
  | opened (messages : List Bytes) : c.state = .kConnected ∨ c.state = .kDisconnecting →
    c.callbacks = .connectionCallback true :: messages.map .messageCallback → ¬c.Removed →
    c.channel.Registered → Lifecycle c
  | closed (messages : List Bytes) (rest : List Event) : c.state = .kDisconnected →
    c.callbacks = .connectionCallback true :: messages.map .messageCallback ++
      .connectionCallback false :: rest →
    rest <+: [.closeCallback] → c.channel.Idle → Lifecycle c

theorem Lifecycle.follows (h : Lifecycle c) : c.FollowsProtocol := by
  cases h with
  | connecting _ hcall hrem =>
    exact ⟨⟨[], by rw [hcall]; exact List.nil_prefix⟩, fun h => absurd h hrem⟩
  | opened messages _ hcall hrem =>
    exact ⟨⟨messages, by rw [hcall]; exact List.prefix_append _ _⟩, fun h => absurd h hrem⟩
  | closed messages rest _ hcall hrest =>
    refine ⟨⟨messages, ?_⟩, fun _ => ?_⟩
    · rw [hcall, List.prefix_append_right_inj]
      exact List.cons_prefix_cons.mpr ⟨rfl, hrest⟩
    · rw [hcall]
      exact List.mem_append_right _ List.mem_cons_self

theorem Lifecycle.registered (h : Lifecycle c) (hadded : c.channel.index = .kAdded) :
    ∃ messages : List Bytes, (c.state = .kConnected ∨ c.state = .kDisconnecting) ∧
      c.callbacks = .connectionCallback true :: messages.map .messageCallback ∧ ¬c.Removed ∧
      c.channel.Registered := by
  cases h with
  | connecting _ _ _ hidle => exact absurd hadded hidle.1
  | opened messages hs hcall hrem hreg => exact ⟨messages, hs, hcall, hrem, hreg⟩
  | closed _ _ _ _ _ hidle => exact absurd hadded hidle.1

theorem callbacks_emit (e : Event) (c : TcpConnection) :
    (emit tid e c).callbacks = c.callbacks ++ if e.isCallback then [e] else [] := by
  simp [callbacks, emit, List.filter_cons]

theorem removed_emit (e : Event) (c : TcpConnection) :
    (emit tid e c).Removed ↔ c.Removed ∨ e.isRemoval := by
  simp [Removed, emit, or_and_right, exists_or]

theorem Quiet.callbacks (h : Quiet tid c c') : c'.callbacks = c.callbacks := by
  obtain ⟨es, hes, hlog⟩ := h.log
  have hnone : es.filter Event.isCallback = [] :=
    List.filter_eq_nil_iff.mpr fun e he => by simp [Event.Quiet.isCallback (hes e he)]
  rw [TcpConnection.callbacks, TcpConnection.callbacks, hlog, List.map_append, List.map_map,
    List.filter_append]
  simpa [Function.comp_def] using hnone

theorem Quiet.removed (h : Quiet tid c c') : c'.Removed ↔ c.Removed := by
  obtain ⟨es, hes, hlog⟩ := h.log
  rw [Removed, Removed, hlog]
  constructor
  · rintro ⟨x, hx, hrem⟩
    rcases List.mem_append.mp hx with hx | hx
    · exact ⟨x, hx, hrem⟩
    · obtain ⟨e, he, rfl⟩ := List.mem_map.mp hx
      simp [Event.Quiet.isRemoval (hes e he)] at hrem
  · exact fun ⟨x, hx, hrem⟩ => ⟨x, List.mem_append_left _ hx, hrem⟩

/-! ### One method -/

/-- What every method but `connectEstablished` does to the life of a connection. -/
structure LivesOn (c c' : TcpConnection) : Prop where
  lifecycle : Lifecycle c'
  connecting : c'.state = .kConnecting ↔ c.state = .kConnecting

theorem Lifecycle.refl (h : Lifecycle c) : LivesOn c c := ⟨h, .rfl⟩

theorem LivesOn.of_ne (h : Lifecycle c') (hs : c.state ≠ .kConnecting)
    (hs' : c'.state ≠ .kConnecting) : LivesOn c c' :=
  ⟨h, fun h => absurd h hs', fun h => absurd h hs⟩

theorem not_connecting (hs : c.state = .kConnected ∨ c.state = .kDisconnecting) :
    c.state ≠ .kConnecting := by
  rcases hs with hs | hs <;> rw [hs] <;> intro h <;> cases h

/-- Nothing ends the life of an open connection quietly. -/
theorem LivesOn.of_quiet {messages : List Bytes} (h : Quiet tid c c')
    (hs : c.state = .kConnected ∨ c.state = .kDisconnecting)
    (hcall : c.callbacks = .connectionCallback true :: messages.map .messageCallback)
    (hrem : ¬c.Removed) (hreg : c.channel.Registered) : LivesOn c c' := by
  have hs' : c'.state = .kConnected ∨ c'.state = .kDisconnecting := by
    rcases h.state with hstate | ⟨-, hstate⟩
    · rw [hstate]
      exact hs
    · exact .inr hstate
  exact .of_ne (.opened messages hs' (h.callbacks.trans hcall) (mt h.removed.mp hrem)
    (h.registered hreg)) (not_connecting hs) (not_connecting hs')

/-- What the log says of callbacks, the state and the channel are all that counts. -/
theorem Lifecycle.of_same (h : Lifecycle c) (hstate : c'.state = c.state)
    (hchannel : c'.channel = c.channel) (hcall : c'.callbacks = c.callbacks)
    (hrem : c'.Removed ↔ c.Removed) : LivesOn c c' := by
  refine ⟨?_, by rw [hstate]⟩
  cases h with
  | connecting hs hcall' hrem' hidle =>
    exact .connecting (hstate.trans hs) (hcall.trans hcall') (mt hrem.mp hrem') (hchannel ▸ hidle)
  | opened messages hs hcall' hrem' hreg =>
    exact .opened messages (hstate ▸ hs) (hcall.trans hcall') (mt hrem.mp hrem') (hchannel ▸ hreg)
  | closed messages rest hs hcall' hrest hidle =>
    exact .closed messages rest (hstate.trans hs) (hcall.trans hcall') hrest (hchannel ▸ hidle)

theorem lifecycle_new (loop : LoopId) : Lifecycle (new tid loop) := by
  have hindex : (new tid loop).channel.index = .kDeleted := rfl
  exact .connecting rfl rfl (by simp [Removed, Event.isRemoval, new, update, emit])
    ⟨by simp [hindex], by simp [new]⟩

theorem Lifecycle.sendInLoop (h : Lifecycle c) (hs : c.state ≠ .kConnecting) (message : Bytes)
    (r : WriteResult) : LivesOn c (sendInLoop tid message r c) := by
  cases h with
  | connecting hs' => exact absurd hs' hs
  | opened messages hs hcall hrem hreg =>
    exact .of_quiet (quiet_sendInLoop message r c) hs hcall hrem hreg
  | closed messages rest hs' hcall hrest hidle =>
    unfold TcpConnection.sendInLoop
    rw [if_pos hs']
    exact (Lifecycle.closed messages rest hs' hcall hrest hidle).refl

theorem Lifecycle.shutdownInLoop (h : Lifecycle c) : LivesOn c (shutdownInLoop tid c) := by
  have hquiet : Quiet tid c (TcpConnection.shutdownInLoop tid c) := quiet_shutdownInLoop c
  refine h.of_same ?_ ?_ hquiet.callbacks hquiet.removed
  · unfold TcpConnection.shutdownInLoop
    split <;> rfl
  · unfold TcpConnection.shutdownInLoop
    split <;> rfl

theorem Lifecycle.handleWrite (h : Lifecycle c) (r : WriteResult) :
    LivesOn c (handleWrite tid r c) := by
  have hidle (hi : c.channel.Idle) : TcpConnection.handleWrite tid r c = c := by
    unfold TcpConnection.handleWrite
    rw [if_neg (by simp [hi.2])]
  cases h with
  | connecting hs hcall hrem hi =>
    rw [hidle hi]
    exact (Lifecycle.connecting hs hcall hrem hi).refl
  | opened messages hs hcall hrem hreg =>
    exact .of_quiet (quiet_handleWrite r c) hs hcall hrem hreg
  | closed messages rest hs hcall hrest hi =>
    rw [hidle hi]
    exact (Lifecycle.closed messages rest hs hcall hrest hi).refl

theorem Call.apply_of_not_connected (call : Call) (hs : c.state ≠ .kConnected) :
    call.apply tid c = c := by
  cases call with
  | send message r => exact if_neg hs
  | sendBuffer buf r => exact congrArg Prod.fst (if_neg hs)
  | shutdown => exact if_neg hs

theorem Lifecycle.call (h : Lifecycle c) (call : Call) : LivesOn c (call.apply tid c) := by
  rcases Decidable.em (c.state = .kConnected) with hs | hs
  · cases h with
    | connecting hs' => rw [hs'] at hs; cases hs
    | opened messages hs hcall hrem hreg => exact .of_quiet (call.quiet c) hs hcall hrem hreg
    | closed _ _ hs' => rw [hs'] at hs; cases hs
  · rw [call.apply_of_not_connected hs]
    exact h.refl

/-- Another thread stores `kDisconnecting`. -/
theorem Lifecycle.disconnecting (h : Lifecycle c) (hs : c.state ≠ .kConnecting)
    (hs' : c.state ≠ .kDisconnected) : LivesOn c (c.setState .kDisconnecting) := by
  cases h with
  | connecting hs'' => exact absurd hs'' hs
  | opened messages _ hcall hrem hreg =>
    exact .of_ne (.opened messages (.inr rfl) hcall hrem hreg) hs (by simp [setState])
  | closed _ _ hs'' => exact absurd hs'' hs'

/-! The methods that call back. -/

/-- The end of an open connection: `kDisconnected`, out of the epoll set, and the callback. -/
theorem down_callbacks (tid : LoopId) (hreg : c.channel.Registered) :
    let c' := emit tid (.connectionCallback false) (disableAll tid (setState .kDisconnected c))
    c'.state = .kDisconnected ∧ c'.callbacks = c.callbacks ++ [.connectionCallback false] ∧
      c'.channel.Idle := by
  obtain ⟨hindex, -⟩ := hreg
  refine ⟨rfl, ?_, ?_, ?_⟩
  · rw [callbacks_emit]
    congr 1
    rw [disableAll, update, callbacks_emit]
    exact List.append_nil _
  · simp [disableAll, update, emit, setState, EPollPoller.updateChannel, hindex,
      Channel.isNoneEvent]
  · simp [disableAll, setState]

theorem Lifecycle.connectDestroyed (h : Lifecycle c) (hs : c.state ≠ .kConnecting)
    (hs' : c.state ≠ .kDisconnecting) : LivesOn c (connectDestroyed tid c) := by
  have hremove (c : TcpConnection) : (remove tid c).callbacks = c.callbacks := by
    rw [remove, callbacks_emit]
    exact List.append_nil _
  have hidle (c : TcpConnection) (hi : c.channel.Idle) : (remove tid c).channel.Idle :=
    ⟨by simp [remove, EPollPoller.removeChannel], hi.2⟩
  cases h with
  | connecting hs'' => exact absurd hs'' hs
  | opened messages hstate hcall _ hreg =>
    have hconn := hstate.resolve_right hs'
    obtain ⟨-, hcall', hi⟩ := down_callbacks tid hreg
    unfold TcpConnection.connectDestroyed
    rw [if_pos hconn]
    refine .of_ne (.closed messages [] rfl ?_ List.nil_prefix (hidle _ hi)) hs
      (fun h => nomatch h)
    rw [hremove]
    exact hcall'.trans (by rw [hcall])
  | closed messages rest hstate hcall hrest hi =>
    unfold TcpConnection.connectDestroyed
    rw [if_neg (by simp [hstate])]
    exact .of_ne (.closed messages rest hstate ((hremove c).trans hcall) hrest (hidle c hi)) hs
      (by simp [remove, hstate])

theorem Lifecycle.handleClose (h : Lifecycle c) (hadded : c.channel.index = .kAdded) :
    LivesOn c (handleClose tid c) := by
  obtain ⟨messages, hs, hcall, -, hreg⟩ := h.registered hadded
  obtain ⟨-, hcall', hi⟩ := down_callbacks tid hreg
  refine .of_ne (.closed messages [.closeCallback] rfl ?_ List.prefix_rfl hi)
    (not_connecting hs) (fun h => nomatch h)
  rw [TcpConnection.handleClose, callbacks_emit]
  simp only [Event.isCallback, if_true]
  rw [show connected _ = false from rfl, hcall', hcall]
  simp

theorem Lifecycle.handleRead (h : Lifecycle c) (r : ReadResult) (calls : List Call)
    (hadded : r ≠ .error → c.channel.index = .kAdded) : LivesOn c (handleRead tid r calls c) := by
  cases r with
  | error => exact h.refl
  | eof => exact h.handleClose (hadded (fun h => nomatch h))
  | data first rest =>
    obtain ⟨messages, hs, hcall, hrem, hreg⟩ := h.registered (hadded (fun h => nomatch h))
    have hmessage : (emit tid (.messageCallback (first :: rest)) c).callbacks =
        .connectionCallback true :: (messages ++ [first :: rest]).map .messageCallback := by
      rw [callbacks_emit, hcall]
      simp [Event.isCallback]
    have hquiet : Quiet tid (emit tid (.messageCallback (first :: rest)) c)
        (TcpConnection.handleRead tid (.data first rest) calls c) := Call.foldl_quiet calls _
    have hlives := LivesOn.of_quiet hquiet hs hmessage
      (by simpa [removed_emit, Event.isRemoval] using hrem) hreg
    exact ⟨hlives.lifecycle, hlives.connecting⟩

/-- The one method that a connection lives on from `kConnecting` with. -/
theorem Lifecycle.connectEstablished (h : Lifecycle c) (hs : c.state = .kConnecting)
    (tid : LoopId) (calls : List Call) : Lifecycle (connectEstablished tid calls c) ∧
      (connectEstablished tid calls c).state ≠ .kConnecting := by
  cases h with
  | opened _ hs' => exact absurd hs (not_connecting hs')
  | closed _ _ hs' => rw [hs'] at hs; cases hs
  | connecting _ hcall hrem hi =>
    have hreg : (enableReading tid (setState .kConnected c)).channel.Registered := by
      constructor
      · have hindex : c.channel.index ≠ .kAdded := hi.1
        simp only [enableReading, update, emit_channel, EPollPoller.updateChannel, setState]
        split
        · rfl
        · rfl
        · rename_i hadded
          exact absurd hadded hindex
      · simp [enableReading, update, setState]
    have hcall' : (enableReading tid (setState .kConnected c)).callbacks = [] := by
      rw [enableReading, update, callbacks_emit]
      exact (List.append_nil _).trans hcall
    have hrem' : ¬(enableReading tid (setState .kConnected c)).Removed := by
      rw [enableReading, update, removed_emit]
      exact fun h => hrem (h.resolve_right Bool.false_ne_true)
    have hquiet : Quiet tid
        (emit tid (.connectionCallback true) (enableReading tid (setState .kConnected c)))
        (TcpConnection.connectEstablished tid calls c) := Call.foldl_quiet calls _
    have hup : (emit tid (.connectionCallback true)
        (enableReading tid (setState .kConnected c))).callbacks =
          .connectionCallback true :: ([] : List Bytes).map .messageCallback := by
      rw [callbacks_emit, hcall']
      rfl
    have hlives := LivesOn.of_quiet hquiet (.inl rfl) hup
      (by simpa [removed_emit, Event.isRemoval] using hrem') hreg
    exact ⟨hlives.lifecycle, fun h => by cases hlives.connecting.mp h⟩

end TcpConnection

end MuduoX
