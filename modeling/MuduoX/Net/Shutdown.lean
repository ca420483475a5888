import MuduoX.Net.Output
import MuduoX.Theory.Run

/-! # `shutdown()` and the sends before it

One connection that several threads call. `send` and `shutdown` test `state_` on the calling thread;
what follows runs at once on the thread of the loop and through the loop's queue on any other. A step
is one access to `state_`, one locked insertion, or one piece of work of the loop's thread on what
only that thread touches. What bytes a queued functor finds at its pointer is the subject of
`CrossSend`; here the functor holds them. -/

namespace MuduoX

/-- A queued functor. A call of `send` has a number. -/
inductive ConnectionFunctor where
  | sendInLoop (call : Nat) (message : Bytes)
  | shutdownInLoop
  deriving DecidableEq, Repr

/-- What a thread has done of its call. -/
inductive Calling where
  /-- `send` has found `kConnected`. -/
  | sending (call : Nat) (message : Bytes)
  /-- `shutdown` has found `kConnected`. -/
  | shuttingDown
  /-- `shutdown` has set `kDisconnecting`. -/
  | stateSet
  deriving DecidableEq, Repr

structure SharedConnection where
  conn : TcpConnection
  pendingFunctors : List ConnectionFunctor
  calling : LoopId → Option Calling
  /-- ghost: how many calls of `send` have found `kConnected` -/
  sends : Nat
  /-- ghost: the calls whose `sendInLoop` has run, in this order -/
  executed : List (Nat × Bytes)
  /-- ghost: the calls that have returned before any call of `shutdown` -/
  early : List (Nat × Bytes)
  /-- ghost: `shutdown` has been called -/
  shutdownCalled : Bool

namespace SharedConnection

def new (conn : TcpConnection) : SharedConnection := ⟨conn, [], fun _ => none, 0, [], [], false⟩

inductive Input where
  /-- Any thread calls `send` or `shutdown`, up to the test of `state_`. -/
  | send (tid : LoopId) (message : Bytes)
  | shutdown (tid : LoopId)
  /-- The next step of the thread's call. -/
  | continue (tid : LoopId) (r : WriteResult)
  /-- What the loop's thread does by itself. -/
  | runFunctor (r : WriteResult)
  | handleWrite (r : WriteResult)
  | handleClose
  deriving DecidableEq

def setCalling (tid : LoopId) (c : Option Calling) (s : SharedConnection) : SharedConnection :=
  { s with calling := Function.update s.calling tid c }

def queueInLoop (f : ConnectionFunctor) (s : SharedConnection) : SharedConnection :=
  { s with pendingFunctors := s.pendingFunctors ++ [f] }

/-- The loop that the connection belongs to, and its thread. -/
def loop (s : SharedConnection) : LoopId := s.conn.channel.loop

/-- The functor runs on that thread. -/
def runFunctor (f : ConnectionFunctor) (r : WriteResult) (s : SharedConnection) :
    SharedConnection :=
  match f with
  | .sendInLoop call message =>
    { s with
      conn := s.conn.sendInLoop s.loop message r
      executed := s.executed ++ [(call, message)] }
  | .shutdownInLoop => { s with conn := s.conn.shutdownInLoop s.loop }

/-- `loop_->runInLoop(f)` -/
def runInLoop (tid : LoopId) (f : ConnectionFunctor) (r : WriteResult) (s : SharedConnection) :
    SharedConnection :=
  if tid = s.loop then s.runFunctor f r else s.queueInLoop f

/-- `send` returns. -/
def sendReturns (call : Nat) (message : Bytes) (s : SharedConnection) : SharedConnection :=
  if s.shutdownCalled then s else { s with early := s.early ++ [(call, message)] }

def step (s : SharedConnection) : Input → Option SharedConnection
  | .send tid message =>
    if s.calling tid ≠ none then none
    else if s.conn.state = .kConnected then
      some ({ s with sends := s.sends + 1 }.setCalling tid (some (.sending s.sends message)))
    else some s
  | .shutdown tid =>
    if s.calling tid ≠ none then none
    else
      let s := { s with shutdownCalled := true }
      some (if s.conn.state = .kConnected then s.setCalling tid (some .shuttingDown) else s)
  | .continue tid r =>
    match s.calling tid with
    | none => none
    | some (.sending call message) =>
      some (((s.runInLoop tid (.sendInLoop call message) r).sendReturns call message).setCalling
        tid none)
    | some .shuttingDown =>
      some ({ s with conn := s.conn.setState .kDisconnecting }.setCalling tid (some .stateSet))
    | some .stateSet => some ((s.runInLoop tid .shutdownInLoop r).setCalling tid none)
  | .runFunctor r =>
    match s.calling s.loop, s.pendingFunctors with
    | none, f :: fs => some ({ s with pendingFunctors := fs }.runFunctor f r)
    | _, _ => none
  | .handleWrite r =>
    if s.calling s.loop = none then some { s with conn := s.conn.handleWrite s.loop r } else none
  | .handleClose =>
    if s.calling s.loop = none then some { s with conn := s.conn.handleClose s.loop } else none

/-- The socket's answer to a `::write`. -/
def Input.answer : Input → Option WriteResult
  | .continue _ r | .runFunctor r | .handleWrite r => some r
  | _ => none

/-- The peer has not reset the connection. -/
def Input.NoReset (i : Input) : Prop :=
  i.answer ≠ some (.error .EPIPE) ∧ i.answer ≠ some (.error .ECONNRESET)

instance (i : Input) : Decidable i.NoReset := inferInstanceAs (Decidable (_ ∧ _))

/-- No accepted `send` is on its way to the thread of the loop. -/
def Settled (s : SharedConnection) : Prop :=
  (∀ f ∈ s.pendingFunctors, f = .shutdownInLoop) ∧
    ∀ tid call message, s.calling tid ≠ some (.sending call message)

/-- Where the write end is closed (by the loop's own `shutdown`, by a queued one, or behind the last
byte of the buffer) no accepted `send` is on its way; and nothing is buffered either where the peer
closes the connection. -/
def ClosesSettled (s : SharedConnection) : Input → Prop
  | .continue tid _ => tid = s.loop → s.calling tid = some .stateSet →
      s.conn.channel.isWriting = false → s.Settled
  | .runFunctor _ => s.pendingFunctors.head? = some .shutdownInLoop →
      s.conn.channel.isWriting = false → s.Settled
  | .handleWrite (.room n) => s.conn.state = .kDisconnecting → s.conn.channel.isWriting = true →
      s.conn.outputBuffer.readableBytes ≤ n → s.Settled
  | .handleClose => s.conn.outputBuffer.readableBytes = 0 ∧ s.Settled
  | _ => True

end SharedConnection

/-! ### Calls on the socket -/

namespace TcpConnection

variable {tid : LoopId} {c : TcpConnection} {r : WriteResult}

@[simp] theorem buffer_state (rest : Bytes) : (buffer tid rest c).state = c.state := by
  rw [buffer]
  split
  · rfl
  · simp only
    split <;> rfl

@[simp] theorem buffer_socketLog (rest : Bytes) :
    (buffer tid rest c).socketLog = c.socketLog := by
  rw [buffer]
  split
  · rfl
  · simp only
    split
    · rfl
    · exact update_socketLog tid

theorem sendInLoop_state (message : Bytes) : (c.sendInLoop tid message r).state = c.state := by
  unfold sendInLoop
  split
  · rfl
  · split
    · cases r with
      | room n => exact buffer_state _
      | error e =>
        simp only
        split
        · rfl
        · exact buffer_state _
    · exact buffer_state _

/-- A send does not close the write end. -/
theorem sendInLoop_open (hopen : .shutdownWrite ∉ c.socketLog) (message : Bytes) :
    .shutdownWrite ∉ (c.sendInLoop tid message r).socketLog := by
  have hwrite := OutputInv.mem_write tid hopen
  unfold sendInLoop
  split
  · exact hopen
  · split
    · cases r with
      | room n =>
        rw [buffer_socketLog]
        exact hwrite _
      | error e =>
        simp only
        split
        · exact hwrite _
        · rw [buffer_socketLog]
          exact hwrite _
    · rwa [buffer_socketLog]

theorem shutdownInLoop_state : (c.shutdownInLoop tid).state = c.state := by
  rw [shutdownInLoop]
  split <;> rfl

theorem shutdownInLoop_of_writing (h : c.channel.isWriting = true) : c.shutdownInLoop tid = c :=
  if_pos h

theorem handleClose_accepted : (c.handleClose tid).accepted = c.accepted := by
  rw [handleClose, accepted_emit, accepted_emit, disableAll, update_accepted]
  exact (List.append_nil _).trans (List.append_nil _)

theorem handleClose_socketLog : (c.handleClose tid).socketLog = c.socketLog := by
  rw [handleClose, socketLog_emit, socketLog_emit, disableAll, update_socketLog]
  exact (List.append_nil _).trans (List.append_nil _)

theorem handleClose_writing : (c.handleClose tid).channel.writing = false := by
  change (disableAll tid (setState .kDisconnected c)).channel.writing = false
  rw [disableAll, update_writing]

theorem handleWrite_state : (c.handleWrite tid r).state = c.state := by
  unfold handleWrite
  split
  · cases r with
    | error e => rfl
    | room n =>
      simp only
      split
      · rfl
      · split <;> split
        · exact shutdownInLoop_state
        · rfl
        · exact shutdownInLoop_state
        · rfl
  · rfl

/-- Writing closes the write end only behind the last byte of a connection that disconnects. -/
theorem handleWrite_open (hopen : .shutdownWrite ∉ c.socketLog)
    (hmore : ∀ n, r = .room n → c.state = .kDisconnecting → c.channel.isWriting = true →
      n < c.outputBuffer.readableBytes) : .shutdownWrite ∉ (c.handleWrite tid r).socketLog := by
  have hwrite := OutputInv.mem_write tid hopen
  unfold handleWrite
  split
  · rename_i hwriting
    cases r with
    | error e => exact hwrite []
    | room n =>
      simp only
      split
      · exact hwrite _
      · rw [emit_outputBuffer]
        by_cases hempty : (c.outputBuffer.retrieve
            (c.outputBuffer.readable.take n).length).readableBytes = 0
        · rw [if_pos hempty]
          have hstate : c.state ≠ .kDisconnecting := by
            intro hstate
            have hlt := hmore n rfl hstate hwriting
            rw [← Buffer.readable_length, Buffer.readable_retrieve, List.length_drop,
              List.length_take, Buffer.readable_length] at hempty
            omega
          split
          · rename_i hclosing
            exact absurd hclosing hstate
          · rw [disableWriting, update_socketLog]
            exact hwrite _
        · rw [if_neg hempty]
          split
          · rw [shutdownInLoop_of_writing (by exact hwriting)]
            exact hwrite _
          · exact hwrite _
  · exact hopen

end TcpConnection

namespace SharedConnection

variable {s s' : SharedConnection} {i : Input} {tid : LoopId} {r : WriteResult}

/-- What has been sent, in the order in which the sends have run. -/
def sent (s : SharedConnection) : Bytes := s.executed.flatMap Prod.snd

/-- The write end is closed, or the peer has closed the connection: everything has been written, and
nothing writes any more. -/
structure Closed (s : SharedConnection) : Prop where
  state : s.conn.state ≠ .kConnected
  writing : s.conn.channel.isWriting = false
  accepted : s.conn.accepted = s.sent
  log : ∃ writes closes : List Event, s.conn.socketLog = writes ++ closes ∧
    .shutdownWrite ∉ writes ∧ ∀ e ∈ closes, e = .shutdownWrite
  settled : s.Settled

/-- The write end is open. -/
structure Open (s : SharedConnection) : Prop where
  log : .shutdownWrite ∉ s.conn.socketLog
  output : TcpConnection.OutputInv s.conn s.sent

structure Inv (s : SharedConnection) : Prop where
  phase : s.Open ∨ s.Closed
  /-- An accepted `send` that has returned has run or is queued. -/
  early : ∀ call ∈ s.early, call ∈ s.executed ∨ .sendInLoop call.1 call.2 ∈ s.pendingFunctors
  /-- `shutdown` has set the state before it asks for anything. -/
  stateSet : ∀ tid, s.calling tid = some .stateSet → s.conn.state ≠ .kConnected
  queued : .shutdownInLoop ∈ s.pendingFunctors → s.conn.state ≠ .kConnected

@[simp] theorem runFunctor_state (f : ConnectionFunctor) :
    (s.runFunctor f r).conn.state = s.conn.state := by
  cases f with
  | sendInLoop call message => exact TcpConnection.sendInLoop_state message
  | shutdownInLoop => exact TcpConnection.shutdownInLoop_state

@[simp] theorem runFunctor_calling (f : ConnectionFunctor) :
    (s.runFunctor f r).calling = s.calling := by
  cases f <;> rfl

@[simp] theorem runFunctor_pendingFunctors (f : ConnectionFunctor) :
    (s.runFunctor f r).pendingFunctors = s.pendingFunctors := by
  cases f <;> rfl

theorem Closed.not_sending (h : s.Closed) {call : Nat} {message : Bytes} :
    s.calling tid ≠ some (.sending call message) := h.settled.2 tid call message

theorem Closed.not_queued (h : s.Closed) {call : Nat} {message : Bytes} :
    .sendInLoop call message ∉ s.pendingFunctors := by
  intro hmem
  cases h.settled.1 _ hmem

/-- The write end is open before a send runs, and after it. -/
theorem Open.sendInLoop (h : s.Open) {call : Nat} {message : Bytes} (h₁ : r ≠ .error .EPIPE)
    (h₂ : r ≠ .error .ECONNRESET) : (s.runFunctor (.sendInLoop call message) r).Open := by
  refine ⟨TcpConnection.sendInLoop_open h.log message, ?_⟩
  have hsent : (s.runFunctor (.sendInLoop call message) r).sent = s.sent ++ message := by
    simp [sent, runFunctor]
  rw [hsent]
  exact h.output.sendInLoop_of_open s.loop h.log message h₁ h₂

/-- The write end is closed while nothing is on its way and nothing is buffered. -/
theorem Open.shutdownInLoop (h : s.Open) (hstate : s.conn.state ≠ .kConnected)
    (hsettled : s.conn.channel.isWriting = false → s.Settled) :
    (s.runFunctor .shutdownInLoop r).Open ∨ (s.runFunctor .shutdownInLoop r).Closed := by
  simp only [runFunctor, TcpConnection.shutdownInLoop]
  split
  · exact .inl h
  · rename_i hwriting
    have hwriting := Bool.eq_false_iff.mpr hwriting
    have hempty : s.conn.outputBuffer.readable = [] := by
      by_contra hne
      have htrue := h.output.writing.mpr hne
      cases hwriting.symm.trans htrue
    refine .inr ⟨hstate, hwriting, ?_, ⟨s.conn.socketLog, [.shutdownWrite], ?_, h.log,
      fun e he => List.mem_singleton.mp he⟩, hsettled hwriting⟩
    · have hstream := h.output.stream
      rw [hempty, List.append_nil] at hstream
      rw [TcpConnection.accepted_emit]
      exact (List.append_nil _).trans hstream
    · exact TcpConnection.socketLog_emit s.loop

theorem Closed.shutdownInLoop (h : s.Closed) : (s.runFunctor .shutdownInLoop r).Closed := by
  obtain ⟨writes, closes, hlog, hwrites, hcloses⟩ := h.log
  have hopen : ¬s.conn.channel.isWriting = true := Bool.eq_false_iff.mp h.writing
  simp only [runFunctor, TcpConnection.shutdownInLoop, if_neg hopen]
  refine ⟨h.state, h.writing, ?_, ⟨writes, closes ++ [.shutdownWrite], ?_, hwrites,
    fun e he => ?_⟩, h.settled⟩
  · rw [TcpConnection.accepted_emit]
    exact (List.append_nil _).trans h.accepted
  · refine (TcpConnection.socketLog_emit s.loop).trans ?_
    rw [hlog, List.append_assoc]
    rfl
  · obtain he | he := List.mem_append.mp he
    · exact hcloses e he
    · exact List.mem_singleton.mp he

theorem Inv.shutdownInLoop (h : s.Open ∨ s.Closed) (hstate : s.conn.state ≠ .kConnected)
    (hsettled : s.conn.channel.isWriting = false → s.Settled) :
    (s.runFunctor .shutdownInLoop r).Open ∨ (s.runFunctor .shutdownInLoop r).Closed :=
  h.elim (fun h => h.shutdownInLoop hstate hsettled) fun h => .inr h.shutdownInLoop

/-! ### Steps -/

theorem Inv.setCalling_none (h : Inv s) : Inv (s.setCalling tid none) := by
  have hcalling : ∀ t c, (s.setCalling tid none).calling t = some c → s.calling t = some c := by
    intro t c hc
    obtain rfl | hne := eq_or_ne t tid
    · cases (Function.update_self ..).symm.trans hc
    · exact (Function.update_of_ne hne ..).symm.trans hc
  refine ⟨h.phase.imp (fun h => ⟨h.log, h.output⟩) fun h => ⟨h.state, h.writing, h.accepted, h.log,
    h.settled.1, fun t call message hc => h.settled.2 t call message (hcalling _ _ hc)⟩, h.early,
    fun t ht => h.stateSet t (hcalling _ _ ht), h.queued⟩

theorem Inv.sendReturns (h : Inv s) {call : Nat} {message : Bytes}
    (hcall : (call, message) ∈ s.executed ∨ .sendInLoop call message ∈ s.pendingFunctors) :
    Inv (s.sendReturns call message) := by
  rw [SharedConnection.sendReturns]
  split
  · exact h
  · refine ⟨h.phase.imp (fun h => ⟨h.log, h.output⟩) fun h => ⟨h.state, h.writing, h.accepted, h.log,
      h.settled⟩, fun c hc => ?_, h.stateSet, h.queued⟩
    obtain hc | hc := List.mem_append.mp hc
    · exact h.early c hc
    · rw [List.mem_singleton.mp hc]
      exact hcall

/-- A thread tests the state, and begins. -/
theorem Inv.setCalling (h : Inv s) (hstate : s.conn.state = .kConnected) {c : Calling}
    (hc : c ≠ .stateSet) : Inv (s.setCalling tid (some c)) := by
  refine ⟨.inl ?_, h.early, fun t ht => ?_, h.queued⟩
  · obtain hopen | hclosed := h.phase
    · exact ⟨hopen.log, hopen.output⟩
    · exact absurd hstate hclosed.state
  · obtain rfl | hne := eq_or_ne t tid
    · cases (Function.update_self ..).symm.trans ht
      exact absurd rfl hc
    · exact h.stateSet t ((Function.update_of_ne hne ..).symm.trans ht)

/-- The send runs at once on the loop's thread, and is queued on any other. -/
theorem Inv.runSend (h : Inv s) {call : Nat} {message : Bytes}
    (hcalling : s.calling tid = some (.sending call message)) (h₁ : r ≠ .error .EPIPE)
    (h₂ : r ≠ .error .ECONNRESET) :
    Inv (s.runInLoop tid (.sendInLoop call message) r) ∧
    ((call, message) ∈ (s.runInLoop tid (.sendInLoop call message) r).executed ∨
      .sendInLoop call message ∈ (s.runInLoop tid (.sendInLoop call message) r).pendingFunctors) := by
  have hopen : s.Open := h.phase.resolve_right fun hclosed => hclosed.not_sending hcalling
  rw [runInLoop]
  split
  · refine ⟨⟨.inl (hopen.sendInLoop h₁ h₂), fun c hc => ?_, fun t ht => ?_, fun hq => ?_⟩,
      .inl (List.mem_append_right _ (List.mem_singleton_self _))⟩
    · exact (h.early c hc).imp_left fun hc => List.mem_append_left _ hc
    · rw [runFunctor_state]
      exact h.stateSet t ht
    · rw [runFunctor_state]
      exact h.queued hq
  · refine ⟨⟨.inl ⟨hopen.log, hopen.output⟩, fun c hc => ?_, h.stateSet, fun hq => ?_⟩,
      .inr (List.mem_append_right _ (List.mem_singleton_self _))⟩
    · exact (h.early c hc).imp_right fun hc => List.mem_append_left _ hc
    · obtain hq | hq := List.mem_append.mp hq
      · exact h.queued hq
      · cases List.mem_singleton.mp hq

theorem Inv.runShutdown (h : Inv s) (hcalling : s.calling tid = some .stateSet)
    (hsettled : tid = s.loop → s.conn.channel.isWriting = false → s.Settled) :
    Inv (s.runInLoop tid .shutdownInLoop r) := by
  have hstate := h.stateSet tid hcalling
  rw [runInLoop]
  split
  · rename_i hloop
    refine ⟨Inv.shutdownInLoop h.phase hstate (hsettled hloop), h.early, fun t ht => ?_, fun hq => ?_⟩
    · rw [runFunctor_state]
      exact hstate
    · rw [runFunctor_state]
      exact hstate
  · refine ⟨h.phase.imp (fun h => ⟨h.log, h.output⟩) fun h => ⟨h.state, h.writing, h.accepted, h.log,
      fun f hf => ?_, h.settled.2⟩, fun c hc => ?_, h.stateSet, fun _ => hstate⟩
    · obtain hf | hf := List.mem_append.mp hf
      · exact h.settled.1 f hf
      · exact List.mem_singleton.mp hf
    · exact (h.early c hc).imp_right fun hc => List.mem_append_left _ hc

theorem Inv.setState (h : Inv s) : Inv ({ s with
    conn := s.conn.setState .kDisconnecting }.setCalling tid (some .stateSet)) := by
  refine ⟨h.phase.imp (fun h => ⟨h.log, ?_⟩) fun h => ⟨nofun, h.writing, h.accepted, h.log,
    h.settled.1, fun t call message hc => ?_⟩, h.early, fun _ _ => nofun, fun _ => nofun⟩
  · exact ⟨.inr rfl, h.output.stream, h.output.writing, .inl h.log⟩
  · obtain rfl | hne := eq_or_ne t tid
    · cases (Function.update_self ..).symm.trans hc
    · exact h.settled.2 t call message ((Function.update_of_ne hne ..).symm.trans hc)

theorem Inv.runFunctor {f : ConnectionFunctor} {fs : List ConnectionFunctor} (h : Inv s)
    (hpending : s.pendingFunctors = f :: fs) (h₁ : r ≠ .error .EPIPE) (h₂ : r ≠ .error .ECONNRESET)
    (hsettled : f = .shutdownInLoop → s.conn.channel.isWriting = false → s.Settled) :
    Inv ({ s with pendingFunctors := fs }.runFunctor f r) := by
  have hmem : f ∈ s.pendingFunctors := hpending ▸ List.mem_cons_self ..
  have hrest : ∀ g ∈ fs, g ∈ s.pendingFunctors := fun g hg => hpending ▸ List.mem_cons_of_mem _ hg
  refine ⟨?_, fun c hc => ?_, fun t ht => ?_, fun hq => ?_⟩
  · cases f with
    | sendInLoop call message =>
      have hopen : s.Open := h.phase.resolve_right fun hclosed => hclosed.not_queued hmem
      exact .inl (Open.sendInLoop (s := { s with pendingFunctors := fs }) ⟨hopen.log, hopen.output⟩
        h₁ h₂)
    | shutdownInLoop =>
      have hphase : { s with pendingFunctors := fs }.Open ∨
          { s with pendingFunctors := fs }.Closed :=
        h.phase.imp (fun h => ⟨h.log, h.output⟩) fun h => ⟨h.state, h.writing, h.accepted, h.log,
          fun g hg => h.settled.1 g (hrest g hg), h.settled.2⟩
      refine Inv.shutdownInLoop hphase (h.queued hmem) fun hwriting => ?_
      have hall := hsettled rfl hwriting
      exact ⟨fun g hg => hall.1 g (hrest g hg), hall.2⟩
  · cases f with
    | sendInLoop call message =>
      obtain hc | hc := h.early c hc
      · exact .inl (List.mem_append_left _ hc)
      · rw [hpending] at hc
        obtain hc | hc := List.mem_cons.mp hc
        · cases hc
          exact .inl (List.mem_append_right _ (List.mem_singleton_self _))
        · exact .inr hc
    | shutdownInLoop =>
      refine (h.early c hc).imp_right fun hc => ?_
      rw [hpending] at hc
      obtain hc | hc := List.mem_cons.mp hc
      · cases hc
      · exact hc
  · rw [runFunctor_state]
    rw [runFunctor_calling] at ht
    exact h.stateSet t ht
  · rw [runFunctor_state]
    rw [runFunctor_pendingFunctors] at hq
    exact h.queued (hrest _ hq)

theorem Inv.handleWrite (h : Inv s) (hcloses : s.ClosesSettled (.handleWrite r)) :
    Inv { s with conn := s.conn.handleWrite s.loop r } := by
  refine ⟨?_, h.early, fun t ht => ?_, fun hq => ?_⟩
  · obtain hopen | hclosed := h.phase
    · have houtput := hopen.output.handleWrite s.loop r
      by_cases hmore : ∀ n, r = .room n → s.conn.state = .kDisconnecting →
          s.conn.channel.isWriting = true → n < s.conn.outputBuffer.readableBytes
      · exact .inl ⟨TcpConnection.handleWrite_open hopen.log hmore, houtput⟩
      · -- the buffer may run empty
        simp only [not_forall, not_lt] at hmore
        obtain ⟨n, rfl, hstate, hwriting, hle⟩ := hmore
        have hsettled := hcloses hstate hwriting hle
        obtain hlog | ⟨hstate', hwriting', writes, hwrites, hlog⟩ := houtput.closed
        · exact .inl ⟨hlog, houtput⟩
        · have hempty := Decidable.not_not.mp (mt houtput.writing.mpr hwriting')
          have hstream := houtput.stream
          rw [hempty, List.append_nil] at hstream
          have hne : (s.conn.handleWrite s.loop (.room n)).state ≠ .kConnected := by
            rw [hstate']
            nofun
          exact .inr ⟨hne, Bool.eq_false_iff.mpr hwriting', hstream,
            ⟨writes, [.shutdownWrite], hlog, hwrites, fun e he => List.mem_singleton.mp he⟩, hsettled⟩
    · have hsame : s.conn.handleWrite s.loop r = s.conn :=
        if_neg (Bool.eq_false_iff.mp hclosed.writing)
      rw [hsame]
      exact .inr hclosed
  · exact fun heq => h.stateSet t ht (TcpConnection.handleWrite_state.symm.trans heq)
  · exact fun heq => h.queued hq (TcpConnection.handleWrite_state.symm.trans heq)

theorem Inv.handleClose (h : Inv s) (hempty : s.conn.outputBuffer.readableBytes = 0)
    (hsettled : s.Settled) : Inv { s with conn := s.conn.handleClose s.loop } := by
  refine ⟨.inr ⟨nofun, TcpConnection.handleClose_writing, ?_, ?_, hsettled⟩, h.early, fun _ _ => nofun, fun _ => nofun⟩
  · refine TcpConnection.handleClose_accepted.trans ?_
    obtain hopen | hclosed := h.phase
    · have hstream := hopen.output.stream
      rwa [Buffer.readable_eq_nil.mpr hempty, List.append_nil] at hstream
    · exact hclosed.accepted
  · change ∃ writes closes, (s.conn.handleClose s.loop).socketLog = writes ++ closes ∧ _
    rw [TcpConnection.handleClose_socketLog]
    obtain hopen | hclosed := h.phase
    · exact ⟨_, [], (List.append_nil _).symm, hopen.log, fun _ he => absurd he List.not_mem_nil⟩
    · exact hclosed.log

theorem Inv.step (h : Inv s) (hreset : i.NoReset) (hcloses : s.ClosesSettled i)
    (hs : s.step i = some s') : Inv s' := by
  have hanswer : ∀ r, i.answer = some r → r ≠ .error .EPIPE ∧ r ≠ .error .ECONNRESET := by
    rintro r hr
    refine ⟨?_, ?_⟩ <;> rintro rfl
    · exact hreset.1 hr
    · exact hreset.2 hr
  cases i with
  | send tid message =>
    simp only [SharedConnection.step, Option.ite_none_left_eq_some] at hs
    obtain ⟨-, hs⟩ := hs
    split at hs <;> cases hs
    · have hsends : Inv { s with sends := s.sends + 1 } :=
        ⟨h.phase.imp (fun h => ⟨h.log, h.output⟩) fun h => ⟨h.state, h.writing, h.accepted, h.log,
          h.settled⟩, h.early, h.stateSet, h.queued⟩
      exact hsends.setCalling ‹_› nofun
    · exact h
  | shutdown tid =>
    simp only [SharedConnection.step, Option.ite_none_left_eq_some] at hs
    obtain ⟨-, hs⟩ := hs
    have hcalled : Inv { s with shutdownCalled := true } :=
      ⟨h.phase.imp (fun h => ⟨h.log, h.output⟩) fun h => ⟨h.state, h.writing, h.accepted, h.log,
        h.settled⟩, h.early, h.stateSet, h.queued⟩
    cases hs
    split
    · exact hcalled.setCalling ‹_› nofun
    · exact hcalled
  | «continue» tid r =>
    obtain ⟨h₁, h₂⟩ := hanswer r rfl
    simp only [SharedConnection.step] at hs
    split at hs
    · cases hs
    · rename_i hcalling
      cases hs
      obtain ⟨hinv, hmem⟩ := h.runSend hcalling h₁ h₂
      exact (hinv.sendReturns hmem).setCalling_none
    · cases hs
      exact h.setState
    · rename_i hcalling
      cases hs
      exact (h.runShutdown hcalling fun hloop => hcloses hloop hcalling).setCalling_none
  | runFunctor r =>
    obtain ⟨h₁, h₂⟩ := hanswer r rfl
    simp only [SharedConnection.step] at hs
    split at hs
    · rename_i f fs _ hpending
      cases hs
      refine h.runFunctor hpending h₁ h₂ fun hf => hcloses ?_
      rw [hpending, hf]
      rfl
    · cases hs
  | handleWrite r =>
    simp only [SharedConnection.step, Option.ite_none_right_eq_some] at hs
    obtain ⟨-, hs⟩ := hs
    cases hs
    exact h.handleWrite hcloses
  | handleClose =>
    simp only [SharedConnection.step, Option.ite_none_right_eq_some] at hs
    obtain ⟨-, hs⟩ := hs
    cases hs
    exact h.handleClose hcloses.1 hcloses.2

theorem inv_new (creator loop : LoopId) : Inv (new (.established creator loop)) := by
  have houtput := TcpConnection.outputInv_established creator loop
  have hstate : (TcpConnection.established creator loop).state = .kConnected := rfl
  exact ⟨.inl ⟨houtput.open_of_connected hstate, houtput⟩, fun _ hc => absurd hc List.not_mem_nil,
    fun _ ht => (Option.some_ne_none _ ht.symm).elim, fun hq => absurd hq List.not_mem_nil⟩

/-- **When the sends before a `shutdown()` are written.** In every run without a reset whose steps
meet the condition: once the write end is closed, every call of `send` that found `kConnected` and
returned before any call of `shutdown` has run, the socket has taken the bytes of all calls that have
run, and the calls on the socket are writes followed by nothing but `shutdownWrite`. -/
theorem early_sends_written (creator loop : LoopId) (is : List Input) (s : SharedConnection)
    (h : Run.run step (new (.established creator loop)) is = some s)
    (hreset : ∀ i ∈ is, i.NoReset)
    (hcloses : Run.Along step ClosesSettled (new (.established creator loop)) is) :
    (.shutdownWrite ∈ s.conn.socketLog →
      (∀ call ∈ s.early, call ∈ s.executed) ∧ s.conn.accepted = s.executed.flatMap Prod.snd) ∧
    ∃ writes closes : List Event, s.conn.socketLog = writes ++ closes ∧
      .shutdownWrite ∉ writes ∧ ∀ e ∈ closes, e = .shutdownWrite := by
  have hinv : Inv s := Run.run_invariant (fun _ _ _ hI hG hs => hI.step hG.1 hG.2 hs)
    (inv_new creator loop) ((Run.along_of_forall hreset).and hcloses) h
  obtain hopen | hclosed := hinv.phase
  · exact ⟨fun hmem => absurd hmem hopen.log, s.conn.socketLog, [], (List.append_nil _).symm,
      hopen.log, fun _ he => absurd he List.not_mem_nil⟩
  · refine ⟨fun _ => ⟨fun call hcall => ?_, hclosed.accepted⟩, hclosed.log⟩
    exact (hinv.early call hcall).resolve_right hclosed.not_queued

/-- Another thread's send runs before the loop's own `shutdown`. -/
theorem early_sends_written_run : ∃ s, Run.run step (new (.established baseLoop 1))
      [.send 7 (ascii "hi"), .continue 7 (.room 0), .runFunctor (.room 2), .shutdown 1,
        .continue 1 (.room 0), .continue 1 (.room 0)] = some s ∧
    (.shutdownWrite ∈ s.conn.socketLog →
      (∀ call ∈ s.early, call ∈ s.executed) ∧ s.conn.accepted = s.executed.flatMap Prod.snd) ∧
    ∃ writes closes : List Event, s.conn.socketLog = writes ++ closes ∧
      .shutdownWrite ∉ writes ∧ ∀ e ∈ closes, e = .shutdownWrite := by
  refine ⟨_, rfl, early_sends_written baseLoop 1 [.send 7 (ascii "hi"), .continue 7 (.room 0),
    .runFunctor (.room 2), .shutdown 1, .continue 1 (.room 0), .continue 1 (.room 0)] _ rfl
    (by decide) ?_⟩
  refine ⟨trivial, fun s₁ h₁ => ⟨?_, fun s₂ h₂ => ⟨?_, fun s₃ h₃ => ⟨trivial, fun s₄ h₄ =>
    ⟨?_, fun s₅ h₅ => ⟨?_, fun _ _ => trivial⟩⟩⟩⟩⟩⟩ <;> cases h₁
  · exact nofun
  · cases h₂
    exact nofun
  · cases h₂
    cases h₃
    cases h₄
    rintro - ⟨⟩
  · cases h₂
    cases h₃
    cases h₄
    cases h₅
    refine fun _ _ _ => ⟨fun _ hf => absurd hf List.not_mem_nil, fun t call message ht => ?_⟩
    have hcalling : ∀ a b : Option Calling, Function.update (Function.update (Function.update
        (Function.update (fun _ => none) 7 a) 7 none) 1 b) 1 (some .stateSet) t ≠
          some (.sending call message) := by
      intro a b
      by_cases h₁ : t = 1
      · simp [h₁]
      · by_cases h₇ : t = 7 <;> simp [h₁, h₇]
    exact hcalling _ _ ht

/-- Another thread's send waits in the queue while the loop's own `shutdown` closes the write end: it is
written behind that. -/
theorem not_early_sends_written : ∃ s, Run.run step (new (.established baseLoop 1))
      [.send 7 (ascii "hi"), .continue 7 (.room 0), .shutdown 1, .continue 1 (.room 0),
        .continue 1 (.room 0), .runFunctor (.room 2)] = some s ∧
    s.early = [(0, ascii "hi")] ∧
    s.conn.socketLog = [.shutdownWrite, .write (ascii "hi")] := by
  refine ⟨_, rfl, rfl, ?_⟩
  decide +kernel

end SharedConnection

end MuduoX
