import Mathlib
import MuduoX.Net.TcpConnection
import MuduoX.Theory.Run

/-! `TcpServer` (`src/TcpServer.cpp`) with all its connections, over the base loop and the loops of
the thread pool (`src/EventLoop.cpp`, `src/EventLoopThreadPool.cpp`, `src/Acceptor.cpp`).

A step is what one thread does without giving way: it polls, runs the next handler of the events
it has polled, runs the next functor of its queue, accepts a connection, or runs one piece of user
code. The steps of different loops come in any order. The server is made, started and destroyed on
the base loop's thread.

Connections are numbered in the order in which they are accepted, which is what their names say.
A connection is never freed here: the destruction of the object behind the last `shared_ptr` has
no effect on its poller. -/

namespace MuduoX

/-! ### Events -/

/-- What `Channel::handleEventWithGuard` calls. The error callback only writes to the log. -/
inductive Handler where
  | close | read | write
  deriving DecidableEq, Repr

/-- The handlers that an event calls, in their order. -/
def Revents.handlers (re : Revents) : List Handler :=
  (if re.hup ∧ ¬re.inp then [.close] else []) ++ (if re.inp ∨ re.pri then [.read] else []) ++
    if re.out then [.write] else []

def TcpConnection.handle (tid : LoopId) (a : Answers) (c : TcpConnection) : Handler → TcpConnection
  | .close => c.handleClose tid
  | .read => c.handleRead tid a.read a.calls
  | .write => c.handleWrite tid a.write

theorem TcpConnection.handleEvent_eq_foldl (tid : LoopId) (re : Revents) (a : Answers)
    (c : TcpConnection) :
    c.handleEvent tid re a = re.handlers.foldl (TcpConnection.handle tid a) c := by
  unfold handleEvent Revents.handlers
  rw [List.foldl_append, List.foldl_append]
  split <;> split <;> split <;> rfl

/-- The handler runs `handleClose`, and so the close callback. -/
def Handler.closes (a : TcpConnection.Answers) : Handler → Bool
  | .close => true
  | .read => a.read = .eof
  | .write => false

/-! ### Loops -/

/-- What is waiting in the queue of a loop, with the number of the connection it is bound to. -/
inductive Functor where
  | connectEstablished (id : Nat)
  | connectDestroyed (id : Nat)
  | removeConnectionInLoop (id : Nat)
  | sendInLoop (id : Nat) (message : Bytes)
  | shutdownInLoop (id : Nat)
  deriving DecidableEq

structure EventLoop where
  /-- The handlers of the polled events that have not run yet. -/
  activeChannels : List (Nat × Handler)
  pendingFunctors : List Functor

/-- The destructor goes through `connections_`; `gone` is behind its end. -/
inductive Life where
  | running
  | destructing (rest : List Nat)
  | gone
  deriving DecidableEq

structure TcpServer where
  started : Bool
  /-- `loops_` and `next_` of the thread pool. -/
  loops : List LoopId
  next : Nat
  /-- Every connection ever made. -/
  conns : List TcpConnection
  /-- `connections_` -/
  connections : List Nat
  eventLoop : LoopId → EventLoop
  life : Life
  /-- A callback has used the server after its end: what follows is undefined. -/
  dangling : Bool
  /-- The calls of a poller for the channels that are no connection's: the thread, and the loop
  that the poller belongs to. -/
  poller : List (LoopId × LoopId)

namespace TcpServer

/-- `n` calls that a loop's own channels make on the thread of the loop. -/
def ownCalls (loop : LoopId) (n : Nat) : List (LoopId × LoopId) := List.replicate n (loop, loop)

/-- The base loop has its wakeup, timer and ring channels, each with a callback set and reading
enabled; the acceptor has its callback set. -/
def new : TcpServer where
  started := false
  loops := []
  next := 0
  conns := []
  connections := []
  eventLoop _ := ⟨[], []⟩
  life := .running
  dangling := false
  poller := ownCalls baseLoop 7

def modify (id : Nat) (f : TcpConnection → TcpConnection) (s : TcpServer) : TcpServer :=
  { s with conns := s.conns.modify id f }

def setLoop (loop : LoopId) (el : EventLoop) (s : TcpServer) : TcpServer :=
  { s with eventLoop := Function.update s.eventLoop loop el }

/-- `loop->queueInLoop(f)` -/
def queueInLoop (loop : LoopId) (f : Functor) (s : TcpServer) : TcpServer :=
  s.setLoop loop { s.eventLoop loop with
    pendingFunctors := (s.eventLoop loop).pendingFunctors ++ [f] }

@[simp] theorem setLoop_same (loop : LoopId) (el : EventLoop) (s : TcpServer) :
    (s.setLoop loop el).eventLoop loop = el :=
  Function.update_self ..

@[simp] theorem setLoop_other {l loop : LoopId} (h : l ≠ loop) (el : EventLoop) (s : TcpServer) :
    (s.setLoop loop el).eventLoop l = s.eventLoop l :=
  Function.update_of_ne h ..

@[simp] theorem setLoop_conns (loop : LoopId) (el : EventLoop) (s : TcpServer) :
    (s.setLoop loop el).conns = s.conns := rfl

@[simp] theorem queueInLoop_same (loop : LoopId) (f : Functor) (s : TcpServer) :
    ((s.queueInLoop loop f).eventLoop loop).pendingFunctors =
      (s.eventLoop loop).pendingFunctors ++ [f] := by
  rw [queueInLoop, setLoop_same]

@[simp] theorem queueInLoop_conns (loop : LoopId) (f : Functor) (s : TcpServer) :
    (s.queueInLoop loop f).conns = s.conns := rfl

@[simp] theorem modify_eventLoop (id : Nat) (f : TcpConnection → TcpConnection) (s : TcpServer) :
    (s.modify id f).eventLoop = s.eventLoop := rfl

/-- `conn->getLoop()` -/
def loopOf (s : TcpServer) (id : Nat) : LoopId :=
  match s.conns[id]? with
  | some c => c.channel.loop
  | none => baseLoop

/-- The threads of the pool make their loops, and the acceptor starts to listen. -/
def start (numThreads : Nat) (s : TcpServer) : TcpServer :=
  if s.started then s else
  let loops := (List.range numThreads).map (· + 1)
  { s with
    started := true
    loops
    poller := s.poller ++ loops.flatMap (ownCalls · 6) ++ ownCalls baseLoop 1 }

/-- `getNextLoop`: the base loop when there are no others. -/
def getNextLoop (s : TcpServer) : LoopId := s.loops.getD (s.next % s.loops.length) baseLoop

/-- `newConnection` on the base loop's thread, with what the connection callback calls. -/
def newConnection (calls : List TcpConnection.Call) (s : TcpServer) : TcpServer :=
  let ioLoop := s.getNextLoop
  let id := s.conns.length
  let s := { s with
    next := if s.loops = [] then s.next else s.next + 1
    conns := s.conns ++ [TcpConnection.new baseLoop ioLoop]
    connections := s.connections ++ [id] }
  if ioLoop = baseLoop then s.modify id (·.connectEstablished baseLoop calls)
  else s.queueInLoop ioLoop (.connectEstablished id)

def removeConnectionInLoop (id : Nat) (s : TcpServer) : TcpServer :=
  if s.life = .gone then { s with dangling := true } else
  { s with connections := s.connections.erase id }.queueInLoop (s.loopOf id) (.connectDestroyed id)

/-- The close callback of a connection, on the thread `tid`. -/
def removeConnection (tid : LoopId) (id : Nat) (s : TcpServer) : TcpServer :=
  if s.life = .gone then { s with dangling := true }
  else if tid = baseLoop then s.removeConnectionInLoop id
  else s.queueInLoop baseLoop (.removeConnectionInLoop id)

/-- A functor, on the thread `tid`; `calls` and `r` are what it meets outside. -/
def runFunctor (tid : LoopId) (calls : List TcpConnection.Call) (r : WriteResult) (s : TcpServer) :
    Functor → TcpServer
  | .connectEstablished id => s.modify id (·.connectEstablished tid calls)
  | .connectDestroyed id => s.modify id (·.connectDestroyed tid)
  | .removeConnectionInLoop id => s.removeConnectionInLoop id
  | .sendInLoop id message => s.modify id (·.sendInLoop tid message r)
  | .shutdownInLoop id => s.modify id (·.shutdownInLoop tid)

/-- One handler, on the thread `tid`. -/
def runHandler (tid : LoopId) (a : TcpConnection.Answers) (id : Nat) (h : Handler)
    (s : TcpServer) : TcpServer :=
  let s := s.modify id (·.handle tid a h)
  if h.closes a then s.removeConnection tid id else s

/-- One turn of the loop in `~TcpServer`, which runs on the base loop's thread. -/
def destroyConnection (id : Nat) (s : TcpServer) : TcpServer :=
  if s.loopOf id = baseLoop then s.modify id (·.connectDestroyed baseLoop)
  else s.queueInLoop (s.loopOf id) (.connectDestroyed id)

/-! ### Steps -/

inductive Input where
  /-- `setThreadNum(numThreads)` and `start()`. -/
  | start (numThreads : Nat)
  /-- The acceptor's channel reports a connection. -/
  | newConnection (calls : List TcpConnection.Call)
  /-- The poller of a loop reports events. -/
  | poll (loop : LoopId) (reports : List (Nat × Revents))
  /-- The loop runs the next handler of the events it has polled. -/
  | handle (loop : LoopId) (a : TcpConnection.Answers)
  /-- The loop runs the next functor of its queue. -/
  | runFunctor (loop : LoopId) (calls : List TcpConnection.Call) (r : WriteResult)
  /-- User code calls a connection on the thread of the connection's loop. -/
  | call (id : Nat) (call : TcpConnection.Call)
  /-- Another thread, which has found the connection connected, goes on in `send`. -/
  | send (id : Nat) (message : Bytes)
  /-- Another thread, which has found the connection connected, goes on in `shutdown`. -/
  | shutdown (id : Nat)
  /-- The destructor begins, goes on to a connection, and ends. -/
  | destroy
  | destroyConnection (id : Nat)
  | destroyed

def step (s : TcpServer) (i : Input) : Option TcpServer :=
  if s.dangling then none else
  match i with
  | .start numThreads => some (s.start numThreads)
  | .newConnection calls =>
    if s.started ∧ s.life = .running then some (s.newConnection calls) else none
  | .poll loop reports =>
    if (s.eventLoop loop).activeChannels = [] ∧
        ∀ x ∈ reports, x.1 < s.conns.length ∧ s.loopOf x.1 = loop then
      some (s.setLoop loop { s.eventLoop loop with
        activeChannels := reports.flatMap fun x => x.2.handlers.map (x.1, ·) })
    else none
  | .handle loop a =>
    match (s.eventLoop loop).activeChannels with
    | [] => none
    | (id, h) :: rest =>
      some ((s.setLoop loop { s.eventLoop loop with
        activeChannels := rest }).runHandler loop a id h)
  | .runFunctor loop calls r =>
    if (s.eventLoop loop).activeChannels ≠ [] then none else
    match (s.eventLoop loop).pendingFunctors with
    | [] => none
    | f :: rest =>
      some ((s.setLoop loop { s.eventLoop loop with
        pendingFunctors := rest }).runFunctor loop calls r f)
  | .call id call => some (s.modify id fun c => call.apply c.channel.loop c)
  | .send id message =>
    match s.conns[id]? with
    | none => none
    | some c =>
      if c.state = .kConnecting then none
      else some (s.queueInLoop c.channel.loop (.sendInLoop id message))
  | .shutdown id =>
    match s.conns[id]? with
    | none => none
    | some c =>
      if c.state = .kConnecting then none
      else some ((s.modify id (·.setState .kDisconnecting)).queueInLoop c.channel.loop
        (.shutdownInLoop id))
  | .destroy =>
    if s.life = .running then some { s with life := .destructing s.connections } else none
  | .destroyConnection id =>
    match s.life with
    | .destructing rest =>
      if id ∈ rest then some ({ s with life := .destructing (rest.erase id) }.destroyConnection id)
      else none
    | _ => none
  | .destroyed =>
    -- the acceptor's channel and those of the pool's loops leave their pollers
    if s.life = .destructing [] then some { s with
      life := .gone
      poller := s.poller ++ ownCalls baseLoop 2 ++ s.loops.flatMap (ownCalls · 6) } else none

/-- What a step has found and what it leads to, input by input. -/
inductive Took (s : TcpServer) : Input → TcpServer → Prop
  | start (numThreads : Nat) : Took s (.start numThreads) (s.start numThreads)
  | newConnection (calls : List TcpConnection.Call) : s.started → s.life = .running →
    Took s (.newConnection calls) (s.newConnection calls)
  | poll {loop : LoopId} {reports : List (Nat × Revents)} :
    (∀ x ∈ reports, x.1 < s.conns.length ∧ s.loopOf x.1 = loop) →
    Took s (.poll loop reports) (s.setLoop loop
      ⟨reports.flatMap fun x => x.2.handlers.map (x.1, ·), (s.eventLoop loop).pendingFunctors⟩)
  | handle {loop : LoopId} {a : TcpConnection.Answers} {id : Nat} {handler : Handler}
    {rest : List (Nat × Handler)} :
    (s.eventLoop loop).activeChannels = (id, handler) :: rest →
    Took s (.handle loop a)
      ((s.setLoop loop ⟨rest, (s.eventLoop loop).pendingFunctors⟩).runHandler loop a id handler)
  | runFunctor {loop : LoopId} {calls : List TcpConnection.Call} {r : WriteResult} {f : Functor}
    {rest : List Functor} :
    (s.eventLoop loop).pendingFunctors = f :: rest →
    Took s (.runFunctor loop calls r)
      ((s.setLoop loop ⟨(s.eventLoop loop).activeChannels, rest⟩).runFunctor loop calls r f)
  | call (id : Nat) (call : TcpConnection.Call) :
    Took s (.call id call) (s.modify id fun c => call.apply c.channel.loop c)
  | send {id : Nat} {c : TcpConnection} (message : Bytes) :
    s.conns[id]? = some c → c.state ≠ .kConnecting →
    Took s (.send id message) (s.queueInLoop c.channel.loop (.sendInLoop id message))
  | shutdown {id : Nat} {c : TcpConnection} : s.conns[id]? = some c → c.state ≠ .kConnecting →
    Took s (.shutdown id) ((s.modify id (·.setState .kDisconnecting)).queueInLoop c.channel.loop
      (.shutdownInLoop id))
  | destroy : Took s .destroy { s with life := .destructing s.connections }
  | destroyConnection {rest : List Nat} {id : Nat} : s.life = .destructing rest → id ∈ rest →
    Took s (.destroyConnection id)
      ({ s with life := .destructing (rest.erase id) }.destroyConnection id)
  | destroyed : s.life = .destructing [] →
    Took s .destroyed { s with
      life := .gone
      poller := s.poller ++ ownCalls baseLoop 2 ++ s.loops.flatMap (ownCalls · 6) }

theorem took_of_step {s s' : TcpServer} {i : Input} (h : s.step i = some s') : Took s i s' := by
  unfold step at h
  split at h
  · cases h
  · cases i with
    | start numThreads => cases h; exact .start numThreads
    | newConnection calls =>
      simp only [Option.ite_none_right_eq_some] at h
      obtain ⟨⟨hstarted, hlife⟩, h⟩ := h
      cases h
      exact .newConnection calls hstarted hlife
    | poll loop reports =>
      simp only [Option.ite_none_right_eq_some] at h
      obtain ⟨⟨-, hreports⟩, h⟩ := h
      cases h
      exact .poll hreports
    | handle loop a =>
      match hactive : (s.eventLoop loop).activeChannels with
      | [] => simp [hactive] at h
      | (id, handler) :: rest =>
        simp only [hactive, Option.some.injEq] at h
        exact h ▸ .handle hactive
    | runFunctor loop calls r =>
      simp only [Option.ite_none_left_eq_some] at h
      obtain ⟨-, h⟩ := h
      match hpending : (s.eventLoop loop).pendingFunctors with
      | [] => simp [hpending] at h
      | f :: rest =>
        simp only [hpending, Option.some.injEq] at h
        exact h ▸ .runFunctor hpending
    | call id call => cases h; exact .call id call
    | send id message =>
      match hc : s.conns[id]? with
      | none => simp [hc] at h
      | some c =>
        simp only [hc, Option.ite_none_left_eq_some] at h
        obtain ⟨hstate, h⟩ := h
        cases h
        exact .send message hc hstate
    | shutdown id =>
      match hc : s.conns[id]? with
      | none => simp [hc] at h
      | some c =>
        simp only [hc, Option.ite_none_left_eq_some] at h
        obtain ⟨hstate, h⟩ := h
        cases h
        exact .shutdown hc hstate
    | destroy =>
      simp only [Option.ite_none_right_eq_some] at h
      obtain ⟨-, h⟩ := h
      cases h
      exact .destroy
    | destroyConnection id =>
      match hlife : s.life with
      | .running | .gone => simp [hlife] at h
      | .destructing rest =>
        simp only [hlife, Option.ite_none_right_eq_some] at h
        obtain ⟨hid, h⟩ := h
        cases h
        exact .destroyConnection hlife hid
    | destroyed =>
      simp only [Option.ite_none_right_eq_some] at h
      obtain ⟨hlife, h⟩ := h
      cases h
      exact .destroyed hlife

end TcpServer

end MuduoX
