import MuduoX.Buffer
import MuduoX.Net.Channel

/-! `TcpConnection` (`include/TcpConnection.h`, `src/TcpConnection.cpp`).

A method takes the thread that executes it, which is what `CurrentThread::tid()` says in the
source. Everything a connection does to the outside (system calls on its socket, user callbacks,
calls of its poller) is appended to `log` together with that thread. The answers of the outside
(`readv`, `::write`, what a user callback calls) are arguments.

Bytes that a read brings in are handed to the message callback and left out here: what the
callback makes of them is the subject of `HttpServer`. The write-complete and high-water-mark
callbacks are user code that the source queues and `HttpServer` never sets; they are left out.
`sendFileInLoop` is in `SendFile`. -/

namespace MuduoX

inductive StateE where
  | kDisconnected | kConnecting | kConnected | kDisconnecting
  deriving DecidableEq, Repr

inductive Errno where
  | EWOULDBLOCK | EPIPE | ECONNRESET
  | other (code : Nat)
  deriving DecidableEq, Repr

/-- How the socket answers a `::write`: it has room for so many bytes, of which the call takes as
many as it brings, or the call fails. -/
inductive WriteResult where
  | room (n : Nat)
  | error (e : Errno)
  deriving DecidableEq, Repr

/-- How the socket answers `readFd`: at least one byte, the end of the stream, or an error. -/
inductive ReadResult where
  | data (first : Byte) (rest : Bytes)
  | eof
  | error
  deriving DecidableEq, Repr

/-- What a connection does to the outside. -/
inductive Event where
  /-- A `::write`, with the bytes that the socket took. -/
  | write (accepted : Bytes)
  | shutdownWrite
  /-- `connectionCallback_`, with `connected()` as the callback sees it. -/
  | connectionCallback (connected : Bool)
  | messageCallback (received : Bytes)
  | closeCallback
  | updateChannel (op : EpollCtl)
  | removeChannel (op : Option EpollCtl)
  deriving DecidableEq

structure TcpConnection where
  state : StateE
  channel : Channel
  outputBuffer : Buffer
  log : List (LoopId × Event)
  deriving DecidableEq

namespace TcpConnection

variable (tid : LoopId)

def connected (c : TcpConnection) : Bool := c.state = .kConnected

def emit (e : Event) (c : TcpConnection) : TcpConnection := { c with log := c.log ++ [(tid, e)] }

def setState (s : StateE) (c : TcpConnection) : TcpConnection := { c with state := s }

/-! ### The channel of a connection -/

/-- `channel_->update()`. -/
def update (c : TcpConnection) : TcpConnection :=
  emit tid (.updateChannel (EPollPoller.updateChannel c.channel).2)
    { c with channel := (EPollPoller.updateChannel c.channel).1 }

def enableReading (c : TcpConnection) : TcpConnection :=
  update tid { c with channel := { c.channel with reading := true } }

def enableWriting (c : TcpConnection) : TcpConnection :=
  update tid { c with channel := { c.channel with writing := true } }

def disableWriting (c : TcpConnection) : TcpConnection :=
  update tid { c with channel := { c.channel with writing := false } }

def disableAll (c : TcpConnection) : TcpConnection :=
  update tid { c with channel := { c.channel with reading := false, writing := false } }

/-- `channel_->remove()`. -/
def remove (c : TcpConnection) : TcpConnection :=
  emit tid (.removeChannel (EPollPoller.removeChannel c.channel).2)
    { c with channel := (EPollPoller.removeChannel c.channel).1 }

/-- `TcpConnection(loop, ...)`: each of the four `set*Callback` calls updates the channel. -/
def new (loop : LoopId) : TcpConnection :=
  let c : TcpConnection := ⟨.kConnecting, .new loop, .new kInitialSize, []⟩
  update tid (update tid (update tid (update tid c)))

section
variable {tid : LoopId} {c : TcpConnection} {e : Event}

@[simp] theorem emit_state : (emit tid e c).state = c.state := rfl
@[simp] theorem emit_channel : (emit tid e c).channel = c.channel := rfl
@[simp] theorem emit_outputBuffer : (emit tid e c).outputBuffer = c.outputBuffer := rfl

@[simp] theorem update_state : (update tid c).state = c.state := rfl
@[simp] theorem update_outputBuffer : (update tid c).outputBuffer = c.outputBuffer := rfl

@[simp] theorem update_writing : (update tid c).channel.writing = c.channel.writing := by
  simp [update]

end

/-! ### Output -/

/-- What `sendInLoop` does with the bytes that the socket has not taken. -/
def buffer (rest : Bytes) (c : TcpConnection) : TcpConnection :=
  if rest = [] then c else
  let c := { c with outputBuffer := c.outputBuffer.append rest }
  if c.channel.isWriting then c else enableWriting tid c

def sendInLoop (message : Bytes) (r : WriteResult) (c : TcpConnection) : TcpConnection :=
  if c.state = .kDisconnected then c
  else if ¬c.channel.isWriting ∧ c.outputBuffer.readableBytes = 0 then
    match r with
    | .room n => buffer tid (message.drop n) (emit tid (.write (message.take n)) c)
    | .error e =>
      if e = .EPIPE ∨ e = .ECONNRESET then emit tid (.write []) c
      else buffer tid message (emit tid (.write []) c)
  else buffer tid message c

/-- `send(const std::string&)` on the loop's own thread. -/
def send (message : Bytes) (r : WriteResult) (c : TcpConnection) : TcpConnection :=
  if c.state = .kConnected then sendInLoop tid message r c else c

/-- `send(Buffer*)` on the loop's own thread: the connection and the buffer afterwards. -/
def sendBuffer (buf : Buffer) (r : WriteResult) (c : TcpConnection) : TcpConnection × Buffer :=
  if c.state = .kConnected then (sendInLoop tid buf.readable r c, buf.retrieveAll) else (c, buf)

def shutdownInLoop (c : TcpConnection) : TcpConnection :=
  if c.channel.isWriting then c else emit tid .shutdownWrite c

/-- `shutdown()` on the loop's own thread. -/
def shutdown (c : TcpConnection) : TcpConnection :=
  if c.state = .kConnected then shutdownInLoop tid (setState .kDisconnecting c) else c

def handleWrite (r : WriteResult) (c : TcpConnection) : TcpConnection :=
  if c.channel.isWriting then
    match r with
    | .room n =>
      let accepted := c.outputBuffer.readable.take n
      let c := emit tid (.write accepted) c
      if accepted = [] then c else
      let c := { c with outputBuffer := c.outputBuffer.retrieve accepted.length }
      let c := if c.outputBuffer.readableBytes = 0 then disableWriting tid c else c
      if c.state = .kDisconnecting then shutdownInLoop tid c else c
    | .error _ => emit tid (.write []) c
  else c

/-! ### Connection and input -/

/-- What user code on the loop's own thread can call. -/
inductive Call where
  | send (message : Bytes) (r : WriteResult)
  | sendBuffer (buf : Buffer) (r : WriteResult)
  | shutdown
  deriving DecidableEq

def Call.apply (c : TcpConnection) : Call → TcpConnection
  | .send message r => c.send tid message r
  | .sendBuffer buf r => (c.sendBuffer tid buf r).1
  | .shutdown => c.shutdown tid

/-- `connectEstablished`, with what the connection callback calls. -/
def connectEstablished (calls : List Call) (c : TcpConnection) : TcpConnection :=
  let c := enableReading tid (setState .kConnected c)
  calls.foldl (Call.apply tid) (emit tid (.connectionCallback c.connected) c)

/-- A connection of `loop` that the thread `creator` has made and that has been established. -/
def established (creator loop : LoopId) : TcpConnection :=
  (new creator loop).connectEstablished loop []

/-- `connectDestroyed`. In the state the callback finds, nothing it calls has an effect. -/
def connectDestroyed (c : TcpConnection) : TcpConnection :=
  remove tid <|
    if c.state = .kConnected then
      let c := disableAll tid (setState .kDisconnected c)
      emit tid (.connectionCallback c.connected) c
    else c

def handleClose (c : TcpConnection) : TcpConnection :=
  let c := disableAll tid (setState .kDisconnected c)
  emit tid .closeCallback (emit tid (.connectionCallback c.connected) c)

/-- `handleRead`, with what the message callback calls. `handleError` only writes to the log. -/
def handleRead (r : ReadResult) (calls : List Call) (c : TcpConnection) : TcpConnection :=
  match r with
  | .data first rest =>
    calls.foldl (Call.apply tid) (emit tid (.messageCallback (first :: rest)) c)
  | .eof => handleClose tid c
  | .error => c

/-- The answers that the handlers of one event get. -/
structure Answers where
  read : ReadResult
  calls : List Call
  write : WriteResult
  deriving DecidableEq

/-- `Channel::handleEventWithGuard`: the handlers run one after the other, in this order. -/
def handleEvent (re : Revents) (a : Answers) (c : TcpConnection) : TcpConnection :=
  let c := if re.hup ∧ ¬re.inp then handleClose tid c else c
  let c := if re.inp ∨ re.pri then handleRead tid a.read a.calls c else c
  if re.out then handleWrite tid a.write c else c

end TcpConnection

end MuduoX
