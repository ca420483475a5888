import MuduoX.Http.Context

/-! `HttpServer::onMessage` (`http/HttpServer.cpp`), and a connection's input from the first byte
on.

The loop is recorded as the list of what it decides, in order: to answer 400 and shut down, or to
hand a request to `onRequest`. A failed parse is not followed by a `return`; the loop ends because
the context has not got everything. -/

namespace MuduoX

/-- What one turn of the loop in `onMessage` does with its connection. -/
inductive Action where
  /-- `conn->send("HTTP/1.1 400 Bad Request\r\n\r\n"); conn->shutdown();` -/
  | badRequest
  /-- `onRequest(conn, context->request())` -/
  | request (req : HttpRequest)
  deriving DecidableEq

/-- What a connection keeps between two reads: its context and its input buffer. -/
structure Session where
  context : HttpContext
  inputBuffer : Buffer
  deriving DecidableEq

namespace HttpServer

/-- The `while (buf->readableBytes() > 0)` loop, one unit of fuel for each turn. -/
def onMessageLoop : Nat → Session → Timestamp → List Action × Except Fault Session
  | 0, _, _ => ([], .error .diverge)
  | fuel + 1, s, receiveTime =>
    if s.inputBuffer.readableBytes = 0 then ([], .ok s) else
    match s.context.parseRequest s.inputBuffer receiveTime with
    | .error f => ([], .error f)
    | .ok (parsed, context, buf) =>
      let reply := if parsed then [] else [.badRequest]
      if context.gotAll then
        let next := onMessageLoop fuel ⟨context.reset, buf⟩ receiveTime
        (reply ++ .request context.request :: next.1, next.2)
      else (reply, .ok ⟨context, buf⟩)

/-- `onMessage`. A turn after which the loop goes on has consumed a request, which is at least one
byte, so one turn more than there are bytes is enough. -/
def onMessage (s : Session) (receiveTime : Timestamp) : List Action × Except Fault Session :=
  onMessageLoop (s.inputBuffer.readableBytes + 1) s receiveTime

end HttpServer

/-! ### A connection's input -/

/-- Bytes that one read brings in, with the time at which it did. -/
structure Chunk where
  data : Bytes
  receiveTime : Timestamp
  deriving DecidableEq

namespace Session

/-- A connection that has just been set up by `onConnection`. -/
def fresh : Session := ⟨.new, .new kInitialSize⟩

/-- One chunk is appended to the input buffer and `onMessage` runs. -/
def deliver (s : Session) (c : Chunk) : List Action × Except Fault Session :=
  HttpServer.onMessage { s with inputBuffer := s.inputBuffer.append c.data } c.receiveTime

/-- Chunk after chunk, until there are none or the process dies of a fault. -/
def deliverAll : Session → List Chunk → List Action × Except Fault Session
  | s, [] => ([], .ok s)
  | s, c :: cs =>
    match s.deliver c with
    | (actions, .error f) => (actions, .error f)
    | (actions, .ok s) =>
      let next := s.deliverAll cs
      (actions ++ next.1, next.2)

end Session

end MuduoX
