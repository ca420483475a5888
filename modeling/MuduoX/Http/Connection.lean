import MuduoX.Http.Handler
import MuduoX.Http.Server
import MuduoX.Net.TcpConnection

/-! A connection of `HttpServer`: the parser's side of it, which is a `Session`, and the side that
answers, which is a `TcpConnection`. What `onMessage` decides is carried out on the thread of the
connection's loop. -/

namespace MuduoX

/-- What a connection's run is given from outside. -/
structure Outside where
  /-- What the `n`th action of the run is handled with. -/
  env : Nat → Env
  /-- The socket's answer to a `::write` in a given situation. -/
  socket : TcpConnection → Bytes → WriteResult

def Effect.apply (socket : TcpConnection → Bytes → WriteResult) (c : TcpConnection) :
    Effect → TcpConnection
  | .send data => c.send c.channel.loop data (socket c data)
  | .shutdown => c.shutdown c.channel.loop
  | .registerFile _ | .asyncRead _ => c

def Action.effects (env : Env) : Action → List Effect
  | .badRequest => [.send (ascii "HTTP/1.1 400 Bad Request\r\n\r\n"), .shutdown]
  | .request req => HttpServer.onRequest env req

/-- `session` is the fault that ended the process, once there is one. -/
structure HttpConnection where
  session : Except Fault Session
  conn : TcpConnection
  actions : List Action

namespace HttpConnection

variable (o : Outside)

def perform (hc : HttpConnection) (a : Action) : HttpConnection :=
  { hc with
    conn := (a.effects (o.env hc.actions.length)).foldl (Effect.apply o.socket) hc.conn
    actions := hc.actions ++ [a] }

/-- One read: the bytes are appended, `onMessage` runs, and its actions are carried out. -/
def deliver (hc : HttpConnection) (c : Chunk) : HttpConnection :=
  match hc.session with
  | .error _ => hc
  | .ok s =>
    let result := s.deliver c
    { result.1.foldl (perform o) hc with session := result.2 }

def deliverAll (hc : HttpConnection) (cs : List Chunk) : HttpConnection := cs.foldl (deliver o) hc

end HttpConnection

end MuduoX
