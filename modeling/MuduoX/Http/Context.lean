import MuduoX.Buffer
import MuduoX.Http.Request

/-! `HttpContext` (`http/HttpContext.h`, `http/HttpContext.cpp`): the two-level state machine
that turns buffered bytes into requests.

`state` walks through the request line, the header section and the body; `hState` is the state
of the byte automaton inside the header section. Both outlive a call. The four positions that
the automaton works with (`key_start`, `key_end`, `val_start`, `val_end`) are locals of
`parseHeaders` and start every call as null pointers, while the bytes of an unfinished header
section stay in the buffer and are scanned again. -/

namespace MuduoX

/-- The main state machine. -/
inductive ProcessState where
  | parseURI | parseHeaders | recvBody | analysis | finish
  deriving DecidableEq, Repr

/-- Return code of `parseURI`. -/
inductive URIState where
  | again | error | success
  deriving DecidableEq, Repr

/-- Return code of `parseHeaders`. -/
inductive HeaderState where
  | success | again | error
  deriving DecidableEq, Repr

/-- The byte automaton of the header section. -/
inductive ParseState where
  | start | key | colon | spacesAfterColon | value | cr | lf | endCR | endLF
  deriving DecidableEq, Repr

structure HttpContext where
  state : ProcessState
  hState : ParseState
  request : HttpRequest
  deriving DecidableEq

namespace HttpContext

/-- `HttpContext()`. -/
def new : HttpContext := ⟨.parseURI, .start, .new⟩

def gotAll (ctx : HttpContext) : Bool := ctx.state = .finish

def reset (ctx : HttpContext) : HttpContext :=
  { state := .parseURI, hState := .start, request := (ctx.request.swap .new).1 }

/-! ### The request line -/

/-- Steps 1 to 3 of `parseURI`: method, path and version of the line `[0, crlf)`. The flag is
false where the source returns `PARSE_URI_ERROR`; what was set before that stays set. -/
def requestLine (req : HttpRequest) (bytes : Bytes) (crlf : Nat) : Bool × HttpRequest :=
  let sp := find bytes 0 crlf space
  if sp = crlf then (false, req) else
  let (known, req) := req.setMethod (slice bytes 0 sp)
  if ¬ known then (false, req) else
  let space2 := find bytes (sp + 1) crlf space
  if space2 = crlf then (false, req) else
  let quest := find bytes (sp + 1) space2 question
  let req :=
    if quest ≠ space2 then
      (req.setPath (slice bytes (sp + 1) quest)).setQuery (slice bytes (quest + 1) space2)
    else req.setPath (slice bytes (sp + 1) space2)
  let ver := slice bytes (space2 + 1) crlf
  if ver = ascii "HTTP/1.0" then (true, req.setVersion .kHttp10)
  else if ver = ascii "HTTP/1.1" then (true, req.setVersion .kHttp11)
  else (false, req)

/-- `parseURI`. `bytes` is the readable range, so `begin` is 0 and `end` its length. -/
def parseURI (ctx : HttpContext) (buf : Buffer) :
    Except Fault (URIState × HttpContext × Buffer) :=
  if buf.readableBytes = 0 then .ok (.again, ctx, buf) else
  let bytes := buf.readable
  let last := buf.readableBytes
  let crlf := find bytes 0 last CR
  if crlf = last then .ok (.again, ctx, buf) else
  match requestLine ctx.request bytes crlf with
  | (false, req) => .ok (.error, { ctx with request := req }, buf)
  | (true, req) =>
    -- `*(crlf + 1)`: when the CR is the last readable byte this looks past the readable range
    match buf.byteAt (crlf + 1) with
    | none => .error .outOfBounds
    | some c =>
      if c = LF then .ok (.success, { ctx with request := req }, buf.retrieveUntil (crlf + 2))
      else .ok (.error, { ctx with request := req }, buf)

/-! ### The header section -/

/-- The automaton's state and the four positions. -/
structure HeaderScan where
  hState : ParseState
  keyStart : Option Nat
  keyEnd : Option Nat
  valStart : Option Nat
  valEnd : Option Nat
  deriving DecidableEq

/-- What one byte does: the loop goes on, having stored at most one field with `addHeader`, or
`parseHeaders` returns. -/
inductive HeaderStep where
  | next (s : HeaderScan) (stored : Option (Bytes × Bytes))
  | error
  | success

/-- One turn of the `switch`, at offset `current` with `ch = *current`. The strings built for
`LOG_INFO` matter only when one of their ends is a null pointer. -/
def headerStep (bytes : Bytes) (current : Nat) (ch : Byte) (s : HeaderScan) :
    Except Fault HeaderStep :=
  match s.hState with
  | .start =>
    if ch = LF ∨ ch = CR then .ok (.next s none)
    else .ok (.next { s with hState := .key, keyStart := some current } none)
  | .key =>
    if ch = colon then do
      let _ ← cstring bytes s.keyStart (some current)
      return .next { s with hState := .colon, keyEnd := some current } none
    else if ch = LF ∨ ch = CR then .ok .error
    else .ok (.next s none)
  | .colon =>
    if ch = space then do
      let _ ← cstring bytes s.keyEnd (some (current + 1))
      return .next { s with hState := .spacesAfterColon } none
    else .ok .error
  | .spacesAfterColon => .ok (.next { s with hState := .value, valStart := some current } none)
  | .value =>
    if ch = CR then do
      let _ ← cstring bytes s.valStart (some current)
      return .next { s with hState := .cr, valEnd := some current } none
    else if ch = LF then do
      let field ← HttpRequest.addHeader bytes s.keyStart s.keyEnd (some current)
      let _ ← cstring bytes s.valStart (some current)
      return .next { s with hState := .lf, valEnd := some current } (some field)
    else .ok (.next s none)
  | .cr =>
    if ch = LF then do
      let field ← HttpRequest.addHeader bytes s.keyStart s.keyEnd s.valEnd
      let _ ← cstring bytes s.valStart s.valEnd
      return .next { s with hState := .lf } (some field)
    else .ok .error
  | .lf =>
    if ch = CR then .ok (.next { s with hState := .endCR } none)
    else .ok (.next { s with hState := .key, keyStart := some current } none)
  | .endCR => if ch = LF then .ok .success else .ok .error
  | .endLF => .ok (.next s none) -- no `case`: the byte is skipped

/-- How the loop of `parseHeaders` ends: the automaton and the request as it leaves them, and on
success the number of bytes `current - start + 1` to retrieve. -/
inductive HeaderResult where
  | again (s : HeaderScan) (req : HttpRequest)
  | error (hState : ParseState) (req : HttpRequest)
  | success (req : HttpRequest) (used : Nat)

/-- The `while (current < end)` loop, on the bytes from `current` on. -/
def headerLoop (bytes : Bytes) :
    Bytes → Nat → HeaderScan → HttpRequest → Except Fault HeaderResult
  | [], _, s, req => .ok (.again s req)
  | ch :: rest, current, s, req =>
    match headerStep bytes current ch s with
    | .error f => .error f
    | .ok (.next s' stored) => headerLoop bytes rest (current + 1) s' (req.addFields stored.toList)
    | .ok .error => .ok (.error s.hState req)
    | .ok .success => .ok (.success req (current + 1))

/-- A call of `parseHeaders` starts with every position null. -/
def HeaderScan.enter (hState : ParseState) : HeaderScan := ⟨hState, none, none, none, none⟩

/-- `parseHeaders`. Only a complete section is retrieved. -/
def parseHeaders (ctx : HttpContext) (buf : Buffer) :
    Except Fault (HeaderState × HttpContext × Buffer) :=
  if buf.readableBytes = 0 then .ok (.again, ctx, buf) else
  match headerLoop buf.readable buf.readable 0 (.enter ctx.hState) ctx.request with
  | .error f => .error f
  | .ok (.again s req) => .ok (.again, { ctx with hState := s.hState, request := req }, buf)
  | .ok (.error h req) => .ok (.error, { ctx with hState := h, request := req }, buf)
  | .ok (.success req used) =>
    .ok (.success, { ctx with hState := .endLF, request := req }, buf.retrieve used)

/-! ### The driver -/

/-- The body phase: `some` is the context that goes on, `none` waits for more bytes. -/
def recvBody (ctx : HttpContext) (buf : Buffer) : Except Fault (Option (HttpContext × Buffer)) :=
  match ctx.request.headers[ascii "Content-Length"]? with
  | none => .ok (some ({ ctx with state := .analysis }, buf))
  | some v =>
    match stoul v with
    | .error f => .error f
    | .ok len =>
      if len ≤ buf.readableBytes then
        .ok (some ({ ctx with
          request := ctx.request.setBody (slice buf.readable 0 len), state := .analysis },
          buf.retrieve len))
      else .ok none

/-- The `while (hasMore)` loop of `parseRequest`, one unit of fuel for each turn. No branch of
the loop matches the state `finish`, so a call that enters it there spins. -/
def parseLoop : Nat → HttpContext → Buffer → Timestamp → Except Fault (Bool × HttpContext × Buffer)
  | 0, _, _, _ => .error .diverge
  | fuel + 1, ctx, buf, receiveTime =>
    match ctx.state with
    | .parseURI =>
      match ctx.parseURI buf with
      | .error f => .error f
      | .ok (.again, ctx, buf) => .ok (true, ctx, buf)
      | .ok (.error, ctx, buf) => .ok (false, ctx, buf)
      | .ok (.success, ctx, buf) =>
        parseLoop fuel
          { ctx with request := ctx.request.setReceiveTime receiveTime, state := .parseHeaders }
          buf receiveTime
    | .parseHeaders =>
      match ctx.parseHeaders buf with
      | .error f => .error f
      | .ok (.again, ctx, buf) => .ok (true, ctx, buf)
      | .ok (.error, ctx, buf) => .ok (false, ctx, buf)
      | .ok (.success, ctx, buf) =>
        if ctx.request.method = .kPost then
          parseLoop fuel { ctx with state := .recvBody } buf receiveTime
        else parseLoop fuel { ctx with state := .analysis } buf receiveTime
    | .recvBody =>
      match ctx.recvBody buf with
      | .error f => .error f
      | .ok none => .ok (true, ctx, buf)
      | .ok (some (ctx, buf)) => parseLoop fuel ctx buf receiveTime
    | .analysis => .ok (true, { ctx with state := .finish }, buf)
    | .finish => parseLoop fuel ctx buf receiveTime

/-- `parseRequest`. Every turn but the last moves `state` forward, so four turns are enough from
any state but `finish`. -/
def parseRequest (ctx : HttpContext) (buf : Buffer) (receiveTime : Timestamp) :
    Except Fault (Bool × HttpContext × Buffer) :=
  parseLoop 4 ctx buf receiveTime

end HttpContext

end MuduoX
