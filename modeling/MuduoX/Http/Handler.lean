import MuduoX.Http.Response
import MuduoX.Theory.Path

/-! `HttpServer::onRequest`, `handleStaticFile` and `handleError` (`http/HttpServer.cpp`).

A handler is the list of what it does with its connection and with `io_uring`, in order. It runs
on the thread of the connection's loop, so the functors it hands to `runInLoop` run at once. What
the operating system answers (`stat`, `open`) and the user's callback are in `Env`; the completion
of a file read is `PendingRead.completed`. -/

namespace MuduoX

/-- The string that a call taking `filepath.c_str()` sees: it ends at the first NUL. -/
def cStr (s : Bytes) : Bytes := s.takeWhile (· ≠ 0)

/-- What `stat` says of a file. -/
structure FileStat where
  isDir : Bool
  size : Nat
  deriving DecidableEq

/-- The file system at one call: `stat` and `open` on C strings. Path resolution takes a path that
ends in a slash, or in the component `.`, to a directory. -/
structure FileSystem where
  stat : Bytes → Option FileStat
  canOpen : Bytes → Bool
  isDir_of_trailing : ∀ path st, stat path = some st →
    Path.last slash path = [] ∨ Path.last slash path = [dot] → st.isDir

/-- A file system with one file. -/
def FileSystem.oneFile (file : Bytes) (h₁ : Path.last slash file ≠ [])
    (h₂ : Path.last slash file ≠ [dot]) : FileSystem where
  stat path := if path = file then some ⟨false, 3⟩ else none
  canOpen _ := true
  isDir_of_trailing path st hst hlast := by
    split at hst
    · rename_i hpath
      exact absurd hlast (by rw [hpath, not_or]; exact ⟨h₁, h₂⟩)
    · cases hst

/-- What a request is handled with. -/
structure Env where
  webRoot : Bytes
  httpCallback : Option (HttpRequest → HttpResponse → HttpResponse)
  fs : FileSystem
  /-- `loop_->getUringManager()` is not null. -/
  uring : Bool

/-- What the completion callback of a file read has captured. -/
structure PendingRead where
  shouldClose : Bool
  contentType : Bytes
  fileSize : Nat
  deriving DecidableEq

/-- What a handler does. -/
inductive Effect where
  /-- `conn->send(...)` with these bytes. -/
  | send (data : Bytes)
  /-- `conn->shutdown()` -/
  | shutdown
  /-- `uring->registerFile(filepath)` -/
  | registerFile (filepath : Bytes)
  /-- `file->asyncRW(...)` -/
  | asyncRead (read : PendingRead)
  deriving DecidableEq

/-- Serialise a response into a fresh buffer and send it. -/
def Effect.sendResponse (r : HttpResponse) : Effect :=
  .send (r.appendToBuffer (.new kInitialSize)).readable

namespace HttpServer

/-- Whether the connection is closed behind the answer to a request. -/
def shouldClose (req : HttpRequest) : Bool :=
  req.getHeader (ascii "Connection") = ascii "close" ∨
    req.version = .kHttp10 ∧ req.getHeader (ascii "Connection") ≠ ascii "Keep-Alive"

def handleError (response : HttpResponse) (statusCode : HttpStatusCode) (msg : Bytes) :
    List Effect :=
  let response := (response.setStatusCode statusCode).setStatusMessage msg
  let response := response.setBody (ascii "<html><body><h1>" ++ digits statusCode ++ ascii " " ++
    msg ++ ascii "</h1></body></html>")
  [.sendResponse (response.setCloseConnection true), .shutdown]

/-- The path of the file that a request asks for. -/
def staticPath (req : HttpRequest) : Bytes :=
  if req.path = ascii "/" then ascii "/index.html" else req.path

/-- `path.find("..") != npos`. -/
def hasDotDot : Bytes → Bool
  | [] => false
  | b :: bs => (b = dot && bs.head? = some dot) || hasDotDot bs

/-- `path.substr(path.find_last_of('.'))`, or the empty string when there is no dot. -/
def suffix (path : Bytes) : Bytes :=
  if dot ∈ path then dot :: path.rtakeWhile (· ≠ dot) else []

def handleStaticFile (env : Env) (req : HttpRequest) (response : HttpResponse) : List Effect :=
  let path := staticPath req
  if hasDotDot path then handleError response 403 (ascii "Forbidden") else
  let filepath := env.webRoot ++ path
  match env.fs.stat (cStr filepath) with
  | none => handleError response 404 (ascii "Not Found")
  | some st =>
    if st.isDir then handleError response 404 (ascii "Not Found (Is Directory)") else
    let contentType := MimeType.getMime (suffix path)
    if ¬env.uring then [] else
    .registerFile filepath ::
      if env.fs.canOpen (cStr filepath) then
        [.asyncRead ⟨shouldClose req, contentType, st.size⟩]
      else handleError response 404 (ascii "Open Failed")

def onRequest (env : Env) (req : HttpRequest) : List Effect :=
  let close := shouldClose req
  let response := HttpResponse.new close
  let response := match env.httpCallback with
    | some httpCallback => httpCallback req response
    | none => response
  if response.statusCode ≠ kUnknown then
    .sendResponse response :: if response.closeConnection then [.shutdown] else []
  else handleStaticFile env req response

end HttpServer

/-- The callback of `asyncRW`: `none` is a negative result, `some` the bytes that were read. -/
def PendingRead.completed (p : PendingRead) : Option Bytes → List Effect
  | none => [.shutdown]
  | some content =>
    let response := (HttpResponse.new p.shouldClose).setStatusCode k200Ok
    let response := (response.setStatusMessage (ascii "OK")).setContentType p.contentType
    let response := response.addHeader (ascii "Server") (ascii "muduoX-io_uring")
    .sendResponse (response.setBody content) :: if p.shouldClose then [.shutdown] else []

end MuduoX
