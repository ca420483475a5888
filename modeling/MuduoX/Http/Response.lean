import MuduoX.Buffer
import MuduoX.Decimal
import MuduoX.Http.Request

/-! `HttpResponse` (`http/HttpResponse.h`, `http/HttpResponce.cpp`) and `MimeType`
(`http/HttpData.cpp`). -/

namespace MuduoX

/-- `snprintf(buf, sizeof buf, ...)` into `char buf[32]`: at most 31 bytes and a NUL. -/
def snprintf32 (text : Bytes) : Bytes := text.take 31

/-- The codes are numbers: `handleError` casts 403, which has no name, to `HttpStatusCode`. -/
abbrev HttpStatusCode := Nat

def kUnknown : HttpStatusCode := 0
def k200Ok : HttpStatusCode := 200

structure HttpResponse where
  headers : HeaderMap
  statusCode : HttpStatusCode
  statusMessage : Bytes
  closeConnection : Bool
  body : Bytes

namespace HttpResponse

/-- `HttpResponse(close)`. -/
def new (close : Bool) : HttpResponse := ⟨∅, kUnknown, [], close, []⟩

def setStatusCode (r : HttpResponse) (code : HttpStatusCode) : HttpResponse :=
  { r with statusCode := code }

def setStatusMessage (r : HttpResponse) (message : Bytes) : HttpResponse :=
  { r with statusMessage := message }

def setCloseConnection (r : HttpResponse) (on : Bool) : HttpResponse :=
  { r with closeConnection := on }

def addHeader (r : HttpResponse) (key value : Bytes) : HttpResponse :=
  { r with headers := r.headers.insert key value }

def setContentType (r : HttpResponse) (contentType : Bytes) : HttpResponse :=
  r.addHeader (ascii "Content-Type") contentType

def setBody (r : HttpResponse) (body : Bytes) : HttpResponse := { r with body }

/-- The strings that `appendToBuffer` appends, in order. `std::map` is walked in the order of its
keys. -/
def pieces (r : HttpResponse) : List Bytes :=
  [snprintf32 (ascii "HTTP/1.1 " ++ digits r.statusCode ++ ascii " "), r.statusMessage,
    ascii "\r\n"] ++
  (if r.closeConnection then [ascii "Connection: close\r\n"]
    else [snprintf32 (ascii "Content-Length: " ++ digits r.body.length ++ ascii "\r\n"),
      ascii "Connection: Keep-Alive\r\n"]) ++
  r.headers.toList.flatMap (fun (key, value) => [key, ascii ": ", value, ascii "\r\n"]) ++
  [ascii "\r\n", r.body]

def appendToBuffer (r : HttpResponse) (output : Buffer) : Buffer :=
  r.pieces.foldl Buffer.append output

/-- The bytes of a response. -/
def encode (r : HttpResponse) : Bytes := r.pieces.flatten

@[simp] theorem readable_appendToBuffer (r : HttpResponse) (output : Buffer) :
    (r.appendToBuffer output).readable = output.readable ++ r.encode := by
  unfold appendToBuffer encode
  induction r.pieces generalizing output with
  | nil => simp
  | cons piece pieces ih => simp [ih]

end HttpResponse

namespace MimeType

/-- `MimeType::init`. -/
def mime : List (Bytes × Bytes) := [
  (ascii ".html", ascii "text/html"), (ascii ".avi", ascii "video/x-msvideo"),
  (ascii ".bmp", ascii "image/bmp"), (ascii ".c", ascii "text/plain"),
  (ascii ".doc", ascii "application/msword"), (ascii ".gif", ascii "image/gif"),
  (ascii ".gz", ascii "application/x-gzip"), (ascii ".htm", ascii "text/html"),
  (ascii ".ico", ascii "image/x-icon"), (ascii ".jpg", ascii "image/jpeg"),
  (ascii ".png", ascii "image/png"), (ascii ".txt", ascii "text/plain"),
  (ascii ".mp3", ascii "audio/mpeg"), (ascii "default", ascii "text/html")]

def getMime (suffix : Bytes) : Bytes :=
  match mime.lookup suffix with
  | some type => type
  | none => (mime.lookup (ascii "default")).getD []

end MimeType

end MuduoX
