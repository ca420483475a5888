import MuduoX.Http.Message
import MuduoX.Http.Segmentation

/-! What `onMessage` makes of requests that are written one behind the other, and where a request
ends.

The body of a request is framed by the value of `Content-Length`, for POST requests only and under
exactly that spelling (`framing`). Every other request ends at its blank line, and what follows is
parsed as the next one. -/

namespace MuduoX

open Incremental HttpParser

/-! ### The value of a field -/

/-- Under distinct names there is only one value to find. -/
theorem fieldValue_of_mem {name v : Bytes} {fields : List (Bytes × Bytes)}
    (hd : (fields.map Prod.fst).Nodup) (h : (name, v) ∈ fields) :
    HttpRequest.fieldValue name fields = some v := by
  induction fields with
  | nil => cases h
  | cons f fields ih =>
    rw [List.map_cons, List.nodup_cons] at hd
    rw [HttpRequest.fieldValue]
    rcases List.mem_cons.mp h with rfl | h
    · obtain hrest | ⟨w, hrest⟩ := Option.eq_none_or_eq_some (HttpRequest.fieldValue name fields)
      · simp [hrest]
      · exact absurd (List.mem_map_of_mem (f := Prod.fst) (HttpRequest.fieldValue_mem hrest)) hd.1
    · rw [ih hd.2 h, Option.some_or]

theorem getElem?_ofList (fields : List (Bytes × Bytes)) (name : Bytes) :
    (Std.ExtTreeMap.ofList fields : HeaderMap)[name]? = HttpRequest.fieldValue name fields := by
  have h := HttpRequest.addFields_getElem? .new fields name
  rw [show HttpRequest.new = { HttpRequest.new with headers := ∅ } from rfl,
    addFields_ofList] at h
  simpa using h

/-! ### Framing -/

/-- The value that frames the body: the last `Content-Length` of a POST request. -/
def RequestHead.framing (h : RequestHead) : Option Bytes :=
  if h.method = .kPost then
    HttpRequest.fieldValue (ascii "Content-Length") (h.fields.map Field.stored)
  else none

def RequestHead.bodyLength (h : RequestHead) : Nat := (h.framing.map decimal).getD 0

theorem afterHeaders_eq (h : RequestHead) {rest : Bytes}
    (hdigits : ∀ v ∈ h.framing, v ≠ [] ∧ ∀ d ∈ v, isDigit d) (hlen : h.bodyLength ≤ rest.length)
    (hsize : rest.length < 2 ^ 64) :
    afterHeaders h.request rest =
      .done { h.request with body := rest.take h.bodyLength } (rest.drop h.bodyLength) := by
  unfold afterHeaders
  unfold RequestHead.bodyLength RequestHead.framing at *
  simp only [RequestHead.request, getElem?_ofList] at *
  split
  · rename_i hpost
    simp only [if_pos hpost] at hdigits hlen
    cases hv : HttpRequest.fieldValue (ascii "Content-Length") (h.fields.map Field.stored) with
    | none => simp
    | some v =>
      simp only [hv, Option.map_some, Option.getD_some] at hdigits hlen ⊢
      obtain ⟨hne, hd⟩ := hdigits v rfl
      rw [stoul_digits hne hd (by omega)]
      simp only [takeBody, dif_pos hlen]
      rfl
  · simp

/-- **Where a request ends.** Behind a request line and a header section exactly `bodyLength`
bytes are consumed, as the body. -/
theorem HttpContext.parseRequest_framing (h : RequestHead) (rest : Bytes) {buf : Buffer}
    (t : Timestamp) (hbuf : buf.readable = h.encode ++ rest)
    (hsize : buf.readableBytes < 2 ^ 64)
    (hdigits : ∀ v ∈ h.framing, v ≠ [] ∧ ∀ d ∈ v, isDigit d)
    (hlen : h.bodyLength ≤ rest.length) :
    ∃ ctx buf', HttpContext.new.parseRequest buf t = .ok (true, ctx, buf') ∧ ctx.gotAll ∧
      ctx.request.Same { h.request with body := rest.take h.bodyLength } ∧
      buf'.readable = rest.drop h.bodyLength := by
  have hparse : parse .line buf.readable =
      .done { h.request with body := rest.take h.bodyLength } (rest.drop h.bodyLength) := by
    rw [← Buffer.readable_length, hbuf, List.length_append] at hsize
    rw [hbuf, parse_encode_head, afterHeaders_eq h hdigits hlen (by omega)]
  have hagree := parseRequest_agrees _ buf t .line
    (by rw [hparse]; intro p r h; cases h)
  rw [hparse] at hagree
  obtain ⟨ctx, buf', ho, hs, hm, hr⟩ := done_of_agrees hagree
  exact ⟨ctx, buf', ho, by rw [gotAll, hs]; rfl, hm, hr⟩

/-- A PUT request is not framed: the bytes of its body are parsed as a request of their own. -/
theorem Session.observe_deliver_put :
    (observe (fresh.deliver ⟨ascii "PUT /a HTTP/1.1\r\nContent-Length: 25\r\n\r\n" ++
        ascii "GET /b HTTP/1.1\r\nA: b\r\n\r\n", 0⟩)).1.map (fun r => (r.path, r.body)) =
      [(ascii "/a", []), (ascii "/b", [])] := by
  decide +kernel

/-- `POST / HTTP/1.1` with a body of two bytes. -/
def postHead : RequestHead where
  method := .kPost
  path := ascii "/"
  query := none
  version := .kHttp11
  fields := [⟨ascii "Content-Length", ascii "2", by decide +kernel, by decide +kernel,
    by decide +kernel⟩]
  method_ne := by decide
  path_free := by decide +kernel
  query_free := by simp
  version_ne := by decide
  fields_ne := by decide

theorem HttpContext.parseRequest_framing_post :
    ∃ ctx buf', HttpContext.new.parseRequest
        ((Buffer.new 0).append (postHead.encode ++ ascii "hi!")) 7 = .ok (true, ctx, buf') ∧
      ctx.gotAll ∧ ctx.request.Same { postHead.request with body := ascii "hi" } ∧
      buf'.readable = ascii "!" :=
  parseRequest_framing postHead (ascii "hi!") 7 (by simp) (by decide +kernel)
    (by decide +kernel) (by decide +kernel)

/-! ### Pipelined requests -/

/-- A request as a client writes it: a head and, in a POST request under a `Content-Length`, a
body of that length. -/
structure RequestMessage extends RequestHead where
  body : Bytes
  names_nodup : (fields.map Field.name).Nodup
  value_trimmed : ∀ f ∈ fields, (∀ b ∈ f.value.head?, isspace b = false) ∧
    ∀ b ∈ f.value.getLast?, isspace b = false
  contentLength : ∀ f ∈ fields, method = .kPost → f.name = ascii "Content-Length" →
    f.value ≠ [] ∧ (∀ d ∈ f.value, isDigit d) ∧ decimal f.value = body.length
  body_framed : body ≠ [] →
    method = .kPost ∧ ∃ f ∈ fields, f.name = ascii "Content-Length"

namespace RequestMessage

def encode (m : RequestMessage) : Bytes := m.toRequestHead.encode ++ m.body

/-- The request that the message stands for. -/
def request (m : RequestMessage) : HttpRequest where
  method := m.method
  version := m.version
  path := m.path
  query := m.query.getD []
  receiveTime := 0
  headers := .ofList (m.fields.map fun f => (f.name, f.value))
  body := m.body

variable (m : RequestMessage)

theorem stored_eq : m.fields.map Field.stored = m.fields.map fun f => (f.name, f.value) :=
  List.map_congr_left fun f hf => by
    obtain ⟨h₁, h₂⟩ := m.value_trimmed f hf
    rw [Field.stored, HttpRequest.trim_eq_self h₁ h₂]

/-- The header map holds the value of each line under its name, and nothing else. -/
theorem getElem?_headers (name v : Bytes) :
    m.request.headers[name]? = some v ↔ ∃ f ∈ m.fields, f.name = name ∧ f.value = v := by
  rw [request, getElem?_ofList]
  constructor
  · intro h
    obtain ⟨f, hf, hfv⟩ := List.mem_map.mp (HttpRequest.fieldValue_mem h)
    obtain ⟨hname, hvalue⟩ := Prod.mk.inj hfv
    exact ⟨f, hf, hname, hvalue⟩
  · rintro ⟨f, hf, rfl, rfl⟩
    refine fieldValue_of_mem ?_ (List.mem_map_of_mem hf)
    rw [List.map_map]
    exact m.names_nodup

theorem framing_digits : ∀ v ∈ m.framing, v ≠ [] ∧ (∀ d ∈ v, isDigit d) ∧
    decimal v = m.body.length := by
  intro v hv
  unfold RequestHead.framing at hv
  split at hv
  · rename_i hpost
    rw [m.stored_eq] at hv
    obtain ⟨f, hf, hfv⟩ := List.mem_map.mp (HttpRequest.fieldValue_mem hv)
    obtain ⟨hname, rfl⟩ := Prod.mk.inj hfv
    exact m.contentLength f hf hpost hname
  · cases hv

/-- The framing that the code computes is the length of the body. -/
theorem bodyLength_eq : m.bodyLength = m.body.length := by
  unfold RequestHead.bodyLength
  cases hv : m.framing with
  | some v => exact (m.framing_digits v hv).2.2
  | none =>
    rcases Decidable.em (m.body = []) with hb | hb
    · rw [hb]; rfl
    · obtain ⟨hpost, f, hf, hname⟩ := m.body_framed hb
      rw [RequestHead.framing, if_pos hpost] at hv
      exact absurd hname (HttpRequest.fieldValue_eq_none hv f.stored (List.mem_map_of_mem hf))

theorem parse_encode (rest : Bytes) (hsize : (m.body ++ rest).length < 2 ^ 64) :
    parse .line (m.encode ++ rest) = .done m.request rest := by
  have hdigits : ∀ v ∈ m.framing, v ≠ [] ∧ ∀ d ∈ v, isDigit d := fun v hv =>
    ⟨(m.framing_digits v hv).1, (m.framing_digits v hv).2.1⟩
  rw [encode, List.append_assoc, parse_encode_head,
    afterHeaders_eq _ hdigits (by rw [bodyLength_eq, List.length_append]; omega) hsize,
    bodyLength_eq, List.take_left, List.drop_left]
  simp only [RequestHead.request, request, stored_eq]

end RequestMessage

/-- Message after message is parsed until the bytes are used up. -/
theorem drive_encode (ms : List RequestMessage)
    (hsize : (ms.flatMap RequestMessage.encode).length < 2 ^ 64) :
    parser.drive .line (ms.flatMap RequestMessage.encode) =
      (ms.map RequestMessage.request, .idle .line []) := by
  induction ms with
  | nil => exact Parser.drive_nil
  | cons m ms ih =>
    rw [List.flatMap_cons, List.length_append, RequestMessage.encode, List.length_append] at hsize
    have hdone := m.parse_encode (ms.flatMap RequestMessage.encode)
      (by rw [List.length_append]; omega)
    rw [List.flatMap_cons, Parser.drive_done hdone, parser_init, ih (by omega)]
    rfl

/-- **Decoding undoes encoding.** One `onMessage` call on a fresh context takes the messages in a
buffer back to their requests, one `onRequest` each and in order, and leaves an empty buffer and
a fresh context. -/
theorem HttpServer.onMessage_encode (ms : List RequestMessage) {buf : Buffer} (t : Timestamp)
    (hbuf : buf.readable = ms.flatMap RequestMessage.encode) (hsize : buf.readableBytes < 2 ^ 64) :
    ∃ (reqs : List HttpRequest) (buf' : Buffer),
      onMessage ⟨.new, buf⟩ t = (reqs.map Action.request, .ok ⟨.new, buf'⟩) ∧
      reqs.map HttpRequest.eraseTime = ms.map RequestMessage.request ∧
      buf'.readableBytes = 0 := by
  have hdrive := drive_encode ms (by rw [← hbuf, Buffer.readable_length]; exact hsize)
  rw [← hbuf] at hdrive
  have hrun := onMessageLoop_agrees (buf.readableBytes + 1) ⟨.new, buf⟩ t .line
    (Nat.lt_succ_self _)
  rw [hdrive] at hrun
  obtain ⟨reqs, ⟨ctx, buf'⟩, hacts, hreqs, hres, hctx, hempty⟩ :=
    (hrun (by intro p r h; cases h; exact List.not_mem_nil)).of_idle
  cases hctx
  refine ⟨reqs, buf', Prod.ext hacts hres, ?_, Buffer.readable_eq_nil.mp hempty⟩
  rw [hreqs, List.map_map]
  rfl

/-- A GET request with a query and an empty value. -/
def getMessage : RequestMessage where
  method := .kGet
  path := ascii "/a"
  query := some (ascii "b=?")
  version := .kHttp10
  fields := [⟨ascii "A", [], by decide +kernel, by decide +kernel, by decide +kernel⟩]
  method_ne := by decide
  path_free := by decide +kernel
  query_free := by decide +kernel
  version_ne := by decide
  fields_ne := by decide
  body := []
  names_nodup := by decide +kernel
  value_trimmed := by decide +kernel
  contentLength := by decide +kernel
  body_framed := by decide +kernel

def postMessage : RequestMessage where
  toRequestHead := postHead
  body := ascii "hi"
  names_nodup := by decide +kernel
  value_trimmed := by decide +kernel
  contentLength := by decide +kernel
  body_framed := by decide +kernel

theorem HttpServer.onMessage_encode_pair :
    ∃ (reqs : List HttpRequest) (buf' : Buffer),
      onMessage ⟨.new, (Buffer.new 0).append (getMessage.encode ++ postMessage.encode)⟩ 7 =
        (reqs.map Action.request, .ok ⟨.new, buf'⟩) ∧
      reqs.map HttpRequest.eraseTime = [getMessage.request, postMessage.request] ∧
      buf'.readableBytes = 0 :=
  onMessage_encode [getMessage, postMessage] 7 (by simp) (by decide +kernel)

end MuduoX
