import MuduoX.Http.Handler
import MuduoX.Http.ResponseDecoder

/-! # Static files as a client receives them

`handleStaticFile` asks `io_uring` for `st_size` bytes in one `readv`, which may read fewer. The
callback tests for `res < 0` only: it sends the `res` bytes it has with the code 200, and with their
number as the `Content-Length`. -/

namespace MuduoX

namespace ResponseDecoder

/-- The code and the body that a client finds in the bytes it is sent. Without a `Content-Length`
the body ends with the connection. -/
def received (data : Bytes) : Option (HttpStatusCode × Bytes) :=
  match splitHead [] data with
  | none | some ([], _) => none
  | some (line :: lines, rest) =>
    (decodeStatusLine line).bind fun status =>
    (lines.mapM decodeField).bind fun fields =>
    match contentLength fields with
    | none => some (status.1, rest)
    | some n => if n ≤ rest.length then some (status.1, rest.take n) else none

end ResponseDecoder

namespace HttpResponse

variable {r : HttpResponse}

theorem mem_toList_addHeader {key value : Bytes} {f : Bytes × Bytes}
    (hf : f ∈ (r.addHeader key value).headers.toList) :
    f = (key, value) ∨ f ∈ r.headers.toList := by
  have hget := Std.ExtTreeMap.mem_toList_iff_getElem?_eq_some.mp hf
  rw [addHeader, Std.ExtTreeMap.getElem?_insert] at hget
  split at hget
  · rename_i hkey
    have hvalue := Option.some.inj hget
    exact .inl (Prod.ext (Std.LawfulEqCmp.eq_of_compare hkey).symm hvalue.symm)
  · exact .inr (Std.ExtTreeMap.mem_toList_iff_getElem?_eq_some.mpr hget)

theorem encode_cons (hcode : r.statusCode < 2 ^ 31) (hbody : r.body.length < 10 ^ 13) :
    ∃ tail, r.encode = ascii "HTTP/1.1 " ++ (digits r.statusCode ++ (space :: r.statusMessage)) ++
      (CR :: LF :: tail) := by
  refine ⟨((r.framing ++ r.headers.toList).map ResponseDecoder.encodeField).flatMap
    (· ++ [CR, LF]) ++ (CR :: LF :: r.body), ?_⟩
  rw [encode_eq hcode hbody, headLines, List.flatMap_cons]
  simp only [List.append_assoc, List.cons_append, List.nil_append]

/-- Whatever the header fields are, the first line has the code. -/
theorem received_code (hcode : r.statusCode < 2 ^ 31) (hbody : r.body.length < 10 ^ 13)
    (hmessage : CR ∉ r.statusMessage) {code : HttpStatusCode} {body : Bytes}
    (h : ResponseDecoder.received r.encode = some (code, body)) : code = r.statusCode := by
  obtain ⟨tail, htail⟩ := encode_cons hcode hbody
  have hhead := @ResponseDecoder.splitHead_line [] tail
    (ascii "HTTP/1.1 " ++ (digits r.statusCode ++ (space :: r.statusMessage)))
    (by simp [ascii]) (CR_not_mem_statusLine hmessage)
  rw [ResponseDecoder.received, htail, hhead] at h
  cases hrest : ResponseDecoder.splitHead [] tail with
  | none =>
    rw [hrest] at h
    cases h
  | some lines =>
    rw [hrest] at h
    simp only [Option.map_some, List.nil_append, ResponseDecoder.decodeStatusLine_eq,
      Option.bind_some] at h
    obtain ⟨fields, -, h⟩ := Option.bind_eq_some_iff.mp h
    split at h
    · cases h
      rfl
    · obtain ⟨-, h⟩ := Option.ite_none_right_eq_some.mp h
      cases h
      rfl

theorem framing_name : ∀ f ∈ r.framing, f.1 ≠ [] ∧ colon ∉ f.1 := by
  have hlength : ascii "Content-Length" ≠ [] ∧ colon ∉ ascii "Content-Length" := by decide +kernel
  have hconnection : ascii "Connection" ≠ [] ∧ colon ∉ ascii "Connection" := by decide +kernel
  rw [framing]
  split
  · exact List.forall_mem_singleton.mpr hconnection
  · exact List.forall_mem_cons.mpr ⟨hlength, List.forall_mem_singleton.mpr hconnection⟩

/-- The length that is announced is the length of the body, and without one the body is the rest. -/
theorem contentLength_framing {fs : List (Bytes × Bytes)}
    (hother : ∀ f ∈ fs, f.1 ≠ ascii "Content-Length") :
    ResponseDecoder.contentLength (r.framing ++ fs) =
      if r.closeConnection then none else some r.body.length := by
  rw [ResponseDecoder.contentLength, framing]
  split
  · have hlookup : fs.lookup (ascii "Content-Length") = none := by
      rw [List.lookup_eq_none_iff]
      intro f hf
      exact bne_iff_ne.mpr (hother f hf).symm
    have hne : (ascii "Content-Length" == ascii "Connection") = false := by decide +kernel
    rw [List.singleton_append, List.lookup_cons, hne, hlookup]
    rfl
  · rw [List.cons_append, List.lookup_cons_self, Option.bind_some,
      if_pos ⟨digits_ne_nil _, fun _ hd => isDigit_of_mem_digits hd⟩, decimal_digits]

/-- What the header fields have to be for a client to find the body. -/
structure CleanHeaders (r : HttpResponse) : Prop where
  free : ∀ f ∈ r.headers.toList, CR ∉ f.1 ∧ CR ∉ f.2
  name : ∀ f ∈ r.headers.toList, f.1 ≠ [] ∧ colon ∉ f.1
  other : ∀ f ∈ r.headers.toList, f.1 ≠ ascii "Content-Length"

/-- A response with clean header fields is received with the whole of its body. -/
theorem received_encode (hcode : r.statusCode < 2 ^ 31) (hbody : r.body.length < 10 ^ 13)
    (hmessage : CR ∉ r.statusMessage) (h : r.CleanHeaders) :
    ResponseDecoder.received r.encode = some (r.statusCode, r.body) := by
  have hfields : ∀ f ∈ r.framing ++ r.headers.toList, f.1 ≠ [] ∧ colon ∉ f.1 :=
    List.forall_mem_append.mpr ⟨framing_name, h.name⟩
  rw [ResponseDecoder.received, encode_eq hcode hbody,
    ResponseDecoder.splitHead_lines (headLines_free hmessage h.free), headLines]
  simp only [ResponseDecoder.decodeStatusLine_eq, Option.bind_some,
    ResponseDecoder.mapM_decodeField hfields, contentLength_framing h.other]
  cases r.closeConnection with
  | true => rfl
  | false =>
    simp only [Bool.false_eq_true, if_false, le_refl, if_true, List.take_length]

end HttpResponse

/-! ### The completion of the read -/

namespace PendingRead

/-- The vector of `st_size` zeros, after a `readv` at offset 0 that has read `n` bytes. -/
def readBuffer (p : PendingRead) (file : Bytes) (n : Nat) : Bytes :=
  Buffer.overwrite (.replicate p.fileSize 0) 0 (file.take n)

/-- The callback of `asyncRW`. `handleCQE` hands it the `int` of the completion as it is. -/
def callback (p : PendingRead) (file : Bytes) (res : Int32) : List Effect :=
  if res.toInt < 0 then p.completed none
  else p.completed (some (slice (p.readBuffer file res.toInt.toNat) 0 res.toInt.toNat))

variable {p : PendingRead} {file content : Bytes} {n : Nat}

theorem slice_readBuffer (hfile : file.length = p.fileSize) (hn : n ≤ p.fileSize) :
    slice (p.readBuffer file n) 0 n = file.take n := by
  have hlength : (file.take n).length = n := by
    rw [List.length_take]
    omega
  rw [readBuffer, Buffer.overwrite, List.take_zero, List.nil_append, slice, List.drop_zero,
    List.take_append_of_le_length hlength.ge, List.take_take, Nat.min_self]

end PendingRead

namespace MimeType

theorem CR_not_mem_getMime (suffix : Bytes) : CR ∉ getMime suffix := by
  have hmime : ∀ e ∈ mime, CR ∉ e.2 := by decide +kernel
  have hlookup {key type : Bytes} (h : mime.lookup key = some type) : CR ∉ type := by
    obtain ⟨l₁, l₂, hl, -⟩ := List.lookup_eq_some_iff.mp h
    exact hmime (key, type) (hl ▸ List.mem_append_right l₁ (List.mem_cons_self ..))
  rw [getMime]
  split
  · rename_i type htype
    exact hlookup htype
  · obtain ⟨type, htype⟩ : ∃ type, mime.lookup (ascii "default") = some type :=
      Option.isSome_iff_exists.mp (by decide +kernel)
    rw [htype]
    exact hlookup htype

end MimeType

/-- Each 200 response among these effects carries the whole of `file`. -/
def CarriesWhole (file : Bytes) (es : List Effect) : Prop :=
  ∀ data body, .send data ∈ es → ResponseDecoder.received data = some (k200Ok, body) → body = file

theorem received_sendResponse {r : HttpResponse} {data : Bytes}
    (h : .send data = Effect.sendResponse r) : data = r.encode := by
  cases h
  rw [HttpResponse.readable_appendToBuffer, Buffer.readable_new, List.nil_append]

namespace PendingRead

variable {p : PendingRead} {file content : Bytes}

/-- What is read is sent with the code 200, and it is all of the body. -/
theorem carriesWhole_completed (htype : CR ∉ p.contentType) (hcontent : content.length < 2 ^ 31) :
    CarriesWhole file (p.completed (some content)) ↔ content = file := by
  obtain ⟨r, heffects, hcode, hmessage, hbody, hheaders⟩ : ∃ r : HttpResponse,
      p.completed (some content) =
        .sendResponse r :: (if p.shouldClose then [.shutdown] else []) ∧
      r.statusCode = k200Ok ∧ CR ∉ r.statusMessage ∧ r.body = content ∧
      ∀ f ∈ r.headers.toList, f = (ascii "Server", ascii "muduoX-io_uring") ∨
        f = (ascii "Content-Type", p.contentType) := by
    refine ⟨_, rfl, rfl, ?_, rfl, fun f hf => ?_⟩
    · change CR ∉ ascii "OK"
      decide +kernel
    · refine (HttpResponse.mem_toList_addHeader hf).imp_right fun hf => ?_
      refine (HttpResponse.mem_toList_addHeader hf).resolve_right fun hf => ?_
      rw [HttpResponse.setStatusMessage, HttpResponse.setStatusCode, HttpResponse.new] at hf
      exact List.not_mem_nil hf
  have hname : CR ∉ ascii "Content-Type" ∧ ascii "Content-Type" ≠ [] ∧
      colon ∉ ascii "Content-Type" ∧ ascii "Content-Type" ≠ ascii "Content-Length" := by
    decide +kernel
  have hclean : r.CleanHeaders := by
    refine ⟨fun f hf => ?_, fun f hf => ?_, fun f hf => ?_⟩ <;> obtain rfl | rfl := hheaders f hf
    · decide +kernel
    · exact ⟨hname.1, htype⟩
    · decide +kernel
    · exact ⟨hname.2.1, hname.2.2.1⟩
    · decide +kernel
    · exact hname.2.2.2
  have hreceived : ResponseDecoder.received r.encode = some (k200Ok, content) := by
    rw [← hcode, ← hbody]
    refine HttpResponse.received_encode ?_ ?_ hmessage hclean
    · rw [hcode]
      decide
    · rw [hbody]
      exact Nat.lt_trans hcontent (by decide)
  rw [heffects]
  constructor
  · intro h
    refine h r.encode content ?_ hreceived
    rw [Effect.sendResponse, HttpResponse.readable_appendToBuffer, Buffer.readable_new,
      List.nil_append]
    exact List.mem_cons_self ..
  · rintro rfl data body hdata hbody'
    rcases List.mem_cons.mp hdata with hdata | hdata
    · rw [received_sendResponse hdata, hreceived] at hbody'
      cases hbody'
      rfl
    · split at hdata <;> simp at hdata

theorem carriesWhole_callback {res : Int32} (htype : CR ∉ p.contentType)
    (hfile : file.length = p.fileSize) (hres : res.toInt ≤ p.fileSize) :
    CarriesWhole file (p.callback file res) ↔ res.toInt < 0 ∨ res.toInt = p.fileSize := by
  rw [callback]
  split
  · rename_i hneg
    refine iff_of_true ?_ (.inl hneg)
    intro data body hdata
    simp [completed] at hdata
  · rename_i hneg
    have hlt := res.toInt_lt
    have hread : (file.take res.toInt.toNat).length = res.toInt.toNat := by
      rw [List.length_take]
      omega
    rw [slice_readBuffer hfile (by omega), carriesWhole_completed htype (by omega),
      List.take_eq_self_iff]
    omega

end PendingRead

/-- An effect, and what the completion of its read adds to it. -/
def Effect.complete (file : Bytes) (res : Int32) : Effect → List Effect
  | .asyncRead read => read.callback file res
  | e => [e]

theorem carriesWhole_registerFile {file filepath : Bytes} {res : Int32} {es : List Effect} :
    CarriesWhole file (Effect.complete file res (.registerFile filepath) ++ es) ↔
      CarriesWhole file es := by
  change CarriesWhole file (.registerFile filepath :: es) ↔ CarriesWhole file es
  refine forall_congr' fun data => forall_congr' fun body => ?_
  rw [List.mem_cons, or_iff_right Effect.noConfusion]

namespace HttpServer

variable {file : Bytes} {statusCode : HttpStatusCode} {msg : Bytes}

theorem carriesWhole_handleError (response : HttpResponse) (hcode : statusCode < 2 ^ 31)
    (hne : statusCode ≠ k200Ok) (hmsg : CR ∉ msg) (hlength : msg.length < 2 ^ 31) :
    CarriesWhole file (handleError response statusCode msg) := by
  intro data body hdata hreceived
  rcases List.mem_cons.mp hdata with hdata | hdata
  · have hbody : (ascii "<html><body><h1>" ++ digits statusCode ++ ascii " " ++ msg ++
        ascii "</h1></body></html>").length < 10 ^ 13 := by
      have hdigits := length_digits_le (n := statusCode) (k := 10) (by decide)
        (Nat.lt_trans hcode (by decide))
      simp only [List.length_append, show (ascii "<html><body><h1>").length = 16 from rfl,
        show (ascii " ").length = 1 from rfl,
        show (ascii "</h1></body></html>").length = 19 from rfl]
      omega
    rw [received_sendResponse hdata] at hreceived
    exact absurd (HttpResponse.received_code hcode hbody hmsg hreceived).symm hne
  · simp at hdata

/-- What a request for a static file leads to, once its read has completed. -/
def answerStatic (env : Env) (req : HttpRequest) (response : HttpResponse) (file : Bytes)
    (res : Int32) : List Effect :=
  (handleStaticFile env req response).flatMap (Effect.complete file res)

variable {env : Env} {req : HttpRequest} {st : FileStat}

/-- A read is started for a regular file that can be opened. -/
theorem carriesWhole_of_read (response : HttpResponse) {res : Int32}
    (hdots : hasDotDot (staticPath req) = false)
    (hstat : env.fs.stat (cStr (env.webRoot ++ staticPath req)) = some st)
    (hdir : st.isDir = false) (huring : env.uring = true)
    (hopen : env.fs.canOpen (cStr (env.webRoot ++ staticPath req)) = true)
    (hfile : file.length = st.size) (hres : res.toInt ≤ st.size) :
    CarriesWhole file (answerStatic env req response file res) ↔
      res.toInt < 0 ∨ res.toInt = st.size := by
  have hread : answerStatic env req response file res =
      Effect.complete file res (.registerFile (env.webRoot ++ staticPath req)) ++
        PendingRead.callback ⟨shouldClose req, MimeType.getMime (suffix (staticPath req)), st.size⟩
          file res := by
    rw [answerStatic, handleStaticFile, hdots, if_neg Bool.false_ne_true]
    simp only [hstat, hdir, huring, hopen, Bool.false_eq_true, not_true_eq_false, if_false, if_true,
      List.flatMap_cons, List.flatMap_nil, List.append_nil]
    rfl
  rw [hread, carriesWhole_registerFile]
  exact PendingRead.carriesWhole_callback (MimeType.CR_not_mem_getMime _) hfile hres

/-- **Whole files.** For a regular file, a client is sent the whole file or no 200 response at all
if and only if there is no read, the read fails, or it reads the whole file. -/
theorem carriesWhole_iff (env : Env) (req : HttpRequest) (response : HttpResponse) (st : FileStat)
    (file : Bytes) (res : Int32)
    (hstat : env.fs.stat (cStr (env.webRoot ++ staticPath req)) = some st)
    (hdir : st.isDir = false) (hfile : file.length = st.size) (hres : res.toInt ≤ st.size) :
    CarriesWhole file (answerStatic env req response file res) ↔
      hasDotDot (staticPath req) ∨ env.uring = false ∨
        env.fs.canOpen (cStr (env.webRoot ++ staticPath req)) = false ∨
        res.toInt < 0 ∨ res.toInt = st.size := by
  cases hdots : hasDotDot (staticPath req) with
  | true =>
    rw [answerStatic, handleStaticFile, if_pos hdots]
    have hmsg : CR ∉ ascii "Forbidden" := by decide +kernel
    exact iff_of_true
      (carriesWhole_handleError response (by decide : 403 < 2 ^ 31) (by decide) hmsg (by decide))
      (.inl rfl)
  | false =>
  cases huring : env.uring with
  | false =>
    have hnothing : answerStatic env req response file res = [] := by
      rw [answerStatic, handleStaticFile, hdots]
      simp [hstat, hdir, huring]
    rw [hnothing]
    refine iff_of_true ?_ (.inr (.inl rfl))
    intro data body hdata
    cases hdata
  | true =>
  cases hopen : env.fs.canOpen (cStr (env.webRoot ++ staticPath req)) with
  | false =>
    rw [answerStatic, handleStaticFile, hdots, if_neg Bool.false_ne_true]
    simp only [hstat, hdir, huring, hopen, Bool.false_eq_true, not_true_eq_false, if_false,
      List.flatMap_cons]
    have hmsg : CR ∉ ascii "Open Failed" := by decide +kernel
    exact iff_of_true (carriesWhole_registerFile.mpr <|
      carriesWhole_handleError response (by decide : 404 < 2 ^ 31) (by decide) hmsg (by decide))
      (.inr (.inr (.inl trivial)))
  | true =>
    rw [carriesWhole_of_read response hdots hstat hdir huring hopen hfile hres]
    simp

/-- A web root with one file of three bytes. -/
def indexEnv : Env :=
  ⟨ascii "./www", none, .oneFile (ascii "./www/index.html") (by decide) (by decide), true⟩

/-- `GET /` -/
def indexRequest : HttpRequest := { HttpRequest.new with path := ascii "/" }

theorem carriesWhole_iff_index : CarriesWhole (ascii "abc") (answerStatic indexEnv indexRequest
    (.new false) (ascii "abc") 3) :=
  (carriesWhole_iff indexEnv indexRequest (.new false) ⟨false, 3⟩ (ascii "abc") 3
    (by decide +kernel) rfl rfl (by decide)).mpr (by decide +kernel)

/-- Two of three bytes are read, and sent as the whole file. -/
theorem not_carriesWhole : ¬∀ (env : Env) (req : HttpRequest) (response : HttpResponse)
    (st : FileStat) (file : Bytes) (res : Int32),
    env.fs.stat (cStr (env.webRoot ++ staticPath req)) = some st → st.isDir = false →
    file.length = st.size → res.toInt ≤ st.size →
    CarriesWhole file (answerStatic env req response file res) := by
  intro h
  have hwhole := h indexEnv indexRequest (.new false) ⟨false, 3⟩ (ascii "abc") 2
    (by decide +kernel) rfl rfl (by decide)
  have hstat : indexEnv.fs.stat (cStr (indexEnv.webRoot ++ staticPath indexRequest)) =
      some ⟨false, 3⟩ := by decide +kernel
  rw [carriesWhole_of_read _ (by decide +kernel) hstat rfl rfl rfl rfl (by decide)] at hwhole
  revert hwhole
  decide

end HttpServer

end MuduoX
