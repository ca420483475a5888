import MuduoX.Http.HeaderSection
import MuduoX.Http.Parser

/-! What a request line is, and one call of `parseRequest` on a fresh context phase by phase. -/

namespace MuduoX
namespace HttpContext

/-! ### Request lines -/

/-- A request line of method `m`: a token, a target and a version, with a blank between them. -/
def IsRequestLine (m : Method) (line : Bytes) : Prop :=
  ∃ token target ver : Bytes, line = token ++ space :: (target ++ space :: ver) ∧
    HttpRequest.methodOf token = m ∧ m ≠ .kInvalid ∧ space ∉ target ∧
    (ver = ascii "HTTP/1.0" ∨ ver = ascii "HTTP/1.1")

theorem blank_notMem_of_methodOf {token : Bytes} (h : HttpRequest.methodOf token ≠ .kInvalid) :
    space ∉ token := by
  unfold HttpRequest.methodOf at h
  split_ifs at h with h₁ h₂ h₃ h₄ h₅
  · rw [h₁]; decide
  · rw [h₂]; decide
  · rw [h₃]; decide
  · rw [h₄]; decide
  · rw [h₅]; decide
  · exact absurd rfl h

section
variable {token target ver line : Bytes}

theorem find_blank_miss (h : space ∉ line) : find line 0 line.length space = line.length := by
  have := find_miss [] [] h
  simpa using this

theorem find_blank (ht : space ∉ token) (rest : Bytes) :
    find (token ++ space :: rest) 0 (token ++ space :: rest).length space = token.length := by
  have := find_hit [] rest (token ++ space :: rest).length ht (by simp)
  simpa using this

theorem find_secondBlank (hg : space ∉ target) (token ver : Bytes) :
    find (token ++ space :: (target ++ space :: ver)) (token.length + 1)
      (token ++ space :: (target ++ space :: ver)).length space =
        token.length + 1 + target.length := by
  have := find_hit (token ++ [space]) ver (token ++ space :: (target ++ space :: ver)).length hg
    (by simp; omega)
  simpa using this

theorem find_secondBlank_miss {rest : Bytes} (h : space ∉ rest) (token : Bytes) :
    find (token ++ space :: rest) (token.length + 1) (token ++ space :: rest).length space =
      (token ++ space :: rest).length := by
  have := find_miss (token ++ [space]) [] h
  simpa [Nat.add_assoc, Nat.add_comm 1] using this

/-- What steps 1 to 3 of `parseURI` make of a line with two blanks. -/
theorem requestLine_blanks (req : HttpRequest) (ht : space ∉ token) (hg : space ∉ target)
    (hline : line = token ++ space :: (target ++ space :: ver)) :
    (requestLine req line line.length).1 =
        (HttpRequest.methodOf token != .kInvalid &&
          decide (ver = ascii "HTTP/1.0" ∨ ver = ascii "HTTP/1.1")) ∧
      (requestLine req line line.length).2.method = HttpRequest.methodOf token := by
  have hver : slice line (token.length + 1 + target.length + 1) line.length = ver :=
    slice_eq (token ++ [space] ++ target ++ [space]) _ [] (by simp [hline]) (by simp; omega)
      (by simp [hline]; omega)
  have hlen : line.length = token.length + 1 + target.length + 1 + ver.length := by
    simp [hline]; omega
  have hmethod : slice line 0 token.length = token := by rw [hline]; exact slice_append ..
  have h₁ := find_blank ht (target ++ space :: ver)
  have h₂ := find_secondBlank hg token ver
  rw [← hline] at h₁ h₂
  unfold requestLine
  simp only [h₁, h₂, hver, hmethod, HttpRequest.setMethod]
  rw [if_neg (by omega)]
  by_cases hknown : HttpRequest.methodOf token = .kInvalid
  · rw [if_pos (by simp [hknown])]
    simp [hknown]
  · rw [if_neg (by simp [hknown]), if_neg (by omega)]
    constructor
    · split_ifs <;> simp [*]
    · split_ifs <;> rfl

theorem requestLine_iff (req : HttpRequest) (line : Bytes) :
    (requestLine req line line.length).1 = true ↔ ∃ m, IsRequestLine m line := by
  constructor
  · intro h
    by_cases hmem : space ∈ line
    · obtain ⟨token, rest, hline, ht⟩ := List.eq_append_cons_of_mem hmem
      by_cases hrest : space ∈ rest
      · obtain ⟨target, ver, rfl, hg⟩ := List.eq_append_cons_of_mem hrest
        rw [(requestLine_blanks req ht hg hline).1] at h
        rw [Bool.and_eq_true, bne_iff_ne, decide_eq_true_eq] at h
        exact ⟨_, token, target, ver, hline, rfl, h.1, hg, h.2⟩
      · have h₁ := find_blank ht rest
        have h₂ := find_secondBlank_miss hrest token
        rw [← hline] at h₁ h₂
        unfold requestLine at h
        simp only [h₁, h₂] at h
        split_ifs at h
    · unfold requestLine at h
      simp only [find_blank_miss hmem] at h
      cases h
  · rintro ⟨m, token, target, ver, hline, hm, hne, hg, hver⟩
    have ht := blank_notMem_of_methodOf (hm ▸ hne)
    rw [(requestLine_blanks req ht hg hline).1]
    simp [hm, hne, hver]

theorem IsRequestLine.requestLine {m : Method} (h : IsRequestLine m line) (req : HttpRequest) :
    ∃ req', requestLine req line line.length = (true, req') ∧ req'.method = m := by
  have htrue := (requestLine_iff req line).mpr ⟨m, h⟩
  obtain ⟨token, target, ver, hline, hm, hne, hg, hver⟩ := h
  have hmethod := (requestLine_blanks req (blank_notMem_of_methodOf (hm ▸ hne)) hg hline).2
  exact ⟨_, Prod.ext htrue rfl, hmethod.trans hm⟩

end

variable {buf : Buffer} {t : Timestamp} {line rest : Bytes} {req : HttpRequest} {n : Nat}

/-- The line in front of the first CR is the only one without a CR. -/
theorem line_unique {line' rest' : Bytes} (h : line ++ CR :: rest = line' ++ CR :: rest')
    (hcr : CR ∉ line) (hcr' : CR ∉ line') : line = line' ∧ rest = rest' := by
  have hsplit := HttpParser.splitCR_of_free hcr rest
  rw [h, HttpParser.splitCR_of_free hcr'] at hsplit
  cases hsplit
  exact ⟨rfl, rfl⟩

/-! ### The first phase -/

theorem parseRequest_of_noCR (h : CR ∉ buf.readable) :
    new.parseRequest buf t = .ok (true, new, buf) := by
  rw [parseRequest, parseLoop]
  simp only [new]
  rw [← new, parseURI_again h]

/-- What follows a line that is no request line is not looked at. -/
theorem parseRequest_of_badLine (h : buf.readable = line ++ CR :: rest) (hcr : CR ∉ line)
    (hline : (requestLine .new line line.length).1 = false) :
    ∃ ctx, new.parseRequest buf t = .ok (false, ctx, buf) ∧ ctx.state = .parseURI := by
  rw [parseRequest, parseLoop]
  simp only [new]
  rw [← new, parseURI_line h hcr]
  generalize hreq : requestLine HttpRequest.new line line.length = r at hline
  obtain ⟨ok, req⟩ := r
  cases hline
  simp only [new, hreq]
  exact ⟨_, rfl, rfl⟩

theorem parseRequest_of_line (h : buf.readable = line ++ CR :: rest) (hcr : CR ∉ line)
    (hline : requestLine .new line line.length = (true, req)) :
    new.parseRequest buf t =
      match buf.byteAt (line.length + 1) with
      | none => .error .outOfBounds
      | some c =>
        if c = LF then parseLoop 3 ⟨.parseHeaders, .start, req.setReceiveTime t⟩
          (buf.retrieveUntil (line.length + 2)) t
        else .ok (false, { new with request := req }, buf) := by
  rw [parseRequest, parseLoop]
  simp only [new]
  rw [← new, parseURI_line h hcr]
  simp only [new, hline]
  cases buf.byteAt (line.length + 1) with
  | none => rfl
  | some c =>
    by_cases hc : c = LF
    · simp only [if_pos hc]
    · simp only [if_neg hc]

theorem byteAt_behind {c : Byte} (h : buf.readable = line ++ CR :: c :: rest) :
    buf.byteAt (line.length + 1) = some c := by
  have hlen := congrArg List.length h
  rw [Buffer.readable_length, List.length_append] at hlen
  rw [Buffer.byteAt_of_lt (by rw [hlen]; simp), h]
  simp

/-- Behind a request line with its CR and LF the header section begins. -/
theorem parseRequest_of_crlf (h : buf.readable = line ++ CR :: LF :: rest) (hcr : CR ∉ line)
    (hline : requestLine .new line line.length = (true, req)) :
    new.parseRequest buf t = parseLoop 3 ⟨.parseHeaders, .start, req.setReceiveTime t⟩
        (buf.retrieveUntil (line.length + 2)) t ∧
      (buf.retrieveUntil (line.length + 2)).readable = rest := by
  constructor
  · rw [parseRequest_of_line h hcr hline, byteAt_behind h]
    rfl
  · rw [Buffer.readable_retrieveUntil, h]
    simp

/-! ### The body -/

/-- What the body phase comes to with the given `Content-Length`. -/
def bodyResult (req : HttpRequest) (buf : Buffer) :
    Option Bytes → Except Fault (Bool × HttpContext × Buffer)
  | none => .ok (true, ⟨.finish, .endLF, req⟩, buf)
  | some v =>
    match stoul v with
    | .error f => .error f
    | .ok len =>
      if len ≤ buf.readableBytes then
        .ok (true, ⟨.finish, .endLF, req.setBody (slice buf.readable 0 len)⟩, buf.retrieve len)
      else .ok (true, ⟨.recvBody, .endLF, req⟩, buf)

theorem parseLoop_recvBody (req : HttpRequest) (buf : Buffer) (t : Timestamp) :
    parseLoop (n + 2) ⟨.recvBody, .endLF, req⟩ buf t =
      bodyResult req buf req.headers[ascii "Content-Length"]? := by
  rw [parseLoop]
  simp only [recvBody]
  cases req.headers[ascii "Content-Length"]? with
  | none => rfl
  | some v =>
    dsimp only [bodyResult]
    cases stoul v with
    | error f => rfl
    | ok len =>
      by_cases hlen : len ≤ buf.readableBytes
      · simp only [if_pos hlen]
        rfl
      · simp only [if_neg hlen]

/-- A body phase that returns has left the header fields alone. -/
theorem bodyResult_ok {v : Option Bytes} {ok : Bool} {ctx : HttpContext} {buf' : Buffer}
    (h : bodyResult req buf v = .ok (ok, ctx, buf')) :
    ok = true ∧ ctx.request.headers = req.headers ∧
      (ctx.state = .recvBody ∨ ctx.state = .finish) := by
  unfold bodyResult at h
  split at h
  · cases h
    exact ⟨rfl, rfl, .inr rfl⟩
  · split at h
    · cases h
    · split at h <;> cases h
      · exact ⟨rfl, rfl, .inr rfl⟩
      · exact ⟨rfl, rfl, .inl rfl⟩

/-! ### The header section -/

/-- What becomes of a request whose header section is complete. -/
theorem parseLoop_of_section {lines : List HeaderLine} (h : IsSection lines buf.readable)
    (req : HttpRequest) (t : Timestamp) :
    ∃ used, 0 < used ∧ used ≤ buf.readableBytes ∧
      parseLoop 3 ⟨.parseHeaders, .start, req⟩ buf t =
        if req.method = .kPost then
          parseLoop 2 ⟨.recvBody, .endLF, req.addFields (lines.map HeaderLine.stored)⟩
            (buf.retrieve used) t
        else .ok (true, ⟨.finish, .endLF, req.addFields (lines.map HeaderLine.stored)⟩,
          buf.retrieve used) := by
  obtain ⟨used, hpos, hle, hloop⟩ := headerLoop_of_section h
  rw [Buffer.readable_length] at hle
  refine ⟨used, hpos, hle, ?_⟩
  have hmethod : (req.addFields (lines.map HeaderLine.stored)).method = req.method := by
    rw [HttpRequest.addFields_eq]
  rw [parseLoop]
  simp only [parseHeaders_of_readable, hloop req, hmethod]
  rfl

theorem parseLoop_of_again {h : ParseState} (hscan : scan .start buf.readable = .again h)
    (req : HttpRequest) (t : Timestamp) :
    ∃ ctx, parseLoop 3 ⟨.parseHeaders, .start, req⟩ buf t = .ok (true, ctx, buf) ∧
      ctx.state = .parseHeaders := by
  obtain ⟨r, hr, hverdict⟩ := headerLoop_start buf.readable req
  rw [hscan] at hverdict
  rw [parseLoop]
  simp only [parseHeaders_of_readable, hr]
  cases r with
  | again s req => exact ⟨_, rfl, rfl⟩
  | error h req => cases hverdict
  | success req used => cases hverdict

theorem parseLoop_of_error (hscan : scan .start buf.readable = .error) (req : HttpRequest)
    (t : Timestamp) :
    ∃ ctx, parseLoop 3 ⟨.parseHeaders, .start, req⟩ buf t = .ok (false, ctx, buf) := by
  obtain ⟨r, hr, hverdict⟩ := headerLoop_start buf.readable req
  rw [hscan] at hverdict
  rw [parseLoop]
  simp only [parseHeaders_of_readable, hr]
  cases r with
  | again s req => cases hverdict
  | error h req => exact ⟨_, rfl⟩
  | success req used => cases hverdict

theorem requestLine_headers (req : HttpRequest) (bytes : Bytes) (crlf : Nat) :
    (requestLine req bytes crlf).2.headers = req.headers := by
  unfold requestLine
  simp only
  split_ifs <;> rfl

/-- The fields of a request that had none. -/
theorem addFields_of_requestLine (hreq : requestLine .new line line.length = (true, req))
    (t : Timestamp) (fields : List (Bytes × Bytes)) (name : Bytes) :
    ((req.setReceiveTime t).addFields fields).headers[name]? =
      HttpRequest.fieldValue name fields := by
  have hheaders := requestLine_headers .new line line.length
  rw [hreq] at hheaders
  rw [HttpRequest.addFields_getElem?, show (req.setReceiveTime t).headers = ∅ from hheaders]
  simp

/-- A request with a complete header section. -/
theorem parseRequest_of_section {m : Method} {lines : List HeaderLine}
    (hread : buf.readable = line ++ (CRLF ++ rest)) (hcr : CR ∉ line) (hline : IsRequestLine m line)
    (hsection : IsSection lines rest) (t : Timestamp) :
    ∃ req buf', (∀ name : Bytes, req.headers[name]? =
        HttpRequest.fieldValue name (lines.map HeaderLine.stored)) ∧
      new.parseRequest buf t =
        if m = .kPost then
          bodyResult req buf'
            (HttpRequest.fieldValue (ascii "Content-Length") (lines.map HeaderLine.stored))
        else .ok (true, ⟨.finish, .endLF, req⟩, buf') := by
  obtain ⟨req, hreq, hmethod⟩ := hline.requestLine .new
  have hread : buf.readable = line ++ CR :: LF :: rest := hread
  obtain ⟨hparse, hrest⟩ := parseRequest_of_crlf (t := t) hread hcr hreq
  have hvalue := addFields_of_requestLine hreq t (lines.map HeaderLine.stored)
  rw [← hrest] at hsection
  obtain ⟨used, -, -, hloop⟩ := parseLoop_of_section hsection (req.setReceiveTime t) t
  refine ⟨_, (buf.retrieveUntil (line.length + 2)).retrieve used, hvalue, ?_⟩
  rw [hparse, hloop, show (req.setReceiveTime t).method = m from hmethod, parseLoop_recvBody,
    hvalue]

/-! ### All of it -/

/-- Everything that a call on a fresh context can come to. -/
inductive Outcome (buf : Buffer) : Except Fault (Bool × HttpContext × Buffer) → Prop
  | noLine : CR ∉ buf.readable → Outcome buf (.ok (true, new, buf))
  | refused {ctx buf'} : Outcome buf (.ok (false, ctx, buf'))
  | looksOut {line m} : buf.readable = line ++ [CR] → CR ∉ line → IsRequestLine m line →
    buf.writableBytes = 0 → Outcome buf (.error .outOfBounds)
  | staleLF {line m ctx buf'} : buf.readable = line ++ [CR] → CR ∉ line → IsRequestLine m line →
    ctx.state = .parseHeaders → Outcome buf (.ok (true, ctx, buf'))
  | unfinished {line rest m h ctx buf'} : buf.readable = line ++ (CRLF ++ rest) → CR ∉ line →
    IsRequestLine m line → scan .start rest = .again h → ctx.state = .parseHeaders →
    Outcome buf (.ok (true, ctx, buf'))
  | complete {line rest lines m req buf'} : buf.readable = line ++ (CRLF ++ rest) → CR ∉ line →
    IsRequestLine m line → m ≠ .kPost → IsSection lines rest →
    (∀ name : Bytes, req.headers[name]? =
      HttpRequest.fieldValue name (lines.map HeaderLine.stored)) →
    Outcome buf (.ok (true, ⟨.finish, .endLF, req⟩, buf'))
  | post {line rest lines req buf'} : buf.readable = line ++ (CRLF ++ rest) → CR ∉ line →
    IsRequestLine .kPost line → IsSection lines rest →
    (∀ name : Bytes, req.headers[name]? =
      HttpRequest.fieldValue name (lines.map HeaderLine.stored)) →
    Outcome buf (bodyResult req buf'
      (HttpRequest.fieldValue (ascii "Content-Length") (lines.map HeaderLine.stored)))

/-- The byte behind the readable range is missing only where the vector ends. -/
theorem byteAt_end (hread : buf.readable = line ++ [CR]) :
    buf.byteAt (line.length + 1) = none ↔ buf.writableBytes = 0 := by
  have hlen := congrArg List.length hread
  have hreader := buf.reader_le
  have hwriter := buf.writer_le
  rw [Buffer.readable_length, List.length_append, List.length_singleton] at hlen
  unfold Buffer.readableBytes at hlen
  rw [Buffer.byteAt, List.getElem?_eq_none_iff, Buffer.writableBytes]
  omega

theorem outcome_of_crlf {m : Method} (hread : buf.readable = line ++ (CRLF ++ rest))
    (hcr : CR ∉ line) (hline : IsRequestLine m line) (t : Timestamp) :
    Outcome buf (new.parseRequest buf t) := by
  obtain ⟨req, hreq, hmethod⟩ := hline.requestLine .new
  have hread' : buf.readable = line ++ CR :: LF :: rest := hread
  obtain ⟨hparse, hrest⟩ := parseRequest_of_crlf (t := t) hread' hcr hreq
  rw [hparse]
  cases hscan : scan .start rest with
  | again h =>
    obtain ⟨ctx, hloop, hstate⟩ := parseLoop_of_again (hrest.symm ▸ hscan) (req.setReceiveTime t) t
    rw [hloop]
    exact .unfinished hread hcr hline hscan hstate
  | error =>
    obtain ⟨ctx, hloop⟩ := parseLoop_of_error (hrest.symm ▸ hscan) (req.setReceiveTime t) t
    rw [hloop]
    exact .refused
  | success =>
    obtain ⟨lines, hsection⟩ := isSection_of_scan hscan
    obtain ⟨req', buf', hvalue, hsec⟩ := parseRequest_of_section hread hcr hline hsection t
    rw [← hparse, hsec]
    by_cases hpost : m = .kPost
    · rw [if_pos hpost]
      exact .post hread hcr (hpost ▸ hline) hsection hvalue
    · rw [if_neg hpost]
      exact .complete hread hcr hline hpost hsection hvalue

theorem parseRequest_outcome (buf : Buffer) (t : Timestamp) :
    Outcome buf (new.parseRequest buf t) := by
  by_cases hcr : CR ∈ buf.readable
  · obtain ⟨line, rest, hread, hfree⟩ := List.eq_append_cons_of_mem hcr
    have hiff := requestLine_iff .new line
    generalize hr : requestLine HttpRequest.new line line.length = r at hiff
    obtain ⟨_ | _, req⟩ := r
    · obtain ⟨ctx, hparse, -⟩ := parseRequest_of_badLine (t := t) hread hfree (by rw [hr])
      rw [hparse]
      exact .refused
    · obtain ⟨m, hm⟩ := hiff.mp rfl
      cases rest with
      | cons c rest =>
        by_cases hc : c = LF
        · exact outcome_of_crlf (hc ▸ hread) hfree hm t
        · rw [parseRequest_of_line hread hfree hr, byteAt_behind hread]
          dsimp only
          rw [if_neg hc]
          exact .refused
      | nil =>
        rw [parseRequest_of_line hread hfree hr]
        cases hbyte : buf.byteAt (line.length + 1) with
        | none => exact .looksOut hread hfree hm ((byteAt_end hread).mp hbyte)
        | some c =>
          dsimp only
          split
          · -- what lies behind the readable range happens to be an LF
            have hnil : (buf.retrieveUntil (line.length + 2)).readable = [] := by
              rw [Buffer.readable_retrieveUntil, hread]
              simp
            obtain ⟨ctx, hloop, hstate⟩ := parseLoop_of_again (h := .start) (by rw [hnil]; rfl)
              (req.setReceiveTime t) t
            rw [hloop]
            exact .staleLF hread hfree hm hstate
          · exact .refused
  · rw [parseRequest_of_noCR hcr]
    exact .noLine hcr

end HttpContext
end MuduoX
