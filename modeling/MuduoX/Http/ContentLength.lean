import MuduoX.Http.FreshRequest

/-! What becomes of a request that cannot be served, above all of the text behind
`Content-Length`.

The value goes to `std::stoul` as the peer has sent it. What is no number, or no number that
`stoul` can hold, is an exception that nobody catches; what begins with a number is taken for that
number. So a request is never refused for its length. -/

namespace MuduoX
namespace HttpContext

/-- A sequence of decimal digits that `size_t` can represent. -/
def Decimal (v : Bytes) : Prop :=
  v ≠ [] ∧ (∀ b ∈ v, isDigit b) ∧ decimal v < 2 ^ 64

/-- The bytes hold a POST request with a complete header section, `v` its `Content-Length`. -/
def Announces (bytes v : Bytes) : Prop :=
  ∃ line rest lines, bytes = line ++ (CRLF ++ rest) ∧ CR ∉ line ∧ IsRequestLine .kPost line ∧
    IsSection lines rest ∧
    HttpRequest.fieldValue (ascii "Content-Length") (lines.map HeaderLine.stored) = some v

/-- The CR of a request line is the last byte that fits into the vector. -/
def LooksOut (buf : Buffer) : Prop :=
  buf.writableBytes = 0 ∧
    ∃ line m, buf.readable = line ++ [CR] ∧ CR ∉ line ∧ IsRequestLine m line

/-- The call returns, and it returns false when what it has been told for a length is none. -/
def Reported (buf : Buffer) (t : Timestamp) : Prop :=
  ∃ ok ctx buf', new.parseRequest buf t = .ok (ok, ctx, buf') ∧
    ∀ v, Announces buf.readable v → ¬ Decimal v → ok = false

variable {buf : Buffer} {t : Timestamp} {line rest v : Bytes} {req : HttpRequest}

theorem Decimal.stoul (h : Decimal v) : MuduoX.stoul v = .ok (decimal v) :=
  stoul_digits h.1 h.2.1 h.2.2

theorem LooksOut.fault (h : LooksOut buf) :
    new.parseRequest buf t = .error .outOfBounds := by
  obtain ⟨hfull, line, m, hread, hcr, hline⟩ := h
  obtain ⟨req, hreq, -⟩ := hline.requestLine .new
  rw [parseRequest_of_line hread hcr hreq, (byteAt_end hread).mpr hfull]

/-- Whatever the length says, a call that returns has accepted the request. -/
theorem Announces.accepted (h : Announces buf.readable v) {ok : Bool} {ctx : HttpContext}
    {buf' : Buffer} (hparse : new.parseRequest buf t = .ok (ok, ctx, buf')) : ok = true := by
  obtain ⟨line, rest, lines, hread, hcr, hline, hsection, hvalue⟩ := h
  obtain ⟨req, buf₁, -, hsec⟩ := parseRequest_of_section hread hcr hline hsection t
  rw [if_pos rfl, hparse] at hsec
  exact (bodyResult_ok hsec.symm).1

/-- Nothing but a look behind the vector and the length can stop a call. -/
theorem returns_of_decimal (hout : ¬ LooksOut buf)
    (hlength : ∀ v, Announces buf.readable v → Decimal v) :
    ∃ r, new.parseRequest buf t = .ok r := by
  have houtcome := parseRequest_outcome buf t
  generalize new.parseRequest buf t = o at houtcome
  cases houtcome with
  | looksOut hread hcr hline hfull => exact absurd ⟨hfull, _, _, hread, hcr, hline⟩ hout
  | @post line rest lines req buf' hread hcr hline hsection =>
    cases hvalue : HttpRequest.fieldValue (ascii "Content-Length")
        (lines.map HeaderLine.stored) with
    | none => exact ⟨_, rfl⟩
    | some v =>
      have hdecimal := hlength v ⟨_, _, _, hread, hcr, hline, hsection, hvalue⟩
      simp only [bodyResult, hdecimal.stoul]
      split
      · exact ⟨_, rfl⟩
      · exact ⟨_, rfl⟩
  | noLine | refused | staleLF | unfinished | complete => exact ⟨_, rfl⟩

/-- A call on a fresh context returns, and refuses what is no length, exactly when the byte behind
the CR is in the vector and every length is a decimal number. -/
theorem reported_iff (buf : Buffer) (t : Timestamp) :
    Reported buf t ↔ ¬ LooksOut buf ∧ ∀ v, Announces buf.readable v → Decimal v := by
  constructor
  · rintro ⟨ok, ctx, buf', hparse, hfalse⟩
    refine ⟨fun hout => ?_, fun v hv => by_contra fun hdec => ?_⟩
    · rw [hout.fault] at hparse
      cases hparse
    · cases (hfalse v hv hdec).symm.trans (hv.accepted hparse)
  · rintro ⟨hout, hlength⟩
    obtain ⟨⟨ok, ctx, buf'⟩, hparse⟩ := returns_of_decimal (t := t) hout hlength
    exact ⟨ok, ctx, buf', hparse, fun v hv hdec => absurd (hlength v hv) hdec⟩

/-- A POST request whose length is the given text. -/
def postOf (length : String) : Buffer :=
  (Buffer.new 128).append
    (ascii ("POST / HTTP/1.1\r\nContent-Length: " ++ length ++ "\r\n\r\nhello"))

/-- A length that is no number, or none that fits, is an exception; a number followed by something
else, or a negative one, is accepted. -/
theorem not_reported :
    new.parseRequest (postOf "abc") 0 = .error .invalidArgument ∧
    new.parseRequest (postOf "") 0 = .error .invalidArgument ∧
    new.parseRequest (postOf "99999999999999999999") 0 = .error .outOfRange ∧
    (new.parseRequest (postOf "4abc") 0).map (fun r => (r.1, r.2.1.state)) = .ok (true, .finish) ∧
    (new.parseRequest (postOf "-1") 0).map (fun r => (r.1, r.2.1.state)) = .ok (true, .recvBody) ∧
    ¬ Reported (postOf "abc") 0 := by
  have habc : new.parseRequest (postOf "abc") 0 = .error .invalidArgument := by
    decide +kernel
  refine ⟨habc, by decide +kernel, by decide +kernel, by decide +kernel, by decide +kernel, ?_⟩
  rintro ⟨ok, ctx, buf', hparse, -⟩
  cases habc.symm.trans hparse

end HttpContext
end MuduoX
