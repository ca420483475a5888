import MuduoX.Http.FreshRequest
import MuduoX.Http.Message

/-! What a header section leaves in the request, and when it counts as complete.

The values are clean whatever has been sent. A name begins with a byte that is not looked at, and
the empty line is an empty line only behind a header line: at the beginning of the section it is
skipped. -/

namespace MuduoX
namespace HttpContext

/-! ### Names and values -/

def CleanName (name : Bytes) : Prop :=
  name ≠ [] ∧ ∀ b ∈ name, b ≠ colon ∧ b ≠ CR ∧ b ≠ LF

def CleanValue (v : Bytes) : Prop :=
  (∀ b ∈ v, b ≠ CR ∧ b ≠ LF) ∧ (∀ b ∈ v.head?, isspace b = false) ∧
    ∀ b ∈ v.getLast?, isspace b = false

def CleanFields (headers : HeaderMap) : Prop :=
  ∀ name v : Bytes, headers[name]? = some v → CleanName name ∧ CleanValue v

variable {buf buf' : Buffer} {t : Timestamp} {line rest : Bytes} {ctx : HttpContext}
  {lines : List HeaderLine} {req : HttpRequest}

/-- A CR or LF that was taken for the first byte of the value is trimmed away. -/
theorem cleanValue_stored (l : HeaderLine) : CleanValue l.stored.2 := by
  refine ⟨fun b hb => ?_, HttpRequest.head_trim _, HttpRequest.getLast_trim _⟩
  have hmem : b ∈ HttpRequest.trim (l.valueFirst :: l.value) := hb
  cases hspace : isspace l.valueFirst with
  | true =>
    rw [HttpRequest.trim_cons_of_isspace hspace] at hmem
    exact l.value_free b (HttpRequest.mem_of_mem_trim hmem)
  | false =>
    obtain rfl | hb := List.mem_cons.mp (HttpRequest.mem_of_mem_trim hmem)
    · refine ⟨?_, ?_⟩
      · intro h
        rw [h] at hspace
        exact absurd hspace (by decide)
      · intro h
        rw [h] at hspace
        exact absurd hspace (by decide)
    · exact l.value_free b hb

theorem cleanName_stored {l : HeaderLine} (hcr : l.first ≠ CR) :
    CleanName l.stored.1 ↔ l.first ≠ colon ∧ l.first ≠ LF := by
  constructor
  · rintro ⟨-, h⟩
    obtain ⟨hcolon, -, hlf⟩ := h l.first List.mem_cons_self
    exact ⟨hcolon, hlf⟩
  · rintro ⟨hcolon, hlf⟩
    exact ⟨List.cons_ne_nil _ _, List.forall_mem_cons.mpr ⟨⟨hcolon, hcr, hlf⟩, l.name_free⟩⟩

/-- The fields of a request that a call has completed. -/
theorem section_of_complete (h : new.parseRequest buf t = .ok (true, ctx, buf'))
    (hgot : ctx.gotAll) :
    ∃ line rest lines, buf.readable = line ++ (CRLF ++ rest) ∧ CR ∉ line ∧ IsSection lines rest ∧
      ∀ name : Bytes, ctx.request.headers[name]? =
        HttpRequest.fieldValue name (lines.map HeaderLine.stored) := by
  have hstate : ctx.state = .finish := of_decide_eq_true hgot
  have houtcome := parseRequest_outcome buf t
  rw [h] at houtcome
  generalize hr : Except.ok (true, ctx, buf') = r at houtcome
  cases houtcome with
  | noLine =>
    cases hr
    cases hstate
  | refused | looksOut => cases hr
  | staleLF _ _ _ hheaders | unfinished _ _ _ _ hheaders =>
    cases hr
    rw [hheaders] at hstate
    cases hstate
  | complete hread hcr hline hpost hsection hvalue =>
    cases hr
    exact ⟨_, _, _, hread, hcr, hsection, hvalue⟩
  | post hread hcr hline hsection hvalue =>
    obtain ⟨-, hheaders, -⟩ := bodyResult_ok hr.symm
    exact ⟨_, _, _, hread, hcr, hsection, by rwa [hheaders]⟩

/-- The names of stored fields are the names of the lines. -/
theorem cleanFields_iff {headers : HeaderMap} (hfollow : HeaderLine.Follow .start lines)
    (hvalue : ∀ name : Bytes, headers[name]? =
      HttpRequest.fieldValue name (lines.map HeaderLine.stored)) :
    CleanFields headers ↔ ∀ l ∈ lines, l.first ≠ colon ∧ l.first ≠ LF := by
  have hcr := hfollow.first_ne
  constructor
  · intro h l hl
    have hmem := List.mem_map_of_mem (f := HeaderLine.stored) hl
    cases hfield : HttpRequest.fieldValue l.stored.1 (lines.map HeaderLine.stored) with
    | none => exact absurd rfl (HttpRequest.fieldValue_eq_none hfield _ hmem)
    | some v =>
      exact (cleanName_stored (hcr l hl)).mp (h _ v ((hvalue _).trans hfield)).1
  · intro h name v hv
    rw [hvalue] at hv
    obtain ⟨l, hl, hstored⟩ := List.mem_map.mp (HttpRequest.fieldValue_mem hv)
    have hname := (cleanName_stored (hcr l hl)).mpr (h l hl)
    have hclean := cleanValue_stored l
    rw [hstored] at hname hclean
    exact ⟨hname, hclean⟩

/-- The fields of a completed request are clean exactly when no line behind the request line
begins with a colon or, behind another header line, with an LF. -/
theorem cleanFields_of_complete (buf buf' : Buffer) (t : Timestamp) (ctx : HttpContext)
    (h : new.parseRequest buf t = .ok (true, ctx, buf')) (hgot : ctx.gotAll) :
    CleanFields ctx.request.headers ↔
      ∀ line rest lines, buf.readable = line ++ (CRLF ++ rest) → CR ∉ line →
        IsSection lines rest → ∀ l ∈ lines, l.first ≠ colon ∧ l.first ≠ LF := by
  obtain ⟨line, rest, lines, hread, hcr, hsection, hvalue⟩ := section_of_complete h hgot
  constructor
  · intro hclean line' rest' lines' hread' hcr' hsection'
    obtain ⟨rfl, hrest⟩ := line_unique (hread.symm.trans hread') hcr hcr'
    obtain rfl := List.cons_inj_right LF |>.mp hrest
    have hvalue' := fun name => (hvalue name).trans (hsection.fieldValue_eq hsection' name)
    obtain ⟨blank, behind, -, -, hfollow⟩ := hsection'
    exact (cleanFields_iff hfollow hvalue').mp hclean
  · intro hfirst
    have hlines := hfirst line rest lines hread hcr hsection
    obtain ⟨blank, behind, -, -, hfollow⟩ := hsection
    exact (cleanFields_iff hfollow hvalue).mpr hlines

/-- What a call on these bytes has completed holds this value under this name. -/
def Stores (request : String) (name value : Bytes) : Prop :=
  (new.parseRequest ((Buffer.new 64).append (ascii request)) 0).map
    (fun r => (r.1, r.2.1.gotAll, r.2.1.request.headers[name]?)) = .ok (true, true, some value)

instance (request : String) (name value : Bytes) : Decidable (Stores request name value) :=
  inferInstanceAs (Decidable (_ = _))

theorem Stores.complete {request : String} {name value : Bytes} (h : Stores request name value) :
    ∃ ctx buf', new.parseRequest ((Buffer.new 64).append (ascii request)) 0 =
        .ok (true, ctx, buf') ∧ ctx.gotAll ∧ ctx.request.headers[name]? = some value := by
  unfold Stores at h
  generalize new.parseRequest ((Buffer.new 64).append (ascii request)) 0 = r at h
  cases r with
  | error f => cases h
  | ok r =>
    obtain ⟨ok, ctx, buf'⟩ := r
    injection h with h
    injection h with hok h
    injection h with hgot hvalue
    subst hok
    exact ⟨ctx, buf', rfl, hgot, hvalue⟩

theorem cleanFields_of_complete_get :
    ∃ ctx buf', new.parseRequest ((Buffer.new 64).append (ascii "GET / HTTP/1.1\r\nA: b\r\n\r\n"))
        0 = .ok (true, ctx, buf') ∧
      (CleanFields ctx.request.headers ↔
        ∀ line rest lines,
          ((Buffer.new 64).append (ascii "GET / HTTP/1.1\r\nA: b\r\n\r\n")).readable =
            line ++ (CRLF ++ rest) → CR ∉ line →
          IsSection lines rest → ∀ l ∈ lines, l.first ≠ colon ∧ l.first ≠ LF) := by
  have hstores : Stores "GET / HTTP/1.1\r\nA: b\r\n\r\n" (ascii "A") (ascii "b") := by
    decide +kernel
  obtain ⟨ctx, buf', hparse, hgot, -⟩ := hstores.complete
  exact ⟨ctx, buf', hparse, cleanFields_of_complete _ buf' 0 ctx hparse hgot⟩

/-- An LF or a colon at the beginning of a line becomes part of a name. -/
theorem not_cleanFields :
    (∃ ctx buf', new.parseRequest ((Buffer.new 64).append
        (ascii "GET / HTTP/1.1\r\nA: b\r\n\nX: c\r\n\r\n")) 0 = .ok (true, ctx, buf') ∧
      ctx.gotAll ∧ ¬ CleanFields ctx.request.headers) ∧
    ∃ ctx buf', new.parseRequest ((Buffer.new 64).append
        (ascii "GET / HTTP/1.1\r\n:: b\r\n\r\n")) 0 = .ok (true, ctx, buf') ∧
      ctx.gotAll ∧ ¬ CleanFields ctx.request.headers := by
  have hlf : Stores "GET / HTTP/1.1\r\nA: b\r\n\nX: c\r\n\r\n" (LF :: ascii "X") (ascii "c") := by
    decide +kernel
  have hcolon : Stores "GET / HTTP/1.1\r\n:: b\r\n\r\n" [colon] (ascii "b") := by
    decide +kernel
  obtain ⟨ctx, buf', hparse, hgot, hvalue⟩ := hlf.complete
  obtain ⟨ctx₁, buf₁, hparse₁, hgot₁, hvalue₁⟩ := hcolon.complete
  refine ⟨⟨ctx, buf', hparse, hgot, fun hclean => ?_⟩, ctx₁, buf₁, hparse₁, hgot₁, fun hclean => ?_⟩
  · exact ((hclean _ _ hvalue).1.2 LF List.mem_cons_self).2.2 rfl
  · exact ((hclean _ _ hvalue₁).1.2 colon List.mem_cons_self).1 rfl

/-! ### The end of the section -/

/-- A call that goes on is behind the header section. -/
def MovesOn (buf : Buffer) (t : Timestamp) : Prop :=
  ∀ ctx buf', new.parseRequest buf t = .ok (true, ctx, buf') →
    ctx.state = .recvBody ∨ ctx.state = .finish

theorem movesOn_of_section {m : Method} (hread : buf.readable = line ++ (CRLF ++ rest))
    (hcr : CR ∉ line) (hline : IsRequestLine m line) (hsection : IsSection lines rest)
    (t : Timestamp) : MovesOn buf t := by
  intro ctx buf' hparse
  obtain ⟨req, buf₁, -, hsec⟩ := parseRequest_of_section hread hcr hline hsection t
  rw [hparse] at hsec
  split at hsec
  · exact (bodyResult_ok hsec.symm).2.2
  · cases hsec
    exact .inr rfl

/-- A call stops in the header section when that is unfinished, and only then. -/
theorem movesOn_iff_finished {m : Method} (hread : buf.readable = line ++ (CRLF ++ rest))
    (hcr : CR ∉ line) (hline : IsRequestLine m line) (t : Timestamp) :
    MovesOn buf t ↔ ¬ IsUnfinished rest := by
  rw [← scan_again_iff]
  obtain ⟨req, hreq, -⟩ := hline.requestLine .new
  have hread' : buf.readable = line ++ CR :: LF :: rest := hread
  obtain ⟨hparse, hrest⟩ := parseRequest_of_crlf (t := t) hread' hcr hreq
  cases hscan : scan .start rest with
  | again h =>
    obtain ⟨ctx, hloop, hstate⟩ := parseLoop_of_again (hrest.symm ▸ hscan) (req.setReceiveTime t) t
    refine iff_of_false (fun hmoves => ?_) (not_not.mpr ⟨h, rfl⟩)
    obtain hbody | hfinish := hmoves ctx _ (hparse.trans hloop)
    · cases hstate.symm.trans hbody
    · cases hstate.symm.trans hfinish
  | error =>
    obtain ⟨ctx, hloop⟩ := parseLoop_of_error (hrest.symm ▸ hscan) (req.setReceiveTime t) t
    refine iff_of_true (fun ctx' buf' hok => ?_) (by simp)
    cases hok.symm.trans (hparse.trans hloop)
  | success =>
    obtain ⟨lines, hsection⟩ := isSection_of_scan hscan
    exact iff_of_true (movesOn_of_section hread hcr hline hsection t) (by simp)

theorem isSection_of_fields {fields : List Field} (hne : fields ≠ []) (rest : Bytes) :
    IsSection (fields.map Field.toLine) (fields.flatMap Field.encode ++ (CRLF ++ rest)) := by
  refine ⟨[], rest, ?_, List.forall_mem_nil _, Field.follow (.inl ⟨rfl, hne⟩)⟩
  rw [Field.flatMap_encode_toLine]
  rfl

/-- A complete section of well-formed lines is passed exactly when it has a line, or when the bytes
behind its empty line cannot be the beginning of another section. -/
theorem movesOn_iff {m : Method} {fields : List Field}
    (hread : buf.readable = line ++ (CRLF ++ (fields.flatMap Field.encode ++ (CRLF ++ rest))))
    (hcr : CR ∉ line) (hline : IsRequestLine m line) (t : Timestamp) :
    MovesOn buf t ↔ fields ≠ [] ∨ ¬ IsUnfinished rest := by
  cases fields with
  | cons f fields =>
    have hne : f :: fields ≠ [] := List.cons_ne_nil f fields
    exact iff_of_true (movesOn_of_section hread hcr hline (isSection_of_fields hne rest) t)
      (.inl hne)
  | nil =>
    rw [movesOn_iff_finished hread hcr hline, ← scan_again_iff, ← scan_again_iff]
    -- the CR and LF of the empty line are skipped as blank lines
    have hskip : scan .start ([] ++ (CRLF ++ rest)) = scan .start rest := rfl
    rw [List.flatMap_nil, hskip]
    simp

theorem isRequestLine_get : IsRequestLine .kGet (ascii "GET / HTTP/1.1") :=
  ⟨ascii "GET", ascii "/", ascii "HTTP/1.1", by decide +kernel, by decide +kernel, by decide,
    by decide +kernel, .inr rfl⟩

theorem movesOn_iff_get :
    MovesOn ((Buffer.new 64).append (ascii "GET / HTTP/1.1\r\n\r\n")) 0 ↔
      ([] : List Field) ≠ [] ∨ ¬ IsUnfinished [] :=
  movesOn_iff (by decide +kernel) (by decide +kernel) isRequestLine_get 0

/-- A request without header fields is waited for. -/
theorem not_movesOn :
    ((Buffer.new 64).append (ascii "GET / HTTP/1.1\r\n\r\n")).readable =
        ascii "GET / HTTP/1.1" ++ (CRLF ++ (([] : List Field).flatMap Field.encode ++
          (CRLF ++ []))) ∧
      ¬ MovesOn ((Buffer.new 64).append (ascii "GET / HTTP/1.1\r\n\r\n")) 0 := by
  refine ⟨by decide +kernel, fun hmoves => ?_⟩
  have hparse : (new.parseRequest ((Buffer.new 64).append (ascii "GET / HTTP/1.1\r\n\r\n")) 0).map
      (fun r => (r.1, r.2.1.state)) = .ok (true, .parseHeaders) := by decide +kernel
  unfold MovesOn at hmoves
  generalize new.parseRequest ((Buffer.new 64).append (ascii "GET / HTTP/1.1\r\n\r\n")) 0 = r
    at hmoves hparse
  cases r with
  | error f => cases hparse
  | ok r =>
    injection hparse with hparse
    injection hparse with hok hstate
    obtain hbody | hfinish := hmoves r.2.1 r.2.2 (by rw [← hok])
    · cases hstate.symm.trans hbody
    · cases hstate.symm.trans hfinish

end HttpContext
end MuduoX
