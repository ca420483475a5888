import MuduoX.Http.Context

/-! What one call of each parsing function does, in terms of the readable bytes alone.

`requestLine` depends only on the line it is given. The header automaton stores fields without
looking at the request (`headerLoop_fields`), and offered more bytes it goes on from where it
stood (`headerLoop_append`). -/

namespace MuduoX
namespace HttpContext

/-! ### The request line -/

theorem requestLine_append (req : HttpRequest) (line u : Bytes) :
    requestLine req (line ++ u) line.length = requestLine req line line.length := by
  have hsp := find_append_left (Nat.le_refl line.length) 0 space u
  have h₁ := find_le line (Nat.zero_le line.length) space
  unfold requestLine
  simp only [hsp]
  generalize find line 0 line.length space = sp at h₁ ⊢
  split
  · rfl
  · have hsp2 := find_append_left (Nat.le_refl line.length) (sp + 1) space u
    have h₂ := find_le line (show sp + 1 ≤ line.length by omega) space
    have h₃ : sp + 1 ≤ find line (sp + 1) line.length space := Nat.le_add_right ..
    rw [slice_append_left h₁]
    simp only [hsp2]
    generalize find line (sp + 1) line.length space = space2 at h₂ h₃ ⊢
    have h₄ := find_le line h₃ question
    simp only [find_append_left h₂, slice_append_left h₂,
      slice_append_left (Nat.le_trans h₄ h₂), slice_append_left (Nat.le_refl line.length)]

/-- No CR has arrived: `parseURI` asks for more. -/
theorem parseURI_again {ctx : HttpContext} {buf : Buffer} (h : CR ∉ buf.readable) :
    ctx.parseURI buf = .ok (.again, ctx, buf) := by
  have hmiss := find_miss [] [] h
  simp only [List.nil_append, List.append_nil, List.length_nil, Nat.zero_add,
    Buffer.readable_length] at hmiss
  simp [parseURI, hmiss]

/-- The line up to the first CR is judged on its own; the byte after the CR decides. -/
theorem parseURI_line {ctx : HttpContext} {buf : Buffer} {line rest : Bytes}
    (h : buf.readable = line ++ CR :: rest) (hcr : CR ∉ line) :
    ctx.parseURI buf =
      match requestLine ctx.request line line.length with
      | (false, req) => .ok (.error, { ctx with request := req }, buf)
      | (true, req) =>
        match buf.byteAt (line.length + 1) with
        | none => .error .outOfBounds
        | some c =>
          if c = LF then
            .ok (.success, { ctx with request := req }, buf.retrieveUntil (line.length + 2))
          else .ok (.error, { ctx with request := req }, buf) := by
  have hlen := congrArg List.length h
  rw [Buffer.readable_length, List.length_append, List.length_cons] at hlen
  have hit := find_hit [] rest buf.readableBytes hcr
    (by simp; omega)
  simp only [List.nil_append, List.length_nil, Nat.zero_add] at hit
  rw [parseURI, if_neg (by omega)]
  simp only [h, hit, requestLine_append]
  exact if_neg (by omega)

/-! ### Turns of the header loop -/

/-- Everything a byte after which the loop goes on can do. -/
inductive HeaderNext (bytes : Bytes) (k : Nat) (ch : Byte) (s : HeaderScan) :
    HeaderScan → Option (Bytes × Bytes) → Prop
  | blank : s.hState = .start → ch = LF ∨ ch = CR → HeaderNext bytes k ch s s none
  | first : s.hState = .start → ¬(ch = LF ∨ ch = CR) →
    HeaderNext bytes k ch s { s with hState := .key, keyStart := some k } none
  | keyEnd : s.hState = .key → ch = colon → s.keyStart.isSome →
    HeaderNext bytes k ch s { s with hState := .colon, keyEnd := some k } none
  | keyByte : s.hState = .key → ch ≠ colon → ¬(ch = LF ∨ ch = CR) → HeaderNext bytes k ch s s none
  | blankAfterColon : s.hState = .colon → ch = space → s.keyEnd.isSome →
    HeaderNext bytes k ch s { s with hState := .spacesAfterColon } none
  | valueFirst : s.hState = .spacesAfterColon →
    HeaderNext bytes k ch s { s with hState := .value, valStart := some k } none
  | valueCR : s.hState = .value → ch = CR → s.valStart.isSome →
    HeaderNext bytes k ch s { s with hState := .cr, valEnd := some k } none
  | valueLF {field} : s.hState = .value → ch = LF →
    HttpRequest.addHeader bytes s.keyStart s.keyEnd (some k) = .ok field →
    HeaderNext bytes k ch s { s with hState := .lf, valEnd := some k } (some field)
  | valueByte : s.hState = .value → ¬(ch = LF ∨ ch = CR) → HeaderNext bytes k ch s s none
  | crLF {field} : s.hState = .cr → ch = LF →
    HttpRequest.addHeader bytes s.keyStart s.keyEnd s.valEnd = .ok field →
    HeaderNext bytes k ch s { s with hState := .lf } (some field)
  | lastCR : s.hState = .lf → ch = CR → HeaderNext bytes k ch s { s with hState := .endCR } none
  | nextLine : s.hState = .lf → ch ≠ CR →
    HeaderNext bytes k ch s { s with hState := .key, keyStart := some k } none
  | skipped : s.hState = .endLF → HeaderNext bytes k ch s s none

theorem cstring_isSome {bs : Bytes} {first : Option Nat} {last : Nat} {v : Bytes}
    (h : cstring bs first (some last) = .ok v) : first.isSome := by
  cases first with
  | none => cases h
  | some => rfl

theorem headerStep_cases {bytes : Bytes} {k : Nat} {ch : Byte} {s s' : HeaderScan} {stored}
    (h : headerStep bytes k ch s = .ok (.next s' stored)) : HeaderNext bytes k ch s s' stored := by
  unfold headerStep at h
  split at h <;> rename_i hst
  · split at h <;> cases h
    · exact .blank hst ‹_›
    · exact .first hst ‹_›
  · split at h
    · cases hc : cstring bytes s.keyStart (some k) <;> rw [hc] at h <;> cases h
      exact .keyEnd hst ‹_› (cstring_isSome hc)
    · split at h <;> cases h
      exact .keyByte hst ‹_› ‹_›
  · split at h
    · cases hc : cstring bytes s.keyEnd (some (k + 1)) <;> rw [hc] at h <;> cases h
      exact .blankAfterColon hst ‹_› (cstring_isSome hc)
    · cases h
  · cases h
    exact .valueFirst hst
  · split at h
    · cases hc : cstring bytes s.valStart (some k) <;> rw [hc] at h <;> cases h
      exact .valueCR hst ‹_› (cstring_isSome hc)
    · split at h
      · cases ha : HttpRequest.addHeader bytes s.keyStart s.keyEnd (some k) <;> rw [ha] at h
        · cases h
        · cases hc : cstring bytes s.valStart (some k) <;> simp only [hc] at h <;> cases h
          exact .valueLF hst ‹_› ha
      · cases h
        exact .valueByte hst (by simp_all)
  · split at h
    · cases ha : HttpRequest.addHeader bytes s.keyStart s.keyEnd s.valEnd <;> rw [ha] at h
      · cases h
      · cases hc : cstring bytes s.valStart s.valEnd <;> simp only [hc] at h <;> cases h
        exact .crLF hst ‹_› ha
    · cases h
  · split at h <;> cases h
    · exact .lastCR hst ‹_›
    · exact .nextLine hst ‹_›
  · split at h <;> cases h
  · cases h
    exact .skipped hst

section
variable {bytes rest : Bytes} {k : Nat} {ch : Byte} {s s' : HeaderScan} {req : HttpRequest}

theorem headerLoop_next {stored} (h : headerStep bytes k ch s = .ok (.next s' stored)) :
    headerLoop bytes (ch :: rest) k s req =
      headerLoop bytes rest (k + 1) s' (req.addFields stored.toList) := by
  rw [headerLoop, h]

theorem headerLoop_fault {f} (h : headerStep bytes k ch s = .error f) :
    headerLoop bytes (ch :: rest) k s req = .error f := by
  rw [headerLoop, h]

theorem headerLoop_error (h : headerStep bytes k ch s = .ok .error) :
    headerLoop bytes (ch :: rest) k s req = .ok (.error s.hState req) := by
  rw [headerLoop, h]

theorem headerLoop_success (h : headerStep bytes k ch s = .ok .success) :
    headerLoop bytes (ch :: rest) k s req = .ok (.success req (k + 1)) := by
  rw [headerLoop, h]

end

/-- No bytes are an unfinished section like any other. -/
theorem parseHeaders_of_readable (ctx : HttpContext) (buf : Buffer) :
    ctx.parseHeaders buf =
      match headerLoop buf.readable buf.readable 0 (.enter ctx.hState) ctx.request with
      | .error f => .error f
      | .ok (.again s req) => .ok (.again, { ctx with hState := s.hState, request := req }, buf)
      | .ok (.error h req) => .ok (.error, { ctx with hState := h, request := req }, buf)
      | .ok (.success req used) =>
        .ok (.success, { ctx with hState := .endLF, request := req }, buf.retrieve used) := by
  unfold parseHeaders
  split
  · rename_i h
    rw [Buffer.readable_eq_nil.mpr h]
    rfl
  · rfl

/-! ### The header automaton and the request it fills -/

def HeaderResult.withRequest (req : HttpRequest) : HeaderResult → HeaderResult
  | .again s _ => .again s req
  | .error h _ => .error h req
  | .success _ used => .success req used

/-- The automaton stores the same fields whatever the request already holds. -/
theorem headerLoop_fields (bytes rest : Bytes) (k : Nat) (s : HeaderScan) :
    ∃ (o : Except Fault HeaderResult) (fields : List (Bytes × Bytes)), ∀ req,
      headerLoop bytes rest k s req = o.map (HeaderResult.withRequest (req.addFields fields)) := by
  induction rest generalizing k s with
  | nil => exact ⟨.ok (.again s .new), [], fun _ => rfl⟩
  | cons ch rest ih =>
    match hstep : headerStep bytes k ch s with
    | .error f => exact ⟨.error f, [], fun req => headerLoop_fault hstep⟩
    | .ok (.next s' stored) =>
      obtain ⟨o, fields, h⟩ := ih (k + 1) s'
      refine ⟨o, stored.toList ++ fields, fun req => ?_⟩
      rw [headerLoop_next hstep, h, HttpRequest.addFields_append]
    | .ok .error => exact ⟨.ok (.error s.hState .new), [], fun req => headerLoop_error hstep⟩
    | .ok .success => exact ⟨.ok (.success .new (k + 1)), [], fun req => headerLoop_success hstep⟩

/-! ### More bytes -/

/-- The positions of a scan that has reached offset `k`. -/
def HeaderScan.Below (s : HeaderScan) (k : Nat) : Prop :=
  (∀ i ∈ s.keyEnd, i ≤ k) ∧ ∀ i ∈ s.valEnd, i ≤ k

theorem HeaderScan.below_enter (h : ParseState) (k : Nat) : (HeaderScan.enter h).Below k := by
  simp [Below, enter]

theorem cstring_append {bs : Bytes} (first : Option Nat) {last : Option Nat}
    (h : ∀ i ∈ last, i ≤ bs.length) (u : Bytes) :
    cstring (bs ++ u) first last = cstring bs first last := by
  cases first <;> cases last <;> simp only [cstring]
  rw [slice_append_left (h _ rfl)]

theorem addHeader_append {bs : Bytes} (start : Option Nat) {colon last : Option Nat}
    (hc : ∀ i ∈ colon, i ≤ bs.length) (hl : ∀ i ∈ last, i ≤ bs.length) (u : Bytes) :
    HttpRequest.addHeader (bs ++ u) start colon last =
      HttpRequest.addHeader bs start colon last := by
  simp only [HttpRequest.addHeader, cstring_append _ hc, cstring_append _ hl]

/-- A step looks only at bytes that the scan has passed. -/
theorem headerStep_append {bytes : Bytes} {k : Nat} {s : HeaderScan} (hs : s.Below k)
    (hk : k < bytes.length) (ch : Byte) (u : Bytes) :
    headerStep (bytes ++ u) k ch s = headerStep bytes k ch s := by
  have h₁ : ∀ i ∈ some k, i ≤ bytes.length := by simp; omega
  have h₂ : ∀ i ∈ some (k + 1), i ≤ bytes.length := by simp; omega
  have h₃ : ∀ i ∈ s.keyEnd, i ≤ bytes.length := fun i hi => (hs.1 i hi).trans hk.le
  have h₄ : ∀ i ∈ s.valEnd, i ≤ bytes.length := fun i hi => (hs.2 i hi).trans hk.le
  simp only [headerStep, cstring_append _ h₁, cstring_append _ h₂, cstring_append _ h₄,
    addHeader_append _ h₃ h₁, addHeader_append _ h₃ h₄]

theorem HeaderNext.below {bytes : Bytes} {k : Nat} {ch : Byte} {s s' : HeaderScan} {stored}
    (h : HeaderNext bytes k ch s s' stored) (hs : s.Below k) : s'.Below (k + 1) := by
  have hs : s.Below (k + 1) :=
    ⟨fun i hi => Nat.le_succ_of_le (hs.1 i hi), fun i hi => Nat.le_succ_of_le (hs.2 i hi)⟩
  cases h with
  | keyEnd => exact ⟨by simp, hs.2⟩
  | valueCR | valueLF => exact ⟨hs.1, by simp⟩
  | _ => exact hs

/-- Offered more bytes, the loop goes on from where it stood, and keeps a verdict it has given. -/
theorem headerLoop_append {bytes rest : Bytes} {k : Nat} {s : HeaderScan} (req : HttpRequest)
    (hs : s.Below k) (hk : k + rest.length = bytes.length) (u : Bytes) :
    headerLoop (bytes ++ u) (rest ++ u) k s req =
      match headerLoop bytes rest k s req with
      | .ok (.again s' req') => headerLoop (bytes ++ u) u (k + rest.length) s' req'
      | o => o := by
  induction rest generalizing k s req with
  | nil => simp [headerLoop]
  | cons ch rest ih =>
    rw [List.length_cons] at hk
    have happ : headerStep (bytes ++ u) k ch s = headerStep bytes k ch s :=
      headerStep_append hs (by omega) ch u
    match hstep : headerStep bytes k ch s with
    | .error f =>
      rw [List.cons_append, headerLoop_fault (happ.trans hstep), headerLoop_fault hstep]
    | .ok (.next s' stored) =>
      rw [List.cons_append, headerLoop_next (happ.trans hstep), headerLoop_next hstep,
        ih _ ((headerStep_cases hstep).below hs) (by omega)]
      simp [Nat.add_assoc, Nat.add_comm 1]
    | .ok .error =>
      rw [List.cons_append, headerLoop_error (happ.trans hstep), headerLoop_error hstep]
    | .ok .success =>
      rw [List.cons_append, headerLoop_success (happ.trans hstep), headerLoop_success hstep]

/-- A complete section is at least one byte, and no more than was there. -/
theorem headerLoop_used {bytes rest : Bytes} {k : Nat} {s : HeaderScan} {req req' : HttpRequest}
    {used : Nat} (h : headerLoop bytes rest k s req = .ok (.success req' used)) :
    k < used ∧ used ≤ k + rest.length := by
  induction rest generalizing k s req with
  | nil => cases h
  | cons ch rest ih =>
    rw [List.length_cons]
    match hstep : headerStep bytes k ch s with
    | .error f => rw [headerLoop_fault hstep] at h; cases h
    | .ok (.next s' stored) =>
      rw [headerLoop_next hstep] at h
      have := ih h
      omega
    | .ok .error => rw [headerLoop_error hstep] at h; cases h
    | .ok .success =>
      rw [headerLoop_success hstep] at h
      cases h
      omega

/-! ### Scanning a section again

A call that finds the section incomplete leaves its bytes in the buffer, and the next call scans
them again from the automaton state that was kept. Two of these states do no harm. -/

/-- While only blank lines have been seen nothing has happened. -/
theorem headerLoop_again_start {bytes rest : Bytes} {k : Nat} {s s' : HeaderScan}
    {req req' : HttpRequest} (h : headerLoop bytes rest k s req = .ok (.again s' req'))
    (hs : s'.hState = .start) : s' = s ∧ req' = req := by
  induction rest generalizing k s req with
  | nil => cases h; exact ⟨rfl, rfl⟩
  | cons ch rest ih =>
    match hstep : headerStep bytes k ch s with
    | .error f => rw [headerLoop_fault hstep] at h; cases h
    | .ok (.next t stored) =>
      rw [headerLoop_next hstep] at h
      obtain ⟨rfl, rfl⟩ := ih h
      cases headerStep_cases hstep <;> simp_all
    | .ok .error => rw [headerLoop_error hstep] at h; cases h
    | .ok .success => rw [headerLoop_success hstep] at h; cases h

/-- At a byte that begins a name, the states `start` and `lf` do the same. -/
theorem headerLoop_enter_lf {bytes rest : Bytes} {k : Nat} {ch : Byte} (req : HttpRequest)
    (h : ¬(ch = LF ∨ ch = CR)) :
    headerLoop bytes (ch :: rest) k (.enter .lf) req =
      headerLoop bytes (ch :: rest) k (.enter .start) req := by
  rw [not_or] at h
  rw [headerLoop, headerLoop]
  simp [headerStep, HeaderScan.enter, h.1, h.2]

/-- Complete lines scanned a second time store the fields they stored the first time. -/
theorem headerLoop_replay {r : Bytes} {h : ParseState} {s : HeaderScan} {req req' : HttpRequest}
    (hr : headerLoop r r 0 (.enter h) req = .ok (.again s req')) (u : Bytes) :
    headerLoop (r ++ u) (r ++ u) 0 (.enter h) req' =
      headerLoop (r ++ u) (r ++ u) 0 (.enter h) req := by
  obtain ⟨o, fields, ho⟩ := headerLoop_fields r r 0 (.enter h)
  have hreq := ho req
  rw [hr] at hreq
  match o, hreq with
  | .ok (.again t _), hreq =>
    cases hreq
    have htwice := ho (req.addFields fields)
    rw [HttpRequest.addFields_addFields_self] at htwice
    rw [headerLoop_append _ (HeaderScan.below_enter h 0) (Nat.zero_add _) u,
      headerLoop_append _ (HeaderScan.below_enter h 0) (Nat.zero_add _) u, htwice, hr]
    rfl

end HttpContext
end MuduoX
