import MuduoX.Http.Automaton

/-! What a header section is: the language of the header automaton.

`IsSection` writes it down as blank lines, header lines and an empty line. The automaton takes
every such section (`headerLoop_of_section`), and nothing else from its initial state
(`isSection_of_scan`, by a walk along the states of one line). -/

namespace MuduoX
namespace HttpContext

/-- The bytes begin with a section of these lines. -/
def IsSection (lines : List HeaderLine) (bytes : Bytes) : Prop :=
  ∃ blank rest : Bytes, bytes = blank ++ (lines.flatMap HeaderLine.encode ++ (CRLF ++ rest)) ∧
    (∀ b ∈ blank, b = LF ∨ b = CR) ∧ HeaderLine.Follow .start lines

variable {bytes rest : Bytes} {lines : List HeaderLine}

/-- A section is read field by field, and is at least one byte. -/
theorem headerLoop_of_section (h : IsSection lines bytes) :
    ∃ used, 0 < used ∧ used ≤ bytes.length ∧ ∀ req : HttpRequest,
      headerLoop bytes bytes 0 (.enter .start) req =
        .ok (.success (req.addFields (lines.map HeaderLine.stored)) used) := by
  obtain ⟨blank, rest, rfl, hblank, hlines⟩ := h
  refine ⟨blank.length + (lines.flatMap HeaderLine.encode).length + 2, by omega, ?_, fun req => ?_⟩
  · simp [CRLF]
    omega
  · have hstay : ∀ bytes, ∀ b ∈ blank, ∀ k, headerStep bytes k b (.enter .start) =
        .ok (.next (.enter .start) none) := by
      intro bytes b hb k
      simp only [headerStep, HeaderScan.enter, if_pos (hblank b hb)]
    have hloop := headerLoop_lines (s := .enter .start) hlines blank rest req
    rwa [headerLoop_stay (hstay _), Nat.zero_add]

/-! ### What the automaton takes -/

theorem scan_key (h : scan .key bytes = .success) :
    ∃ name rest, bytes = name ++ colon :: rest ∧ (∀ b ∈ name, b ≠ colon ∧ b ≠ CR ∧ b ≠ LF) ∧
      scan .colon rest = .success := by
  induction bytes with
  | nil => cases h
  | cons ch bytes ih =>
    rw [scan, turn] at h
    by_cases hcolon : ch = colon
    · rw [if_pos hcolon] at h
      exact ⟨[], bytes, by rw [hcolon]; rfl, List.forall_mem_nil _, h⟩
    · rw [if_neg hcolon] at h
      by_cases hend : ch = LF ∨ ch = CR
      · rw [if_pos hend] at h
        cases h
      · rw [if_neg hend] at h
        obtain ⟨name, rest, rfl, hfree, hrest⟩ := ih h
        rw [not_or] at hend
        exact ⟨ch :: name, rest, rfl,
          List.forall_mem_cons.mpr ⟨⟨hcolon, hend.2, hend.1⟩, hfree⟩, hrest⟩

theorem scan_colon (h : scan .colon bytes = .success) :
    ∃ b rest, bytes = space :: b :: rest ∧ scan .value rest = .success := by
  cases bytes with
  | nil => cases h
  | cons ch bytes =>
    rw [scan, turn] at h
    by_cases hch : ch = space
    · rw [if_pos hch] at h
      cases bytes with
      | nil => cases h
      | cons b rest => exact ⟨b, rest, by rw [hch], h⟩
    · rw [if_neg hch] at h
      cases h

theorem scan_value (h : scan .value bytes = .success) :
    ∃ (value : Bytes) (bare : Bool) (rest : Bytes),
      bytes = value ++ ((if bare then [LF] else CRLF) ++ rest) ∧
        (∀ b ∈ value, b ≠ CR ∧ b ≠ LF) ∧ scan .lf rest = .success := by
  induction bytes with
  | nil => cases h
  | cons ch bytes ih =>
    rw [scan, turn] at h
    by_cases hcr : ch = CR
    · rw [if_pos hcr] at h
      cases bytes with
      | nil => cases h
      | cons ch' rest =>
        simp only [scan, turn] at h
        by_cases hlf : ch' = LF
        · rw [if_pos hlf] at h
          exact ⟨[], false, rest, by rw [hcr, hlf]; rfl, List.forall_mem_nil _, h⟩
        · rw [if_neg hlf] at h
          cases h
    · rw [if_neg hcr] at h
      by_cases hlf : ch = LF
      · rw [if_pos hlf] at h
        exact ⟨[], true, bytes, by rw [hlf]; rfl, List.forall_mem_nil _, h⟩
      · rw [if_neg hlf] at h
        obtain ⟨value, bare, rest, rfl, hfree, hrest⟩ := ih h
        exact ⟨ch :: value, bare, rest, rfl, List.forall_mem_cons.mpr ⟨⟨hcr, hlf⟩, hfree⟩, hrest⟩

/-- From the second byte of a line to its end. -/
theorem scan_line (h : scan .key bytes = .success) (first : Byte) :
    ∃ (l : HeaderLine) (rest : Bytes), l.first = first ∧ first :: bytes = l.encode ++ rest ∧
      scan .lf rest = .success := by
  obtain ⟨name, bytes, rfl, hname, h⟩ := scan_key h
  obtain ⟨b, bytes, rfl, h⟩ := scan_colon h
  obtain ⟨value, bare, rest, rfl, hvalue, h⟩ := scan_value h
  exact ⟨⟨first, name, b, value, bare, hname, hvalue⟩, rest, rfl, by simp [HeaderLine.encode], h⟩

theorem scan_lf (n : Nat) (hn : bytes.length ≤ n) (h : scan .lf bytes = .success) :
    ∃ lines rest, bytes = lines.flatMap HeaderLine.encode ++ (CRLF ++ rest) ∧
      HeaderLine.Follow .lf lines := by
  induction n generalizing bytes with
  | zero =>
    rw [List.eq_nil_of_length_eq_zero (Nat.le_zero.mp hn)] at h
    cases h
  | succ n ih =>
    cases bytes with
    | nil => cases h
    | cons ch bytes =>
      rw [scan, turn] at h
      by_cases hcr : ch = CR
      · rw [if_pos hcr] at h
        cases bytes with
        | nil => cases h
        | cons ch' rest =>
          simp only [scan, turn] at h
          by_cases hlf : ch' = LF
          · exact ⟨[], rest, by rw [hcr, hlf]; rfl, rfl⟩
          · rw [if_neg hlf] at h
            cases h
      · rw [if_neg hcr] at h
        obtain ⟨l, bytes', hfirst, henc, h⟩ := scan_line h ch
        have hlen := congrArg List.length henc
        rw [List.length_append, l.encode_length] at hlen
        obtain ⟨lines, rest, rfl, hfollow⟩ := ih (by omega) h
        refine ⟨l :: lines, rest, ?_, ⟨hfirst ▸ hcr, .inl rfl⟩, hfollow⟩
        rw [henc, List.flatMap_cons, List.append_assoc]

theorem isSection_of_scan (h : scan .start bytes = .success) : ∃ lines, IsSection lines bytes := by
  induction bytes with
  | nil => cases h
  | cons ch bytes ih =>
    rw [scan, turn] at h
    by_cases hend : ch = LF ∨ ch = CR
    · rw [if_pos hend] at h
      obtain ⟨lines, blank, rest, rfl, hblank, hfollow⟩ := ih h
      exact ⟨lines, ch :: blank, rest, rfl, List.forall_mem_cons.mpr ⟨hend, hblank⟩, hfollow⟩
    · rw [if_neg hend] at h
      obtain ⟨l, bytes', hfirst, henc, h⟩ := scan_line h ch
      obtain ⟨lines, rest, rfl, hfollow⟩ := scan_lf _ (Nat.le_refl _) h
      rw [not_or] at hend
      refine ⟨l :: lines, [], rest, ?_, List.forall_mem_nil _,
        ⟨hfirst ▸ hend.2, .inr ⟨rfl, hfirst ▸ hend.1⟩⟩, hfollow⟩
      rw [henc, List.nil_append, List.flatMap_cons, List.append_assoc]

/-- A section is what the automaton takes. -/
theorem scan_of_section (h : IsSection lines bytes) : scan .start bytes = .success := by
  obtain ⟨used, -, -, hloop⟩ := headerLoop_of_section h
  obtain ⟨r, hr, hverdict⟩ := headerLoop_start bytes .new
  rw [hloop] at hr
  cases hr
  exact hverdict.symm

/-- The automaton has taken a section exactly when there is one. -/
theorem scan_success_iff : scan .start bytes = .success ↔ ∃ lines, IsSection lines bytes := by
  constructor
  · exact isSection_of_scan
  · rintro ⟨lines, h⟩
    exact scan_of_section h

/-- A section can be read in one way only, as far as its fields go. -/
theorem IsSection.fieldValue_eq {lines' : List HeaderLine} (h : IsSection lines bytes)
    (h' : IsSection lines' bytes) (name : Bytes) :
    HttpRequest.fieldValue name (lines.map HeaderLine.stored) =
      HttpRequest.fieldValue name (lines'.map HeaderLine.stored) := by
  obtain ⟨used, -, -, hloop⟩ := headerLoop_of_section h
  obtain ⟨used', -, -, hloop'⟩ := headerLoop_of_section h'
  have heq := (hloop .new).symm.trans (hloop' .new)
  injection heq with heq
  injection heq with hreq
  have hheaders := congrArg (fun r : HttpRequest => r.headers[name]?) hreq
  simpa [HttpRequest.addFields_getElem?, HttpRequest.new] using hheaders

/-! ### What can still become a section -/

/-- The bytes are no section yet, but with more of them they would be. -/
def IsUnfinished (bytes : Bytes) : Prop :=
  (∀ lines, ¬ IsSection lines bytes) ∧ ∃ more lines, IsSection lines (bytes ++ more)

theorem scan_append (h : ParseState) (a b : Bytes) :
    scan h (a ++ b) =
      match scan h a with
      | .again h' => scan h' b
      | v => v := by
  induction a generalizing h with
  | nil => rfl
  | cons ch a ih =>
    rw [List.cons_append, scan, scan]
    cases turn h ch with
    | next h' => exact ih h'
    | error => rfl
    | success => rfl

theorem turn_ne_endLF {h h' : ParseState} {ch : Byte} (hne : h ≠ .endLF)
    (hturn : turn h ch = .next h') : h' ≠ .endLF := by
  cases h with
  | endLF => exact absurd rfl hne
  | spacesAfterColon =>
    cases hturn
    decide
  | _ =>
    rw [turn] at hturn
    split_ifs at hturn <;> cases hturn <;> decide

theorem scan_ne_endLF {h h' : ParseState} (hne : h ≠ .endLF) (hscan : scan h bytes = .again h') :
    h' ≠ .endLF := by
  induction bytes generalizing h with
  | nil =>
    cases hscan
    exact hne
  | cons ch bytes ih =>
    rw [scan] at hscan
    cases hturn : turn h ch with
    | next h₁ =>
      rw [hturn] at hscan
      exact ih (turn_ne_endLF hne hturn) hscan
    | error =>
      rw [hturn] at hscan
      cases hscan
    | success =>
      rw [hturn] at hscan
      cases hscan

/-- From every state that a scan reaches there is a way to the end of a section. -/
theorem exists_scan_success {h : ParseState} (hne : h ≠ .endLF) :
    ∃ more, scan h more = .success := by
  cases h with
  | start => exact ⟨ascii "a: b\n\r\n", by decide +kernel⟩
  | key => exact ⟨ascii ": b\n\r\n", by decide +kernel⟩
  | colon => exact ⟨ascii " b\n\r\n", by decide +kernel⟩
  | spacesAfterColon => exact ⟨ascii "b\n\r\n", by decide +kernel⟩
  | value => exact ⟨ascii "\n\r\n", by decide +kernel⟩
  | cr => exact ⟨ascii "\n\r\n", by decide +kernel⟩
  | lf => exact ⟨ascii "\r\n", by decide +kernel⟩
  | endCR => exact ⟨ascii "\n", by decide +kernel⟩
  | endLF => exact absurd rfl hne

theorem scan_again_iff : (∃ h, scan .start bytes = .again h) ↔ IsUnfinished bytes := by
  constructor
  · rintro ⟨h, hscan⟩
    refine ⟨fun lines hsection => ?_, ?_⟩
    · cases hscan.symm.trans (scan_of_section hsection)
    · obtain ⟨more, hmore⟩ := exists_scan_success (scan_ne_endLF (h := .start) (by decide) hscan)
      exact ⟨more, isSection_of_scan (by rw [scan_append, hscan]; exact hmore)⟩
  · rintro ⟨hnone, more, lines, hsection⟩
    have hsuccess := scan_of_section hsection
    rw [scan_append] at hsuccess
    cases hscan : scan .start bytes with
    | again h => exact ⟨h, rfl⟩
    | error =>
      rw [hscan] at hsuccess
      cases hsuccess
    | success =>
      obtain ⟨lines, hsection⟩ := isSection_of_scan hscan
      exact absurd hsection (hnone lines)

end HttpContext
end MuduoX
