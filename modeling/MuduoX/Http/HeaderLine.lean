import MuduoX.Http.ContextLemmas

/-! The lines of a header section as the automaton takes them.

It is lenient: the first byte of a name and of a value is taken as it is, and a line may end in a
bare LF. `headerLoop_lines` walks through such a section line by line, each of them an induction
over the bytes of its name and of its value. -/

namespace MuduoX

open HttpContext

def CRLF : Bytes := [CR, LF]

structure HeaderLine where
  first : Byte
  name : Bytes
  valueFirst : Byte
  value : Bytes
  /-- The line ends in a bare LF. -/
  bare : Bool
  name_free : ∀ b ∈ name, b ≠ colon ∧ b ≠ CR ∧ b ≠ LF
  value_free : ∀ b ∈ value, b ≠ CR ∧ b ≠ LF

namespace HeaderLine

def encode (l : HeaderLine) : Bytes :=
  l.first :: (l.name ++ colon :: space :: l.valueFirst ::
    (l.value ++ if l.bare then [LF] else CRLF))

/-- What `addHeader` stores for the line. -/
def stored (l : HeaderLine) : Bytes × Bytes :=
  (l.first :: l.name, HttpRequest.trim (l.valueFirst :: l.value))

/-- The line can begin in the state `h`: where blank lines are skipped it begins with none, and
behind another line a CR ends the section. -/
def Begins (l : HeaderLine) (h : ParseState) : Prop :=
  l.first ≠ CR ∧ (h = .lf ∨ h = .start ∧ l.first ≠ LF)

/-- The lines can follow in the state `h`, and the end of the section behind them. -/
def Follow : ParseState → List HeaderLine → Prop
  | h, [] => h = .lf
  | h, l :: lines => l.Begins h ∧ Follow .lf lines

theorem Follow.first_ne {h : ParseState} {lines : List HeaderLine} (hf : Follow h lines) :
    ∀ l ∈ lines, l.first ≠ CR := by
  induction lines generalizing h with
  | nil => exact List.forall_mem_nil _
  | cons l lines ih => exact List.forall_mem_cons.mpr ⟨hf.1.1, ih hf.2⟩

end HeaderLine

variable {bytes rest : Bytes} {k n : Nat} {s : HeaderScan} {req : HttpRequest}

/-- Bytes that leave the automaton where it is. -/
theorem headerLoop_stay {bs : Bytes}
    (h : ∀ b ∈ bs, ∀ k, headerStep bytes k b s = .ok (.next s none)) :
    headerLoop bytes (bs ++ rest) k s req = headerLoop bytes rest (k + bs.length) s req := by
  induction bs generalizing k with
  | nil => rfl
  | cons b bs ih =>
    rw [List.cons_append, headerLoop_next (h b List.mem_cons_self k),
      List.length_cons, Nat.add_comm bs.length, ← Nat.add_assoc]
    exact ih fun c hc => h c (List.mem_cons_of_mem b hc)

/-! ### One byte -/

theorem cstring_of_le {i j : Nat} (h : i ≤ j) :
    cstring bytes (some i) (some j) = .ok (slice bytes i j) := by
  simp [cstring, h]

theorem headerStep_first {l : HeaderLine} (hs : l.Begins s.hState) :
    headerStep bytes k l.first s =
      .ok (.next { s with hState := .key, keyStart := some k } none) := by
  obtain ⟨hcr, hs | ⟨hs, hlf⟩⟩ := hs
  · simp [headerStep, hs, hcr]
  · simp [headerStep, hs, hcr, hlf]

theorem headerStep_colon {i : Nat} (hs : s.hState = .key) (hi : s.keyStart = some i)
    (hik : i ≤ k) :
    headerStep bytes k colon s =
      .ok (.next { s with hState := .colon, keyEnd := some k } none) := by
  simp only [headerStep, hs, hi, cstring_of_le hik]
  rfl

theorem headerStep_blank {i : Nat} (hs : s.hState = .colon) (hi : s.keyEnd = some i)
    (hik : i ≤ k + 1) :
    headerStep bytes k space s = .ok (.next { s with hState := .spacesAfterColon } none) := by
  simp only [headerStep, hs, hi, cstring_of_le hik]
  rfl

theorem headerStep_valueFirst {b : Byte} (hs : s.hState = .spacesAfterColon) :
    headerStep bytes k b s =
      .ok (.next { s with hState := .value, valStart := some k } none) := by
  simp only [headerStep, hs]

theorem headerStep_valueCR {i : Nat} (hs : s.hState = .value) (hi : s.valStart = some i)
    (hik : i ≤ k) :
    headerStep bytes k CR s = .ok (.next { s with hState := .cr, valEnd := some k } none) := by
  simp only [headerStep, hs, hi, cstring_of_le hik]
  rfl

theorem headerStep_valueLF {i : Nat} {field : Bytes × Bytes} (hs : s.hState = .value)
    (hi : s.valStart = some i) (hik : i ≤ k)
    (hadd : HttpRequest.addHeader bytes s.keyStart s.keyEnd (some k) = .ok field) :
    headerStep bytes k LF s =
      .ok (.next { s with hState := .lf, valEnd := some k } (some field)) := by
  simp only [headerStep, hs, hi, cstring_of_le hik, hadd]
  rfl

theorem headerStep_crLF {i j : Nat} {field : Bytes × Bytes} (hs : s.hState = .cr)
    (hi : s.valStart = some i) (hj : s.valEnd = some j) (hij : i ≤ j)
    (hadd : HttpRequest.addHeader bytes s.keyStart s.keyEnd s.valEnd = .ok field) :
    headerStep bytes k LF s = .ok (.next { s with hState := .lf } (some field)) := by
  simp only [headerStep, hs, hi, hadd]
  simp only [hj, cstring_of_le hij]
  rfl

/-! ### One line -/

/-- From the beginning of a line to the first byte of its value. -/
theorem headerLoop_name (l : HeaderLine) (hs : l.Begins s.hState) :
    headerLoop bytes (l.first :: (l.name ++ colon :: space :: rest)) k s req =
      headerLoop bytes rest (k + l.name.length + 3)
        { s with
          hState := .spacesAfterColon, keyStart := some k,
          keyEnd := some (k + l.name.length + 1) } req := by
  have hstay : ∀ c ∈ l.name, ∀ j, headerStep bytes j c
      { s with hState := .key, keyStart := some k } =
        .ok (.next { s with hState := .key, keyStart := some k } none) := by
    intro c hc j
    have hc := l.name_free c hc
    simp [headerStep, hc.1, hc.2.1, hc.2.2]
  rw [headerLoop_next (headerStep_first hs), headerLoop_stay hstay,
    headerLoop_next (headerStep_colon rfl rfl (by omega)),
    headerLoop_next (headerStep_blank rfl rfl (by omega)),
    show k + 1 + l.name.length = k + l.name.length + 1 by omega]
  rfl

/-- From the first byte of a value to the end of its line. -/
theorem headerLoop_value (l : HeaderLine) (rest : Bytes) (req : HttpRequest)
    (hs : s.hState = .spacesAfterColon)
    (hadd : HttpRequest.addHeader bytes s.keyStart s.keyEnd (some (k + 1 + l.value.length)) =
      .ok l.stored) :
    ∃ s', s'.hState = .lf ∧
      headerLoop bytes (l.valueFirst :: (l.value ++ ((if l.bare then [LF] else CRLF) ++ rest))) k s
          req =
        headerLoop bytes rest (k + 1 + l.value.length + (if l.bare then [LF] else CRLF).length) s'
          (req.addFields [l.stored]) := by
  have hstay : ∀ c ∈ l.value, ∀ j, headerStep bytes j c
      { s with hState := .value, valStart := some k } =
        .ok (.next { s with hState := .value, valStart := some k } none) := by
    intro c hc j
    have hc := l.value_free c hc
    simp [headerStep, hc.1, hc.2]
  refine ⟨{ s with
    hState := .lf, valStart := some k, valEnd := some (k + 1 + l.value.length) }, rfl, ?_⟩
  rw [headerLoop_next (headerStep_valueFirst hs), headerLoop_stay hstay]
  cases l.bare with
  | true =>
    have hlf := headerStep_valueLF (s := { s with hState := .value, valStart := some k }) rfl rfl
      (show k ≤ k + 1 + l.value.length by omega) hadd
    rw [if_pos rfl, List.cons_append, headerLoop_next hlf]
    rfl
  | false =>
    rw [if_neg Bool.false_ne_true, CRLF, List.cons_append,
      headerLoop_next (headerStep_valueCR rfl rfl (by omega)), List.cons_append,
      headerLoop_next (headerStep_crLF rfl rfl rfl (by omega) hadd)]
    rfl

theorem HeaderLine.encode_length (l : HeaderLine) :
    l.encode.length = l.name.length + 3 + 1 + l.value.length +
      (if l.bare then [LF] else CRLF).length := by
  simp only [encode, List.length_cons, List.length_append]
  omega

/-- Where the parser looks for a name and a value is where the line has them, with the blank
before the value. -/
theorem HeaderLine.addHeader_encode (l : HeaderLine) (a rest : Bytes) :
    HttpRequest.addHeader (a ++ (l.encode ++ rest)) (some a.length)
      (some (a.length + l.name.length + 1))
      (some (a.length + l.name.length + 3 + 1 + l.value.length)) = .ok l.stored := by
  have hname : slice (a ++ (l.encode ++ rest)) a.length (a.length + l.name.length + 1) =
      l.first :: l.name :=
    slice_eq a (l.first :: l.name) (colon :: space :: l.valueFirst ::
      (l.value ++ (if l.bare then [LF] else CRLF)) ++ rest) (by simp [encode]) rfl
      (by simp; omega)
  have hvalue : slice (a ++ (l.encode ++ rest)) (a.length + l.name.length + 1 + 1)
      (a.length + l.name.length + 3 + 1 + l.value.length) = space :: l.valueFirst :: l.value :=
    slice_eq (a ++ l.first :: (l.name ++ [colon])) _ ((if l.bare then [LF] else CRLF) ++ rest)
      (by simp [encode]) (by simp; omega) (by simp; omega)
  rw [HttpRequest.addHeader_eq (by omega) (by omega), hname, hvalue, HttpRequest.trim_cons_space,
    stored]

/-- One line of the section: its field is stored and the automaton stands behind its LF. -/
theorem headerLoop_line (l : HeaderLine) (a rest : Bytes) (req : HttpRequest)
    (hs : l.Begins s.hState) :
    ∃ s', s'.hState = .lf ∧
      headerLoop (a ++ (l.encode ++ rest)) (l.encode ++ rest) a.length s req =
        headerLoop (a ++ (l.encode ++ rest)) rest (a.length + l.encode.length) s'
          (req.addFields [l.stored]) := by
  obtain ⟨s', hs', hloop⟩ := headerLoop_value l rest req
    (s := { s with
      hState := .spacesAfterColon, keyStart := some a.length,
      keyEnd := some (a.length + l.name.length + 1) }) rfl (l.addHeader_encode a rest)
  refine ⟨s', hs', ?_⟩
  have hline : l.encode ++ rest = l.first :: (l.name ++ colon :: space :: l.valueFirst ::
      (l.value ++ ((if l.bare then [LF] else CRLF) ++ rest))) := by
    simp [HeaderLine.encode]
  have hlen : a.length + l.encode.length =
      a.length + l.name.length + 3 + 1 + l.value.length +
        (if l.bare then [LF] else CRLF).length := by
    rw [l.encode_length]
    omega
  rw [hlen, ← hloop]
  generalize a ++ (l.encode ++ rest) = bytes
  rw [hline, headerLoop_name l hs]

/-- The lines of a section and the blank line. -/
theorem headerLoop_lines {lines : List HeaderLine} (hs : HeaderLine.Follow s.hState lines)
    (a rest : Bytes) (req : HttpRequest) :
    headerLoop (a ++ (lines.flatMap HeaderLine.encode ++ (CRLF ++ rest)))
        (lines.flatMap HeaderLine.encode ++ (CRLF ++ rest)) a.length s req =
      .ok (.success (req.addFields (lines.map HeaderLine.stored))
        (a.length + (lines.flatMap HeaderLine.encode).length + 2)) := by
  induction lines generalizing a req s with
  | nil =>
    have hlf : s.hState = .lf := hs
    have hcr : ∀ bytes, headerStep bytes a.length CR s =
        .ok (.next { s with hState := .endCR } none) := by
      intro bytes
      simp [headerStep, hlf]
    rw [List.flatMap_nil, List.nil_append, CRLF, List.cons_append, headerLoop_next (hcr _),
      List.cons_append, headerLoop_success (by simp [headerStep])]
    rfl
  | cons l lines ih =>
    obtain ⟨s', hs', hloop⟩ := headerLoop_line l a
      (lines.flatMap HeaderLine.encode ++ (CRLF ++ rest)) req hs.1
    have hrest := ih (hs' ▸ hs.2) (a ++ l.encode) (req.addFields [l.stored])
    rw [List.append_assoc, List.length_append] at hrest
    rw [List.flatMap_cons, List.append_assoc, hloop, hrest, List.map_cons,
      ← HttpRequest.addFields_append, List.length_append, Nat.add_assoc a.length]
    rfl

end MuduoX
