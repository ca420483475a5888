import MuduoX.Http.HeaderLine
import MuduoX.Http.Parser

/-! Requests as they are written on the wire, and what the parser makes of them.

`RequestHead` is a request line and at least one header line; `parse_encode_head` says that the
parser takes an encoded head to the request it describes and stands at the first byte behind the
blank line. Its header lines are lines as the automaton takes them (`Field.toLine`). -/

namespace MuduoX

open Incremental HttpParser HttpContext

/-- A header line `name: value`. The value may have white space around it. -/
structure Field where
  name : Bytes
  value : Bytes
  name_ne : name ≠ []
  name_free : ∀ b ∈ name, b ≠ colon ∧ b ≠ CR ∧ b ≠ LF
  value_free : ∀ b ∈ value, b ≠ CR ∧ b ≠ LF

namespace Field

def encode (f : Field) : Bytes := f.name ++ (colon :: space :: f.value ++ CRLF)

/-- What `addHeader` stores for the line. -/
def stored (f : Field) : Bytes × Bytes := (f.name, HttpRequest.trim f.value)

end Field

/-- A request line and a header section. -/
structure RequestHead where
  method : Method
  path : Bytes
  query : Option Bytes
  version : Version
  fields : List Field
  method_ne : method ≠ .kInvalid
  path_free : ∀ b ∈ path, b ≠ space ∧ b ≠ question ∧ b ≠ CR
  query_free : ∀ q ∈ query, ∀ b ∈ q, b ≠ space ∧ b ≠ CR
  version_ne : version ≠ .kUnknown
  fields_ne : fields ≠ []

/-- The token of a version. -/
def Version.encode : Version → Bytes
  | .kHttp10 => ascii "HTTP/1.0"
  | .kHttp11 => ascii "HTTP/1.1"
  | .kUnknown => []

namespace RequestHead

/-- The request that the head describes, without a body. -/
def request (h : RequestHead) : HttpRequest where
  method := h.method
  version := h.version
  path := h.path
  query := h.query.getD []
  receiveTime := 0
  headers := .ofList (h.fields.map Field.stored)
  body := []

/-- Path and query. -/
def target (h : RequestHead) : Bytes :=
  match h.query with
  | none => h.path
  | some q => h.path ++ question :: q

def line (h : RequestHead) : Bytes :=
  h.request.methodString ++ (space :: (h.target ++ (space :: h.version.encode)))

def encode (h : RequestHead) : Bytes :=
  h.line ++ (CRLF ++ (h.fields.flatMap Field.encode ++ CRLF))

end RequestHead

/-! ### The header section -/

/-- The line as the automaton takes it. An empty value takes the CR for its first byte and ends at
the LF. -/
def Field.toLine (f : Field) : HeaderLine where
  first := f.name.head f.name_ne
  name := f.name.tail
  valueFirst := f.value.headD CR
  value := f.value.tail
  bare := f.value.isEmpty
  name_free := fun b hb => f.name_free b (List.mem_of_mem_tail hb)
  value_free := fun b hb => f.value_free b (List.mem_of_mem_tail hb)

theorem Field.encode_toLine (f : Field) : f.toLine.encode = f.encode := by
  have hname : ∀ rest, f.name.head f.name_ne :: (f.name.tail ++ rest) = f.name ++ rest :=
    fun rest => congrArg (· ++ rest) (List.cons_head_tail f.name_ne)
  rw [encode]
  cases hv : f.value with
  | nil => simp [HeaderLine.encode, toLine, hv, CRLF, hname]
  | cons b value => simp [HeaderLine.encode, toLine, hv, hname]

theorem Field.stored_toLine (f : Field) : f.toLine.stored = f.stored := by
  have hname : f.name.head f.name_ne :: f.name.tail = f.name := List.cons_head_tail f.name_ne
  rw [HeaderLine.stored, stored]
  refine Prod.ext hname ?_
  cases hv : f.value with
  | nil => simpa [toLine, hv] using HttpRequest.trim_append_CR []
  | cons b value => simp [toLine, hv]

theorem Field.flatMap_encode_toLine (fields : List Field) :
    (fields.map toLine).flatMap HeaderLine.encode = fields.flatMap encode := by
  rw [List.flatMap_map]
  exact List.flatMap_congr fun f _ => f.encode_toLine

theorem Field.begins (f : Field) {h : ParseState} (hh : h = .start ∨ h = .lf) :
    f.toLine.Begins h := by
  obtain ⟨-, hcr, hlf⟩ := f.name_free _ (List.head_mem f.name_ne)
  exact ⟨hcr, hh.symm.imp_right fun hs => ⟨hs, hlf⟩⟩

theorem Field.follow {fields : List Field} {h : ParseState}
    (hh : h = .start ∧ fields ≠ [] ∨ h = .lf) :
    HeaderLine.Follow h (fields.map toLine) := by
  induction fields generalizing h with
  | nil => exact hh.resolve_left fun h => h.2 rfl
  | cons f fields ih => exact ⟨f.begins (hh.imp_left And.left), ih (.inr rfl)⟩

/-- The lines of a section and the blank line. -/
theorem headerLoop_section (fields : List Field) (a rest : Bytes) (req : HttpRequest)
    {s : HeaderScan} (hs : s.hState = .start ∧ fields ≠ [] ∨ s.hState = .lf) :
    headerLoop (a ++ (fields.flatMap Field.encode ++ (CRLF ++ rest)))
        (fields.flatMap Field.encode ++ (CRLF ++ rest)) a.length s req =
      .ok (.success (req.addFields (fields.map Field.stored))
        (a.length + (fields.flatMap Field.encode).length + 2)) := by
  have hlines := headerLoop_lines (Field.follow hs) a rest req
  have hstored : (fields.map Field.toLine).map HeaderLine.stored = fields.map Field.stored := by
    rw [List.map_map]
    exact List.map_congr_left fun f _ => f.stored_toLine
  rwa [Field.flatMap_encode_toLine, hstored] at hlines

/-! ### The request line -/

theorem Version.encode_ne {v : Version} (h : v ≠ .kUnknown) :
    v = .kHttp10 ∧ v.encode = ascii "HTTP/1.0" ∨ v = .kHttp11 ∧ v.encode = ascii "HTTP/1.1" := by
  cases v with
  | kUnknown => exact absurd rfl h
  | kHttp10 => exact .inl ⟨rfl, rfl⟩
  | kHttp11 => exact .inr ⟨rfl, rfl⟩

namespace RequestHead

variable (h : RequestHead)

theorem methodString_free : ∀ b ∈ h.request.methodString, b ≠ space ∧ b ≠ CR := by
  unfold HttpRequest.methodString
  cases h.request.method <;> decide +kernel

theorem target_free : ∀ b ∈ h.target, b ≠ space ∧ b ≠ CR := by
  intro b hb
  unfold target at hb
  split at hb
  · exact ⟨(h.path_free b hb).1, (h.path_free b hb).2.2⟩
  · rename_i q hq
    rcases List.mem_append.mp hb with hb | hb
    · exact ⟨(h.path_free b hb).1, (h.path_free b hb).2.2⟩
    · rcases List.mem_cons.mp hb with rfl | hb
      · decide
      · exact h.query_free q hq b hb

theorem line_free : CR ∉ h.line := by
  intro hmem
  simp only [line, List.mem_append, List.mem_cons] at hmem
  rcases hmem with hm | hm | hm | hm | hm
  · exact (h.methodString_free _ hm).2 rfl
  · cases hm
  · exact (h.target_free _ hm).2 rfl
  · cases hm
  · rcases Version.encode_ne h.version_ne with ⟨-, hv⟩ | ⟨-, hv⟩ <;> rw [hv] at hm <;>
      exact absurd hm (by decide)

/-- A target between `a` and `c` is cut at its first question mark. -/
theorem setTarget {bs : Bytes} (a c : Bytes) (hbs : bs = a ++ (h.target ++ c)) (req : HttpRequest)
    (hq : req.query = []) :
    (if find bs a.length (a.length + h.target.length) question ≠ a.length + h.target.length then
      (req.setPath (slice bs a.length (find bs a.length (a.length + h.target.length) question)))
        |>.setQuery (slice bs (find bs a.length (a.length + h.target.length) question + 1)
          (a.length + h.target.length))
    else req.setPath (slice bs a.length (a.length + h.target.length))) =
      { req with path := h.path, query := h.query.getD [] } := by
  have hfree : question ∉ h.path := fun hmem => (h.path_free _ hmem).2.1 rfl
  unfold target at hbs ⊢
  match hquery : h.query with
  | none =>
    simp only [hquery] at hbs ⊢
    have hmiss := find_miss a c hfree
    rw [hbs, hmiss, if_neg (by simp), slice_mid, Option.getD_none, ← hq]
    rfl
  | some q =>
    simp only [hquery] at hbs ⊢
    have hlen : a.length + (h.path ++ question :: q).length =
        a.length + h.path.length + 1 + q.length := by simp; omega
    have hhit := find_hit a (q ++ c) (a.length + h.path.length + 1 + q.length) hfree (by omega)
    have hbs' : bs = a ++ (h.path ++ question :: (q ++ c)) := by simp [hbs]
    have hpath : slice bs a.length (a.length + h.path.length) = h.path := by rw [hbs', slice_mid]
    have hq' : slice bs (a.length + h.path.length + 1) (a.length + h.path.length + 1 + q.length) =
        q :=
      slice_eq (a ++ (h.path ++ [question])) q c (by simp [hbs']) (by simp; omega)
        (by simp; omega)
    rw [hlen]
    simp only [hbs'] at hpath hq' ⊢
    rw [hhit, if_pos (by omega), hpath, hq']
    rfl

/-- The request line is read back. -/
theorem requestLine_line : requestLine .new h.line h.line.length =
    (true, { h.request with headers := ∅ }) := by
  have hm : space ∉ h.request.methodString := fun hmem => (h.methodString_free _ hmem).1 rfl
  have ht : space ∉ h.target := fun hmem => (h.target_free _ hmem).1 rfl
  have hlen : h.line.length =
      h.request.methodString.length + 1 + h.target.length + 1 + h.version.encode.length := by
    simp [line]; omega
  have hsp : find h.line 0 h.line.length space = h.request.methodString.length := by
    have := find_hit [] (h.target ++ (space :: h.version.encode)) h.line.length hm
      (by simp; omega)
    simpa [line] using this
  have hmethod : slice h.line 0 h.request.methodString.length = h.request.methodString :=
    slice_append ..
  have hline : h.line =
      h.request.methodString ++ [space] ++ (h.target ++ (space :: h.version.encode)) := by
    simp [line]
  have hsp2 : find h.line (h.request.methodString.length + 1) h.line.length space =
      h.request.methodString.length + 1 + h.target.length := by
    have := find_hit (h.request.methodString ++ [space]) h.version.encode h.line.length ht
      (by simp; omega)
    rwa [← hline, List.length_append] at this
  have hver : slice h.line (h.request.methodString.length + 1 + h.target.length + 1)
      h.line.length = h.version.encode :=
    slice_eq (h.request.methodString ++ [space] ++ h.target ++ [space]) _ [] (by simp [line])
      (by simp; omega) (by simp; omega)
  have htarget := h.setTarget (h.request.methodString ++ [space]) _ hline
    { HttpRequest.new with method := h.method } rfl
  rw [List.length_append, List.length_singleton] at htarget
  unfold requestLine
  simp only [hsp, hmethod, hsp2, hver, HttpRequest.setMethod, HttpRequest.methodOf_methodString]
  rw [if_neg (by omega), if_neg (by simpa [request] using h.method_ne), if_neg (by omega)]
  simp only [show h.request.method = h.method from rfl, htarget]
  rcases Version.encode_ne h.version_ne with ⟨hv, he⟩ | ⟨hv, he⟩
  · rw [he, if_pos rfl]
    simp [HttpRequest.setVersion, request, hv, HttpRequest.new]
  · rw [he, if_neg (by decide), if_pos rfl]
    simp [HttpRequest.setVersion, request, hv, HttpRequest.new]

end RequestHead

/-! ### A head -/

theorem addFields_ofList (r : HttpRequest) (fields : List (Bytes × Bytes)) :
    { r with headers := (∅ : HeaderMap) }.addFields fields =
      { r with headers := .ofList fields } := by
  rw [HttpRequest.addFields_eq, Std.ExtTreeMap.ofList_eq_insertMany_empty]
  congr 1
  generalize (∅ : HeaderMap) = headers
  induction fields generalizing headers with
  | nil => rw [Std.ExtTreeMap.insertMany_nil]; rfl
  | cons f fields ih => rw [Std.ExtTreeMap.insertMany_cons, ← ih]; rfl

/-- The parser reads an encoded head back and stands behind its blank line. -/
theorem parse_encode_head (h : RequestHead) (rest : Bytes) :
    parse .line (h.encode ++ rest) = afterHeaders h.request rest := by
  have hsplit : splitCR (h.encode ++ rest) =
      (h.line, CR :: LF :: (h.fields.flatMap Field.encode ++ (CRLF ++ rest))) := by
    rw [← splitCR_of_free h.line_free]
    simp [RequestHead.encode, CRLF]
  have hsection := headerLoop_section h.fields [] rest { h.request with headers := ∅ }
    (s := .enter .start) (.inl ⟨rfl, h.fields_ne⟩)
  rw [addFields_ofList] at hsection
  simp only [List.nil_append, List.length_nil, Nat.zero_add] at hsection
  simp only [parse, onLine, hsplit, h.requestLine_line, inHeaders, hsection]
  rw [List.drop_append, List.drop_eq_nil_of_le (by omega), Nat.add_sub_cancel_left]
  rfl

end MuduoX
