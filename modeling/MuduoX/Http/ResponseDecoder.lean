import MuduoX.Http.Response
import MuduoX.Theory.Incremental

/-! A reference decoder of responses, and that it undoes `appendToBuffer`.

The decoder knows the protocol only: a status line, header lines up to the blank line, and as many
bytes of body as `Content-Length` says. It takes one response after the other from a byte string. -/

namespace MuduoX

open Incremental

namespace ResponseDecoder

/-- The lines up to the blank line, and what is behind it; `line` is the part of the first line that
has been read. -/
def splitHead (line : Bytes) : Bytes → Option (List Bytes × Bytes)
  | b :: c :: bs =>
    if b = CR ∧ c = LF then
      if line = [] then some ([], bs)
      else (splitHead [] bs).map fun r => (line :: r.1, r.2)
    else splitHead (line ++ [b]) (c :: bs)
  | _ => none

/-- `HTTP/1.1`, the code and the message. -/
def decodeStatusLine (line : Bytes) : Option (HttpStatusCode × Bytes) :=
  let version := ascii "HTTP/1.1 "
  let rest := line.drop version.length
  let code := rest.takeWhile isDigit
  let message := rest.dropWhile isDigit
  if version <+: line ∧ code ≠ [] ∧ message.head? = some space then
    some (decimal code, message.tail)
  else none

/-- A name, a colon, a blank and the value. -/
def decodeField (line : Bytes) : Option (Bytes × Bytes) :=
  let name := line.takeWhile (· ≠ colon)
  let value := line.dropWhile (· ≠ colon)
  if name ≠ [] ∧ [colon, space] <+: value then some (name, value.drop 2) else none

def contentLength (fields : List (Bytes × Bytes)) : Option Nat :=
  (fields.lookup (ascii "Content-Length")).bind fun value =>
    if value ≠ [] ∧ ∀ d ∈ value, isDigit d then some (decimal value) else none

/-- Whether the server keeps the connection. -/
def keepAlive (fields : List (Bytes × Bytes)) : Bool :=
  fields.lookup (ascii "Connection") = some (ascii "Keep-Alive")

/-- The fields that are not about framing. -/
def headers (fields : List (Bytes × Bytes)) : HeaderMap :=
  .ofList (fields.filter fun f => f.1 ≠ ascii "Content-Length" ∧ f.1 ≠ ascii "Connection")

/-- The response without its body, and the length of that. -/
def decodeHead : List Bytes → Option (HttpResponse × Nat)
  | [] => none
  | line :: lines =>
    (decodeStatusLine line).bind fun status =>
    (lines.mapM decodeField).bind fun fields =>
    (contentLength fields).map fun length =>
      ({ headers := headers fields
         statusCode := status.1
         statusMessage := status.2
         closeConnection := !keepAlive fields
         body := [] }, length)

def decode (bs : Bytes) : Reply Unit Byte HttpResponse Unit :=
  match splitHead [] bs with
  | none => .more () bs
  | some (lines, rest) =>
    match decodeHead lines with
    | none => .fail ()
    | some (r, length) =>
      if length ≤ rest.length then .done { r with body := rest.take length } (rest.drop length)
      else .more () bs

/-! ### Lines -/

variable {line rest : Bytes} {ls : List Bytes}

theorem splitHead_length {bs : Bytes} (h : splitHead line bs = some (ls, rest)) :
    rest.length < bs.length := by
  fun_induction splitHead line bs generalizing ls with
  | case1 b c bs =>
    cases h
    simp only [List.length_cons]
    omega
  | case2 line b c bs _ _ ih =>
    obtain ⟨r, hr, heq⟩ := Option.map_eq_some_iff.mp h
    cases heq
    have := ih hr
    simp only [List.length_cons]
    omega
  | case3 line b c bs _ ih =>
    have := ih h
    rw [List.length_cons]
    omega
  | case4 => cases h

theorem splitHead_line {l : Bytes} (h : line ++ l ≠ []) (hl : CR ∉ l) :
    splitHead line (l ++ (CR :: LF :: rest)) =
      (splitHead [] rest).map fun r => ((line ++ l) :: r.1, r.2) := by
  induction l generalizing line with
  | nil =>
    rw [List.append_nil] at h ⊢
    rw [List.nil_append, splitHead, if_pos ⟨rfl, rfl⟩, if_neg h]
  | cons b l ih =>
    obtain ⟨hb, hl⟩ := not_or.mp (mt List.mem_cons.mpr hl)
    have hstep (c : Byte) (bs : Bytes) :
        splitHead line (b :: c :: bs) = splitHead (line ++ [b]) (c :: bs) := by
      rw [splitHead, if_neg fun hcr => hb hcr.1.symm]
    have hrest : splitHead (line ++ [b]) (l ++ (CR :: LF :: rest)) =
        (splitHead [] rest).map fun r => ((line ++ [b] ++ l) :: r.1, r.2) := ih (by simp) hl
    rw [List.append_assoc, List.singleton_append] at hrest
    rw [← hrest]
    cases l with
    | nil => exact hstep ..
    | cons c l => exact hstep ..

/-- The lines are found again: none of them is blank or holds a carriage return. -/
theorem splitHead_lines (h : ∀ l ∈ ls, l ≠ [] ∧ CR ∉ l) :
    splitHead [] (ls.flatMap (· ++ [CR, LF]) ++ (CR :: LF :: rest)) = some (ls, rest) := by
  induction ls with
  | nil => rfl
  | cons l ls ih =>
    obtain ⟨⟨hne, hl⟩, hls⟩ := List.forall_mem_cons.mp h
    have hcut : (l :: ls).flatMap (· ++ [CR, LF]) ++ (CR :: LF :: rest) =
        l ++ (CR :: LF :: (ls.flatMap (· ++ [CR, LF]) ++ (CR :: LF :: rest))) := by
      simp only [List.flatMap_cons, List.append_assoc, List.cons_append, List.nil_append]
    rw [hcut, splitHead_line (by simpa using hne) hl, ih hls]
    rfl

/-! ### What a line says -/

theorem takeWhile_append {p : Byte → Bool} {a b : Bytes} (ha : ∀ x ∈ a, p x)
    (hb : ∀ x ∈ b.head?, p x = false) : (a ++ b).takeWhile p = a ∧ (a ++ b).dropWhile p = b := by
  rw [List.takeWhile_append_of_pos ha, List.dropWhile_append_of_pos ha]
  cases b with
  | nil => exact ⟨List.append_nil a, rfl⟩
  | cons x b =>
    have hx : p x = false := hb x rfl
    rw [List.takeWhile_cons_of_neg (by simp [hx]), List.dropWhile_cons_of_neg (by simp [hx])]
    exact ⟨List.append_nil a, rfl⟩

theorem decodeStatusLine_eq (code : HttpStatusCode) (message : Bytes) :
    decodeStatusLine (ascii "HTTP/1.1 " ++ (digits code ++ (space :: message))) =
      some (code, message) := by
  obtain ⟨htake, hdrop⟩ := takeWhile_append (p := isDigit) (a := digits code)
    (b := space :: message) (fun _ h => isDigit_of_mem_digits h) (by rintro _ ⟨⟩; rfl)
  rw [decodeStatusLine]
  simp only [List.drop_left]
  rw [htake, hdrop, if_pos ⟨List.prefix_append .., digits_ne_nil code, rfl⟩, decimal_digits]
  rfl

/-- A header line. -/
def encodeField (f : Bytes × Bytes) : Bytes := f.1 ++ (colon :: space :: f.2)

theorem decodeField_eq {f : Bytes × Bytes} (hne : f.1 ≠ []) (hfree : colon ∉ f.1) :
    decodeField (encodeField f) = some f := by
  obtain ⟨htake, hdrop⟩ := takeWhile_append (p := (· ≠ colon)) (a := f.1)
    (b := colon :: space :: f.2)
    (fun b hb => decide_eq_true fun h => hfree (h ▸ hb)) (by rintro _ ⟨⟩; rfl)
  rw [decodeField, encodeField]
  rw [htake, hdrop, if_pos ⟨hne, List.prefix_append [colon, space] f.2⟩]
  rfl

theorem mapM_decodeField {fields : List (Bytes × Bytes)}
    (h : ∀ f ∈ fields, f.1 ≠ [] ∧ colon ∉ f.1) :
    (fields.map encodeField).mapM decodeField = some fields := by
  induction fields with
  | nil => rfl
  | cons f fields ih =>
    obtain ⟨⟨hne, hfree⟩, hfields⟩ := List.forall_mem_cons.mp h
    rw [List.map_cons, List.mapM_cons, decodeField_eq hne hfree, ih hfields]
    rfl

/-! ### What `appendToBuffer` writes -/

end ResponseDecoder

namespace HttpResponse

/-- The header fields that say where the body ends. -/
def framing (r : HttpResponse) : List (Bytes × Bytes) :=
  if r.closeConnection then [(ascii "Connection", ascii "close")]
  else [(ascii "Content-Length", digits r.body.length), (ascii "Connection", ascii "Keep-Alive")]

/-- The lines in front of the blank one. -/
def headLines (r : HttpResponse) : List Bytes :=
  (ascii "HTTP/1.1 " ++ (digits r.statusCode ++ (space :: r.statusMessage))) ::
    (r.framing ++ r.headers.toList).map ResponseDecoder.encodeField

/-- What an HTTP response over a connection that is kept can say. -/
structure Plain (r : HttpResponse) : Prop where
  keepAlive : r.closeConnection = false
  /-- `%d` takes an `int` -/
  code_lt : r.statusCode < 2 ^ 31
  message_free : ∀ b ∈ r.statusMessage, b ≠ CR ∧ b ≠ LF
  name_ne : ∀ f ∈ r.headers.toList, f.1 ≠ []
  name_free : ∀ f ∈ r.headers.toList, ∀ b ∈ f.1, b ≠ colon ∧ b ≠ CR ∧ b ≠ LF
  name_other : ∀ f ∈ r.headers.toList, f.1 ≠ ascii "Content-Length" ∧ f.1 ≠ ascii "Connection"
  value_free : ∀ f ∈ r.headers.toList, ∀ b ∈ f.2, b ≠ CR ∧ b ≠ LF
  body_lt : r.body.length < 10 ^ 13

/-- The header fields as they are written. -/
def fields (r : HttpResponse) : List (Bytes × Bytes) :=
  (ascii "Content-Length", digits r.body.length) :: (ascii "Connection", ascii "Keep-Alive") ::
    r.headers.toList

/-- `headLines` over such a connection. -/
def lines (r : HttpResponse) : List Bytes :=
  (ascii "HTTP/1.1 " ++ (digits r.statusCode ++ (space :: r.statusMessage))) ::
    r.fields.map ResponseDecoder.encodeField

variable {r : HttpResponse}

/-- Nothing is cut off by the scratch buffer. -/
theorem encode_eq (hcode : r.statusCode < 2 ^ 31) (hbody : r.body.length < 10 ^ 13) :
    r.encode = r.headLines.flatMap (· ++ [CR, LF]) ++ (CR :: LF :: r.body) := by
  have hcode := length_digits_le (n := r.statusCode) (k := 10) (by decide)
    (Nat.lt_trans hcode (by decide))
  have hbody := length_digits_le (n := r.body.length) (k := 13) (by decide) hbody
  have hstatus : snprintf32 (ascii "HTTP/1.1 " ++ digits r.statusCode ++ ascii " ") =
      ascii "HTTP/1.1 " ++ digits r.statusCode ++ ascii " " :=
    List.take_of_length_le (by
      simp only [List.length_append, show (ascii "HTTP/1.1 ").length = 9 from rfl,
        show (ascii " ").length = 1 from rfl]
      omega)
  have hlength : snprintf32 (ascii "Content-Length: " ++ digits r.body.length ++ ascii "\r\n") =
      ascii "Content-Length: " ++ digits r.body.length ++ ascii "\r\n" :=
    List.take_of_length_le (by
      simp only [List.length_append, show (ascii "Content-Length: ").length = 16 from rfl,
        show (ascii "\r\n").length = 2 from rfl]
      omega)
  have hfields {piece : Bytes × Bytes → List Bytes}
      (hpiece : ∀ f, piece f = [f.1, ascii ": ", f.2, ascii "\r\n"]) (fs : List (Bytes × Bytes)) :
      (fs.flatMap piece).flatten =
        (fs.map ResponseDecoder.encodeField).flatMap (· ++ [CR, LF]) := by
    induction fs with
    | nil => rfl
    | cons f fs ih =>
      simp only [List.flatMap_cons, List.flatten_append, ih, List.map_cons, hpiece]
      simp [ResponseDecoder.encodeField, ascii]
  rw [encode, pieces, headLines, framing]
  simp only [List.flatten_append, hfields fun _ => rfl, hstatus, hlength]
  cases r.closeConnection with
  | true => simp [ResponseDecoder.encodeField, ascii]
  | false => simp [ResponseDecoder.encodeField, ascii]

theorem CR_not_mem_digits (n : Nat) : CR ∉ digits n := fun h => by
  have := isDigit_of_mem_digits h
  revert this
  decide

theorem CR_not_mem_statusLine (hmessage : CR ∉ r.statusMessage) :
    CR ∉ ascii "HTTP/1.1 " ++ (digits r.statusCode ++ (space :: r.statusMessage)) := by
  rw [List.mem_append, List.mem_append, List.mem_cons]
  rintro (hcr | hcr | hcr | hcr)
  · revert hcr
    decide +kernel
  · exact CR_not_mem_digits _ hcr
  · cases hcr
  · exact hmessage hcr

/-- The lines hold no CR when message and header fields do not. -/
theorem headLines_free (hmessage : CR ∉ r.statusMessage)
    (hheaders : ∀ f ∈ r.headers.toList, CR ∉ f.1 ∧ CR ∉ f.2) :
    ∀ l ∈ r.headLines, l ≠ [] ∧ CR ∉ l := by
  have hencode {f : Bytes × Bytes} (hname : CR ∉ f.1) (hvalue : CR ∉ f.2) :
      ResponseDecoder.encodeField f ≠ [] ∧ CR ∉ ResponseDecoder.encodeField f := by
    refine ⟨by simp [ResponseDecoder.encodeField], ?_⟩
    rw [ResponseDecoder.encodeField, List.mem_append, List.mem_cons, List.mem_cons]
    rintro (h | h | h | h)
    · exact hname h
    · cases h
    · cases h
    · exact hvalue h
  have hframing : ∀ f ∈ r.framing, CR ∉ f.1 ∧ CR ∉ f.2 := by
    have hlength : CR ∉ ascii "Content-Length" := by decide +kernel
    have hconnection : CR ∉ ascii "Connection" := by decide +kernel
    rw [framing]
    split
    · exact List.forall_mem_singleton.mpr ⟨hconnection, by decide +kernel⟩
    · exact List.forall_mem_cons.mpr ⟨⟨hlength, CR_not_mem_digits _⟩,
        List.forall_mem_singleton.mpr ⟨hconnection, by decide +kernel⟩⟩
  refine List.forall_mem_cons.mpr ⟨⟨by simp [ascii], CR_not_mem_statusLine hmessage⟩,
    List.forall_mem_map.mpr fun f hf => ?_⟩
  rcases List.mem_append.mp hf with hf | hf
  · exact hencode (hframing f hf).1 (hframing f hf).2
  · exact hencode (hheaders f hf).1 (hheaders f hf).2

theorem Plain.headLines_eq (h : r.Plain) : r.headLines = r.lines := by
  rw [headLines, framing, if_neg (by simp [h.keepAlive])]
  rfl

theorem Plain.encode_eq (h : r.Plain) :
    r.encode = r.lines.flatMap (· ++ [CR, LF]) ++ (CR :: LF :: r.body) := by
  rw [HttpResponse.encode_eq h.code_lt h.body_lt, h.headLines_eq]

theorem Plain.field_name (h : r.Plain) : ∀ f ∈ r.fields, f.1 ≠ [] ∧ colon ∉ f.1 := by
  have hlength : ascii "Content-Length" ≠ [] ∧ colon ∉ ascii "Content-Length" := by decide +kernel
  refine List.forall_mem_cons.mpr ⟨hlength, List.forall_mem_cons.mpr
    ⟨by decide +kernel, fun f hf => ⟨h.name_ne f hf, fun hc => ?_⟩⟩⟩
  exact (h.name_free f hf _ hc).1 rfl

theorem Plain.lines_free (h : r.Plain) : ∀ l ∈ r.lines, l ≠ [] ∧ CR ∉ l := by
  rw [← h.headLines_eq]
  exact headLines_free (fun hcr => (h.message_free _ hcr).1 rfl) fun f hf =>
    ⟨fun hcr => (h.name_free f hf _ hcr).2.1 rfl, fun hcr => (h.value_free f hf _ hcr).1 rfl⟩

theorem ofList_toList (m : HeaderMap) : (.ofList m.toList : HeaderMap) = m := by
  refine Std.ExtTreeMap.ext_getElem? fun name => ?_
  obtain hm | ⟨value, hm⟩ := Option.eq_none_or_eq_some m[name]?
  · rw [hm]
    refine Std.ExtTreeMap.getElem?_eq_none fun hmem => ?_
    rw [Std.ExtTreeMap.mem_ofList, List.contains_iff_mem, List.mem_map] at hmem
    obtain ⟨f, hf, rfl⟩ := hmem
    cases hm.symm.trans (Std.ExtTreeMap.mem_toList_iff_getElem?_eq_some.mp hf)
  · rw [hm]
    exact Std.ExtTreeMap.getElem?_ofList_of_mem (Std.ReflCmp.compare_self) m.distinct_keys_toList
      (Std.ExtTreeMap.mem_toList_iff_getElem?_eq_some.mpr hm)

/-- The framing fields and the others are told apart by their names. -/
theorem Plain.decodeHead_lines (h : r.Plain) :
    ResponseDecoder.decodeHead r.lines = some ({ r with body := [] }, r.body.length) := by
  have hlength : ResponseDecoder.contentLength r.fields = some r.body.length := by
    have hlookup : r.fields.lookup (ascii "Content-Length") = some (digits r.body.length) :=
      List.lookup_cons_self
    rw [ResponseDecoder.contentLength, hlookup, Option.bind_some,
      if_pos ⟨digits_ne_nil _, fun _ hd => isDigit_of_mem_digits hd⟩, decimal_digits]
  have hkeep : ResponseDecoder.keepAlive r.fields = true := by
    have hlookup : r.fields.lookup (ascii "Connection") = some (ascii "Keep-Alive") := by
      rw [fields, List.lookup_cons, List.lookup_cons_self]
      rfl
    rw [ResponseDecoder.keepAlive, hlookup]
    rfl
  have hheaders : ResponseDecoder.headers r.fields = r.headers := by
    rw [ResponseDecoder.headers, fields, List.filter_cons_of_neg (by simp),
      List.filter_cons_of_neg (by simp), List.filter_eq_self.mpr fun f hf =>
        decide_eq_true (h.name_other f hf), ofList_toList]
  rw [lines, ResponseDecoder.decodeHead, ResponseDecoder.decodeStatusLine_eq, Option.bind_some,
    ResponseDecoder.mapM_decodeField h.field_name, Option.bind_some, hlength, hkeep, hheaders,
    Option.map_some]
  simp only [Bool.not_true, ← h.keepAlive]

/-- One response is decoded, and its body ends where the next one starts. -/
theorem Plain.decode_encode (h : r.Plain) (rest : Bytes) :
    ResponseDecoder.decode (r.encode ++ rest) = .done r rest := by
  rw [h.encode_eq, List.append_assoc, List.cons_append, List.cons_append, ResponseDecoder.decode,
    ResponseDecoder.splitHead_lines h.lines_free]
  simp only [h.decodeHead_lines]
  rw [if_pos (by rw [List.length_append]; omega), List.take_left, List.drop_left]

end HttpResponse

/-- The decoder takes responses as long as there are complete ones. -/
def responseDecoder : Parser Unit Byte HttpResponse Unit where
  init := ()
  parse _ := ResponseDecoder.decode
  progress {_ bs r rest} h := by
    change ResponseDecoder.decode bs = _ at h
    rw [ResponseDecoder.decode] at h
    split at h
    · cases h
    · rename_i hhead
      split at h
      · cases h
      · split at h
        · cases h
          have := ResponseDecoder.splitHead_length hhead
          rw [List.length_drop]
          omega
        · cases h

theorem drive_responses {rs : List HttpResponse} (h : ∀ r ∈ rs, r.Plain) :
    responseDecoder.drive () (rs.flatMap HttpResponse.encode) = (rs, .idle () []) := by
  induction rs with
  | nil => exact Parser.drive_nil
  | cons r rs ih =>
    obtain ⟨hr, hrs⟩ := List.forall_mem_cons.mp h
    have hdone : responseDecoder.parse () (r.encode ++ rs.flatMap HttpResponse.encode) =
        .done r (rs.flatMap HttpResponse.encode) := hr.decode_encode _
    rw [List.flatMap_cons, Parser.drive_done hdone]
    change (r :: (responseDecoder.drive () (rs.flatMap HttpResponse.encode)).1,
      (responseDecoder.drive () (rs.flatMap HttpResponse.encode)).2) = _
    rw [ih hrs]

namespace HttpResponse

/-- **Responses decode uniquely.** What `appendToBuffer` puts behind the readable bytes of a buffer,
for one response after the other, the decoder takes back to these responses, and nothing is left. -/
theorem decode_appendToBuffer (rs : List HttpResponse) (h : ∀ r ∈ rs, r.Plain) (output : Buffer) :
    ∃ appended : Bytes,
      (rs.foldl (fun output r => r.appendToBuffer output) output).readable =
        output.readable ++ appended ∧
      responseDecoder.drive () appended = (rs, .idle () []) := by
  refine ⟨rs.flatMap encode, ?_, drive_responses h⟩
  induction rs generalizing output with
  | nil => rw [List.flatMap_nil, List.append_nil, List.foldl_nil]
  | cons r rs ih =>
    rw [List.foldl_cons, ih fun r hr => h r (List.mem_cons_of_mem _ hr), readable_appendToBuffer,
      List.append_assoc, List.flatMap_cons]

/-- A response with a body that holds a blank line. -/
def blankBody : HttpResponse :=
  ((((new false).setStatusCode k200Ok).setStatusMessage (ascii "OK")).setContentType
    (ascii "text/plain")).setBody (ascii "\r\n\r\n")

theorem plain_blankBody : blankBody.Plain where
  keepAlive := rfl
  code_lt := by decide
  message_free := by decide +kernel
  name_ne := by decide +kernel
  name_free := by decide +kernel
  name_other := by decide +kernel
  value_free := by decide +kernel
  body_lt := by decide

theorem decode_appendToBuffer_two : ∃ appended : Bytes,
    ([blankBody, blankBody].foldl (fun output r => r.appendToBuffer output)
      (Buffer.new 0)).readable = (Buffer.new 0).readable ++ appended ∧
      responseDecoder.drive () appended = ([blankBody, blankBody], .idle () []) := by
  refine decode_appendToBuffer [blankBody, blankBody] (fun r hr => ?_) (Buffer.new 0)
  rw [List.mem_pair, or_self] at hr
  exact hr ▸ plain_blankBody

end HttpResponse

end MuduoX
