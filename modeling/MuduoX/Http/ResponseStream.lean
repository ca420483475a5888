import MuduoX.Http.ResponseDecoder

/-! # A stream of responses up to its end

A response that closes the connection has no `Content-Length`: its body goes on to the end of the
stream. `streamDecoder` is offered the whole stream, so it can take such a response as well, as the
last one. -/

namespace MuduoX

open Incremental

namespace ResponseDecoder

/-- The head of a response that goes on to the end of the stream. -/
def decodeClosing : List Bytes → Option HttpResponse
  | [] => none
  | line :: lines =>
    (decodeStatusLine line).bind fun status =>
    (lines.mapM decodeField).bind fun fields =>
      if fields.lookup (ascii "Connection") = some (ascii "close") ∧
          fields.lookup (ascii "Content-Length") = none then
        some
          { headers := headers fields
            statusCode := status.1
            statusMessage := status.2
            closeConnection := true
            body := [] }
      else none

def decodeStream (bs : Bytes) : Reply Unit Byte HttpResponse Unit :=
  match splitHead [] bs with
  | none => .more () bs
  | some (lines, rest) =>
    match decodeClosing lines with
    | some r => .done { r with body := rest } []
    | none => decode bs

end ResponseDecoder

/-- What a client makes of a stream of which it has seen the end. -/
def streamDecoder : Parser Unit Byte HttpResponse Unit where
  init := ()
  parse _ := ResponseDecoder.decodeStream
  progress {_ bs r rest} h := by
    change ResponseDecoder.decodeStream bs = _ at h
    rw [ResponseDecoder.decodeStream] at h
    split at h
    · cases h
    · rename_i hhead
      split at h
      · cases h
        exact Nat.zero_lt_of_lt (ResponseDecoder.splitHead_length hhead)
      · exact responseDecoder.progress (s := ()) h

namespace HttpResponse

/-- A response behind which the connection is closed. -/
structure Final (r : HttpResponse) : Prop where
  closes : r.closeConnection = true
  plain : Plain { r with closeConnection := false }

variable {r : HttpResponse}

theorem lookup_eq_none {name : Bytes} {fields : List (Bytes × Bytes)}
    (h : ∀ f ∈ fields, f.1 ≠ name) : fields.lookup name = none := by
  rw [List.lookup_eq_none_iff]
  intro f hf
  exact bne_iff_ne.mpr (h f hf).symm

/-- The header fields of a final response, as they are written. -/
def finalFields (r : HttpResponse) : List (Bytes × Bytes) :=
  (ascii "Connection", ascii "close") :: r.headers.toList

theorem Final.headLines_eq (h : r.Final) : r.headLines =
    (ascii "HTTP/1.1 " ++ (digits r.statusCode ++ (space :: r.statusMessage))) ::
      r.finalFields.map ResponseDecoder.encodeField := by
  rw [headLines, framing, if_pos h.closes]
  rfl

theorem Final.headLines_free (h : r.Final) : ∀ l ∈ r.headLines, l ≠ [] ∧ CR ∉ l :=
  HttpResponse.headLines_free (fun hcr => (h.plain.message_free _ hcr).1 rfl) fun f hf =>
    ⟨fun hcr => (h.plain.name_free f hf _ hcr).2.1 rfl,
      fun hcr => (h.plain.value_free f hf _ hcr).1 rfl⟩

theorem Final.decodeClosing (h : r.Final) :
    ResponseDecoder.decodeClosing r.headLines = some { r with body := [] } := by
  have hnames : ∀ f ∈ r.finalFields, f.1 ≠ [] ∧ colon ∉ f.1 := by
    have hconnection : ascii "Connection" ≠ [] ∧ colon ∉ ascii "Connection" := by decide +kernel
    refine List.forall_mem_cons.mpr ⟨hconnection, fun f hf => ⟨h.plain.name_ne f hf, fun hc => ?_⟩⟩
    exact (h.plain.name_free f hf _ hc).1 rfl
  have hclose : r.finalFields.lookup (ascii "Connection") = some (ascii "close") :=
    List.lookup_cons_self
  have hlength : r.finalFields.lookup (ascii "Content-Length") = none :=
    lookup_eq_none (List.forall_mem_cons.mpr
      ⟨by decide +kernel, fun f hf => (h.plain.name_other f hf).1⟩)
  have hheaders : ResponseDecoder.headers r.finalFields = r.headers := by
    rw [ResponseDecoder.headers, finalFields, List.filter_cons_of_neg (by simp),
      List.filter_eq_self.mpr fun f hf => decide_eq_true (h.plain.name_other f hf), ofList_toList]
  rw [h.headLines_eq, ResponseDecoder.decodeClosing, ResponseDecoder.decodeStatusLine_eq,
    Option.bind_some, ResponseDecoder.mapM_decodeField hnames, Option.bind_some,
    if_pos ⟨hclose, hlength⟩, hheaders]
  simp only [← h.closes]

/-- A final response takes all the rest. -/
theorem Final.decodeStream (h : r.Final) :
    ResponseDecoder.decodeStream r.encode = .done r [] := by
  rw [encode_eq (r := r) h.plain.code_lt h.plain.body_lt, ResponseDecoder.decodeStream,
    ResponseDecoder.splitHead_lines h.headLines_free]
  simp only [h.decodeClosing]

theorem Plain.decodeClosing (h : r.Plain) : ResponseDecoder.decodeClosing r.lines = none := by
  have hkeep : r.fields.lookup (ascii "Connection") = some (ascii "Keep-Alive") := by
    rw [fields, List.lookup_cons, List.lookup_cons_self]
    rfl
  rw [lines, ResponseDecoder.decodeClosing, ResponseDecoder.decodeStatusLine_eq, Option.bind_some,
    ResponseDecoder.mapM_decodeField h.field_name, Option.bind_some, if_neg]
  rintro ⟨hclose, -⟩
  exact absurd (hkeep.symm.trans hclose) (by decide +kernel)

theorem Plain.decodeStream (h : r.Plain) (rest : Bytes) :
    ResponseDecoder.decodeStream (r.encode ++ rest) = .done r rest := by
  have hhead : ResponseDecoder.splitHead [] (r.encode ++ rest) = some (r.lines, r.body ++ rest) := by
    rw [h.encode_eq, List.append_assoc, List.cons_append, List.cons_append,
      ResponseDecoder.splitHead_lines h.lines_free]
  rw [ResponseDecoder.decodeStream, hhead]
  simp only [h.decodeClosing]
  exact h.decode_encode rest

/-- What of a list of responses is sent: the connection is closed behind the first final one. -/
def upToFinal : List HttpResponse → List HttpResponse
  | [] => []
  | r :: rs => if r.closeConnection then [r] else r :: upToFinal rs

/-- A response that can be told from what is around it. -/
def Framed (r : HttpResponse) : Prop := r.Plain ∨ r.Final

theorem drive_upToFinal {rs : List HttpResponse} (h : ∀ r ∈ rs, r.Framed) :
    streamDecoder.drive () ((upToFinal rs).flatMap encode) = (upToFinal rs, .idle () []) := by
  induction rs with
  | nil => exact Parser.drive_nil
  | cons r rs ih =>
    obtain ⟨hr, hrs⟩ := List.forall_mem_cons.mp h
    rw [upToFinal]
    obtain hplain | hfinal := hr
    · have hdone : streamDecoder.parse () (r.encode ++ (upToFinal rs).flatMap encode) =
          .done r ((upToFinal rs).flatMap encode) := hplain.decodeStream _
      rw [if_neg (by simp [hplain.keepAlive]), List.flatMap_cons, Parser.drive_done hdone]
      change (r :: (streamDecoder.drive () ((upToFinal rs).flatMap encode)).1,
        (streamDecoder.drive () ((upToFinal rs).flatMap encode)).2) = _
      rw [ih hrs]
    · have hdone : streamDecoder.parse () r.encode = .done r [] := hfinal.decodeStream
      rw [if_pos hfinal.closes, List.flatMap_singleton, Parser.drive_done hdone, Parser.drive_nil]

end HttpResponse

end MuduoX
