import MuduoX.Http.Refinement

/-! How the input of a connection is cut into reads, and what of it is parsed.

A cut is harmless in a request line, between requests, in a body, at the start of a header section
and behind a complete header line. Elsewhere in a header section it is not: the next read scans
the section again from its first byte, from an automaton state that belongs to the last one.
And no read may end right behind the CR of a request line, where `parseURI` looks at a byte that
has not arrived. -/

namespace MuduoX

open Incremental HttpParser

/-- The requests dispatched before the first parse error, without their receive times, and the
parse error or else what ended the run. -/
def observeActions (ended : Option Failure) : List Action → List HttpRequest × Option Failure
  | [] => ([], ended)
  | .badRequest :: _ => ([], some .badRequest)
  | .request req :: actions =>
    let rest := observeActions ended actions
    (req.eraseTime :: rest.1, rest.2)

def observe : List Action × Except Fault Session → List HttpRequest × Option Failure
  | (actions, .ok _) => observeActions none actions
  | (actions, .error f) => observeActions (some (.fault f)) actions

def Incremental.Status.failure {σ α ε : Type*} : Status σ α ε → Option ε
  | .idle _ _ => none
  | .failed e => some e

theorem Dispatches.observe_eq {x y} (h : Dispatches x y) :
    observe y = (x.1.map HttpRequest.eraseTime, x.2.failure) := by
  induction h with
  | idle | fault => rfl
  | @badRequest _ res => cases res <;> rfl
  | @request _ _ _ _ _ res hm _ ih =>
    cases res <;> rw [observe] at ih ⊢ <;> rw [observeActions, ih, hm] <;> rfl

/-! ### Cuts -/

/-- The bytes `t` have arrived and `c` is the next read. -/
structure SafeCut (t c : Bytes) : Prop where
  resume : ∀ p r, (parser.drive .line t).2 = .idle p r → Resume p (r ++ c)
  inBounds : Status.InBounds (parser.drive .line (t ++ c)).2

/-- Every cut is safe, with `t` the bytes before the first chunk. -/
def SafeCuts (t : Bytes) : List Bytes → Prop
  | [] => True
  | c :: cs => SafeCut t c ∧ SafeCuts (t ++ c) cs

theorem SafeCut.of_idle {t c r r' : Bytes} {p p' : Phase}
    (ht : (parser.drive .line t).2 = .idle p r) (hr : Resume p (r ++ c))
    (htc : (parser.drive .line (t ++ c)).2 = .idle p' r') (hr' : ¬LooksPast p' r') :
    SafeCut t c where
  resume p₁ r₁ h := by
    rw [ht] at h
    cases h
    exact hr
  inBounds p₁ r₁ h := by
    rw [htc] at h
    cases h
    exact hr'

theorem SafeCuts.at {t c : Bytes} {pre post : List Bytes} (h : SafeCuts t (pre ++ c :: post)) :
    SafeCut (t ++ pre.flatten) c := by
  induction pre generalizing t with
  | nil => simpa using h.1
  | cons d pre ih =>
    have := ih h.2
    rwa [List.append_assoc] at this

theorem SafeCuts.feedAll_eq_drive {cs : List Bytes} (h : SafeCuts [] cs) :
    parser.feedAll (.idle .line []) cs = parser.drive .line cs.flatten :=
  resumable.feedAll_eq_drive cs fun pre c post p r hcs hd =>
    (hcs ▸ h).at.resume p r (by rwa [List.nil_append])

theorem SafeCuts.of_append {t : Bytes} {pre : List Bytes} (post : List Bytes)
    (h : SafeCuts t (pre ++ post)) : SafeCuts t pre := by
  induction pre generalizing t with
  | nil => trivial
  | cons d pre ih => exact ⟨h.1, ih h.2⟩

/-- Chunk after chunk or all at once, the same requests are dispatched up to the first parse error
and the same error is reported, when every cut is safe. -/
theorem Session.observe_deliverAll (cs : List Chunk) (t : Timestamp)
    (h : SafeCuts [] (cs.map Chunk.data)) :
    observe (fresh.deliverAll cs) = observe (fresh.deliver ⟨(cs.map Chunk.data).flatten, t⟩) := by
  have hrun := deliverAll_agrees (s := fresh) cs .line fun pre c post hcs => by
    rw [hcs, List.map_append, List.map_cons] at h
    have hpre : SafeCuts [] ((pre ++ [c]).map Chunk.data) := by
      rw [List.map_append]
      exact SafeCuts.of_append (post.map Chunk.data) (by simpa using h)
    have hbounds := h.at.inBounds
    rw [show fresh.inputBuffer.readable = [] from Buffer.readable_new _, hpre.feedAll_eq_drive]
    simpa using hbounds
  rw [show fresh.inputBuffer.readable = [] from Buffer.readable_new _, h.feedAll_eq_drive] at hrun
  have hone := deliver_agrees (s := fresh) (c := ⟨(cs.map Chunk.data).flatten, t⟩) .line
  rw [show fresh.inputBuffer.readable = [] from Buffer.readable_new _, List.nil_append] at hone
  rw [hrun.observe_eq, (hone ?_).observe_eq]
  rcases List.eq_nil_or_concat (cs.map Chunk.data) with hnil | ⟨pre, c, hcs⟩
  · rw [hnil]
    intro p r hd
    simp only [List.flatten_nil] at hd
    rw [← parser_init, Parser.drive_nil] at hd
    cases hd
    exact List.not_mem_nil
  · rw [hcs, List.concat_eq_append] at h ⊢
    simpa using h.at.inBounds

/-- A POST request cut in its request line and in its body. -/
theorem Session.observe_deliverAll_line_body :
    observe (fresh.deliverAll [⟨ascii "POST / HT", 1⟩,
        ⟨ascii "TP/1.1\r\nContent-Length: 2\r\n\r\na", 2⟩, ⟨ascii "b", 3⟩]) =
      observe (fresh.deliver
        ⟨ascii "POST / HTTP/1.1\r\nContent-Length: 2\r\n\r\nab", 3⟩) := by
  have line : parser.parse .line (ascii "POST / HT") = .more .line (ascii "POST / HT") := by
    decide +kernel
  have body : parser.parse .line (ascii "POST / HTTP/1.1\r\nContent-Length: 2\r\n\r\na") =
      .more (.body { HttpRequest.new with
        method := .kPost, version := .kHttp11, path := ascii "/"
        headers := (∅ : HeaderMap).insert (ascii "Content-Length") (ascii "2") }
        2 (by decide)) (ascii "a") := by
    decide +kernel
  have whole : parser.parse .line (ascii "POST / HTTP/1.1\r\nContent-Length: 2\r\n\r\nab") =
      .done { HttpRequest.new with
        method := .kPost, version := .kHttp11, path := ascii "/", body := ascii "ab"
        headers := (∅ : HeaderMap).insert (ascii "Content-Length") (ascii "2") } [] := by
    decide +kernel
  have h₀ := congrArg Prod.snd (Parser.drive_nil (P := parser) (s := .line))
  have h₁ := congrArg Prod.snd (Parser.drive_more (by decide) line)
  have h₂ := congrArg Prod.snd (Parser.drive_more (by decide) body)
  have h₃ := congrArg Prod.snd ((Parser.drive_done whole).trans
    (by rw [parser_init, Parser.drive_nil]))
  exact observe_deliverAll [⟨_, 1⟩, ⟨_, 2⟩, ⟨_, 3⟩] 3
    ⟨.of_idle h₀ trivial h₁ (by decide), .of_idle h₁ trivial h₂ (by decide),
      .of_idle h₂ trivial h₃ (by decide), trivial⟩

/-- A cut between the CR and the LF of a header line: the second scan starts behind a CR that it
does not find, and a request that arrives whole is refused when it arrives in two reads. -/
theorem Session.observe_deliverAll_header_line :
    observe (fresh.deliverAll [⟨ascii "GET / HTTP/1.1\r\nA: b\r", 0⟩, ⟨ascii "\n\r\n", 0⟩]) =
        ([], some .badRequest) ∧
      observe (fresh.deliver ⟨ascii "GET / HTTP/1.1\r\nA: b\r" ++ ascii "\n\r\n", 0⟩) =
        ([{ HttpRequest.new with
            method := .kGet, version := .kHttp11, path := ascii "/"
            headers := (∅ : HeaderMap).insert (ascii "A") (ascii "b") }], none) := by
  decide +kernel

end MuduoX
