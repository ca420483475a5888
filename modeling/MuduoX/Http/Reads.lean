import MuduoX.Http.FreshRequest

/-! Which bytes of the buffer a call of `parseRequest` reads.

`accesses` lists the reads in their order, for every context and every buffer. Two of them can go
wrong. `parseURI` looks at the byte behind the first CR, which may not have arrived, and the
positions of `parseHeaders` are null until the call itself has set them, so that a state kept from
an earlier call may work with null pointers (`UsesNull`). -/

namespace MuduoX

/-- A read, at offsets from `peek()`: one byte, a range handed to `std::find` or copied by a
constructor of `std::string`, or a call of `addHeader` with its three pointers. -/
inductive Access where
  | byte (i : Nat)
  | range (first last : Option Nat)
  | addHeader (start colon last : Option Nat)
  deriving DecidableEq

/-- The read stays among the `n` readable bytes. -/
def Access.InRange (n : Nat) : Access → Prop
  | .byte i => i < n
  | .range (some first) (some last) => first ≤ last ∧ last ≤ n
  | .range none none => True
  | .range _ _ => False
  | .addHeader (some start) (some colon) (some last) => start ≤ colon ∧ colon < last ∧ last ≤ n
  | .addHeader _ _ _ => False

instance (n : Nat) : ∀ a : Access, Decidable (a.InRange n)
  | .byte _ => inferInstanceAs (Decidable (_ < _))
  | .range (some _) (some _) => inferInstanceAs (Decidable (_ ∧ _))
  | .range none none => inferInstanceAs (Decidable True)
  | .range (some _) none => inferInstanceAs (Decidable False)
  | .range none (some _) => inferInstanceAs (Decidable False)
  | .addHeader (some _) (some _) (some _) => inferInstanceAs (Decidable (_ ∧ _ ∧ _))
  | .addHeader none _ _ => inferInstanceAs (Decidable False)
  | .addHeader (some _) none _ => inferInstanceAs (Decidable False)
  | .addHeader (some _) (some _) none => inferInstanceAs (Decidable False)

namespace HttpContext

/-! ### The reads of each function -/

/-- Steps 1 to 3 of `parseURI`, on the line `[0, crlf)`. -/
def requestLineAccesses (req : HttpRequest) (bytes : Bytes) (crlf : Nat) : List Access :=
  let sp := find bytes 0 crlf space
  .range (some 0) (some crlf) ::
  if sp = crlf then [] else
  .range (some 0) (some sp) ::
  if ¬ (req.setMethod (slice bytes 0 sp)).1 then [] else
  let space2 := find bytes (sp + 1) crlf space
  .range (some (sp + 1)) (some crlf) ::
  if space2 = crlf then [] else
  let quest := find bytes (sp + 1) space2 question
  .range (some (sp + 1)) (some space2) ::
  (if quest ≠ space2 then
    [.range (some (sp + 1)) (some quest), .range (some (quest + 1)) (some space2)]
  else [.range (some (sp + 1)) (some space2)]) ++
  [.range (some (space2 + 1)) (some crlf)]

def parseURIAccesses (ctx : HttpContext) (buf : Buffer) : List Access :=
  if buf.readableBytes = 0 then [] else
  let bytes := buf.readable
  let last := buf.readableBytes
  let crlf := find bytes 0 last CR
  .range (some 0) (some last) ::
  if crlf = last then [] else
  requestLineAccesses ctx.request bytes crlf ++
  if (requestLine ctx.request bytes crlf).1 then [.byte (crlf + 1)] else []

/-- A call of `addHeader` and the two ranges that it copies from. -/
def addHeaderAccesses (start colon last : Option Nat) : List Access :=
  [.addHeader start colon last, .range start colon, .range (colon.map (· + 1)) last]

/-- One turn of the `switch`, with the strings that are built for `LOG_INFO`. `last` is the end of
the readable range. -/
def headerStepAccesses (last current : Nat) (ch : Byte) (s : HeaderScan) : List Access :=
  .byte current ::
  match s.hState with
  | .start => if ch = LF ∨ ch = CR then [] else [.range (some current) (some last)]
  | .key => if ch = colon then [.range s.keyStart (some current)] else []
  | .colon => if ch = space then [.range s.keyEnd (some (current + 1))] else []
  | .spacesAfterColon => [.range (some current) (some last)]
  | .value =>
    if ch = CR then [.range s.valStart (some current)]
    else if ch = LF then
      addHeaderAccesses s.keyStart s.keyEnd (some current) ++ [.range s.valStart (some current)]
    else []
  | .cr =>
    if ch = LF then
      addHeaderAccesses s.keyStart s.keyEnd s.valEnd ++ [.range s.valStart s.valEnd]
    else []
  | .lf =>
    if ch = CR then [.range (some current) (some (current + 1))]
    else [.range (some current) (some last)]
  | .endCR => if ch = LF then [.range (some current) (some (current + 1))] else []
  | .endLF => []

/-- The loop of `parseHeaders`, for as long as it goes on. -/
def headerLoopAccesses (bytes : Bytes) : Bytes → Nat → HeaderScan → List Access
  | [], _, _ => []
  | ch :: rest, current, s =>
    headerStepAccesses bytes.length current ch s ++
    match headerStep bytes current ch s with
    | .ok (.next s' _) => headerLoopAccesses bytes rest (current + 1) s'
    | _ => []

def parseHeadersAccesses (ctx : HttpContext) (buf : Buffer) : List Access :=
  headerLoopAccesses buf.readable buf.readable 0 (.enter ctx.hState)

def recvBodyAccesses (ctx : HttpContext) (buf : Buffer) : List Access :=
  match ctx.request.headers[ascii "Content-Length"]? with
  | none => []
  | some v =>
    match stoul v with
    | .error _ => []
    | .ok len => if len ≤ buf.readableBytes then [.range (some 0) (some len)] else []

/-- The turns of the driver, each read with the number of bytes that are readable at that time. -/
def parseLoopAccesses : Nat → HttpContext → Buffer → Timestamp → List (Nat × Access)
  | 0, _, _, _ => []
  | fuel + 1, ctx, buf, receiveTime =>
    match ctx.state with
    | .parseURI =>
      (ctx.parseURIAccesses buf).map (Prod.mk buf.readableBytes) ++
      match ctx.parseURI buf with
      | .ok (.success, ctx, buf) =>
        parseLoopAccesses fuel
          { ctx with request := ctx.request.setReceiveTime receiveTime, state := .parseHeaders }
          buf receiveTime
      | _ => []
    | .parseHeaders =>
      (ctx.parseHeadersAccesses buf).map (Prod.mk buf.readableBytes) ++
      match ctx.parseHeaders buf with
      | .ok (.success, ctx, buf) =>
        if ctx.request.method = .kPost then
          parseLoopAccesses fuel { ctx with state := .recvBody } buf receiveTime
        else parseLoopAccesses fuel { ctx with state := .analysis } buf receiveTime
      | _ => []
    | .recvBody =>
      (ctx.recvBodyAccesses buf).map (Prod.mk buf.readableBytes) ++
      match ctx.recvBody buf with
      | .ok (some (ctx, buf)) => parseLoopAccesses fuel ctx buf receiveTime
      | _ => []
    | .analysis => []
    | .finish => parseLoopAccesses fuel ctx buf receiveTime

def accesses (ctx : HttpContext) (buf : Buffer) (receiveTime : Timestamp) :
    List (Nat × Access) :=
  parseLoopAccesses 4 ctx buf receiveTime

/-! ### When they are in range -/

/-- In the states that a call begins with, the bytes that make the automaton work with a position
that this call has not set. -/
def UsesNull : ParseState → Bytes → Prop
  | .key, bytes => bytes.find? (fun b => b = colon ∨ b = CR ∨ b = LF) = some colon
  | .colon, bytes => bytes.head? = some space
  | .spacesAfterColon, bytes =>
    [LF] <+: bytes.tail.dropWhile (fun b => b ≠ CR ∧ b ≠ LF) ∨
      [CR, LF] <+: bytes.tail.dropWhile (fun b => b ≠ CR ∧ b ≠ LF)
  | .value, bytes => CR ∈ bytes ∨ LF ∈ bytes
  | .cr, bytes => bytes.head? = some LF
  | _, _ => False

/-- The byte behind the CR of a request line has arrived, and the header section can be scanned
without the positions of an earlier call. -/
def ReadsReceived (ctx : HttpContext) (bytes : Bytes) : Prop :=
  match ctx.state with
  | .parseURI => ∀ line rest m, bytes = line ++ CR :: rest → CR ∉ line → IsRequestLine m line →
    rest ≠ [] ∧ ∀ rest', rest = LF :: rest' → ¬ UsesNull ctx.hState rest'
  | .parseHeaders => ¬ UsesNull ctx.hState bytes
  | _ => True

variable {bytes rest : Bytes} {k n : Nat} {ch : Byte} {s s' : HeaderScan} {req : HttpRequest}
  {ctx : HttpContext} {buf : Buffer} {t : Timestamp}

theorem requestLineAccesses_inRange {crlf : Nat} (hcrlf : crlf ≤ n) :
    ∀ a ∈ requestLineAccesses req bytes crlf, a.InRange n := by
  have h₁ := find_le bytes (Nat.zero_le crlf) space
  unfold requestLineAccesses
  simp only
  generalize find bytes 0 crlf space = sp at h₁ ⊢
  refine List.forall_mem_cons.mpr ⟨⟨Nat.zero_le _, hcrlf⟩, ?_⟩
  split
  · exact List.forall_mem_nil _
  refine List.forall_mem_cons.mpr ⟨⟨Nat.zero_le _, h₁.trans hcrlf⟩, ?_⟩
  split
  · exact List.forall_mem_nil _
  have hle : sp + 1 ≤ crlf := by omega
  have h₂ := find_le bytes hle space
  have h₃ : sp + 1 ≤ find bytes (sp + 1) crlf space := Nat.le_add_right ..
  generalize find bytes (sp + 1) crlf space = space2 at h₂ h₃ ⊢
  refine List.forall_mem_cons.mpr ⟨⟨hle, hcrlf⟩, ?_⟩
  split
  · exact List.forall_mem_nil _
  have h₄ := find_le bytes h₃ question
  have h₅ : sp + 1 ≤ find bytes (sp + 1) space2 question := Nat.le_add_right ..
  generalize find bytes (sp + 1) space2 question = quest at h₄ h₅ ⊢
  have hver : (Access.range (some (space2 + 1)) (some crlf)).InRange n := ⟨by omega, hcrlf⟩
  have htarget : (Access.range (some (sp + 1)) (some space2)).InRange n := ⟨h₃, by omega⟩
  split
  · have hpath : (Access.range (some (sp + 1)) (some quest)).InRange n := ⟨h₅, by omega⟩
    have hquery : (Access.range (some (quest + 1)) (some space2)).InRange n :=
      ⟨by omega, by omega⟩
    simp [hver, htarget, hpath, hquery]
  · simp [hver, htarget]

/-- The line is read up to its CR, and one byte more when it is a request line. -/
theorem parseURIAccesses_inRange :
    (∀ a ∈ ctx.parseURIAccesses buf, a.InRange buf.readableBytes) ↔
      ∀ line rest m, buf.readable = line ++ CR :: rest → CR ∉ line → IsRequestLine m line →
        rest ≠ [] := by
  by_cases hcr : CR ∈ buf.readable
  · obtain ⟨line, rest, hline, hfree⟩ := List.eq_append_cons_of_mem hcr
    have hlen := congrArg List.length hline
    rw [Buffer.readable_length, List.length_append, List.length_cons] at hlen
    have hit := find_hit [] rest buf.readableBytes hfree (by simp; omega)
    simp only [List.nil_append, List.length_nil, Nat.zero_add] at hit
    have hreads : ctx.parseURIAccesses buf =
        .range (some 0) (some buf.readableBytes) ::
          (requestLineAccesses ctx.request buf.readable line.length ++
            if (requestLine ctx.request line line.length).1 then [.byte (line.length + 1)]
            else []) := by
      rw [parseURIAccesses, if_neg (by omega)]
      simp only [hline, hit]
      rw [if_neg (by omega), requestLine_append]
    rw [hreads, List.forall_mem_cons, List.forall_mem_append]
    constructor
    · intro h line' rest' m hline' hfree' hm
      obtain ⟨rfl, hrest⟩ := line_unique (hline.symm.trans hline') hfree hfree'
      have hread := h.2.2
      rw [(requestLine_iff ctx.request line).mpr ⟨m, hm⟩] at hread
      have hlt : line.length + 1 < buf.readableBytes := hread _ List.mem_cons_self
      rw [← hrest]
      rintro rfl
      simp at hlen
      omega
    · intro h
      refine ⟨⟨Nat.zero_le _, Nat.le_refl _⟩, requestLineAccesses_inRange (by omega), ?_⟩
      split
      · rename_i hvalid
        obtain ⟨m, hm⟩ := (requestLine_iff ctx.request line).mp hvalid
        have hne := List.length_pos_iff.mpr (h line rest m hline hfree hm)
        simp only [List.mem_singleton, forall_eq]
        show line.length + 1 < buf.readableBytes
        omega
      · exact List.forall_mem_nil _
  · have hmiss := find_miss [] [] hcr
    simp only [List.nil_append, List.append_nil, List.length_nil, Nat.zero_add,
      Buffer.readable_length] at hmiss
    constructor
    · intro h line rest m hline
      exact absurd (hline ▸ by simp) hcr
    · intro h
      unfold parseURIAccesses
      split
      · exact List.forall_mem_nil _
      · simp only [hmiss, if_pos]
        exact List.forall_mem_singleton.mpr ⟨Nat.zero_le _, Nat.le_refl _⟩

/-! ### The header section -/

/-- Every read of the loop, from a turn on, is in range. -/
def HeaderScan.Reads (bytes rest : Bytes) (k : Nat) (s : HeaderScan) : Prop :=
  ∀ a ∈ headerLoopAccesses bytes rest k s, a.InRange bytes.length

theorem HeaderScan.reads_nil : s.Reads bytes [] k := List.forall_mem_nil _

theorem HeaderScan.reads_next {stored}
    (h : headerStep bytes k ch s = .ok (.next s' stored)) :
    s.Reads bytes (ch :: rest) k ↔
      (∀ a ∈ headerStepAccesses bytes.length k ch s, a.InRange bytes.length) ∧
        s'.Reads bytes rest (k + 1) := by
  unfold Reads
  rw [headerLoopAccesses, List.forall_mem_append, h]

theorem HeaderScan.reads_error (h : headerStep bytes k ch s = .ok .error) :
    s.Reads bytes (ch :: rest) k ↔
      ∀ a ∈ headerStepAccesses bytes.length k ch s, a.InRange bytes.length := by
  unfold Reads
  rw [headerLoopAccesses, h, List.append_nil]

theorem HeaderScan.reads_success (h : headerStep bytes k ch s = .ok .success) :
    s.Reads bytes (ch :: rest) k ↔
      ∀ a ∈ headerStepAccesses bytes.length k ch s, a.InRange bytes.length := by
  unfold Reads
  rw [headerLoopAccesses, h, List.append_nil]

/-- A turn that works with a null pointer. -/
theorem HeaderScan.not_reads {a : Access} (ha : a ∈ headerStepAccesses bytes.length k ch s)
    (hrange : ¬ a.InRange bytes.length) : ¬ s.Reads bytes (ch :: rest) k := by
  intro h
  refine hrange (h a ?_)
  rw [headerLoopAccesses]
  exact List.mem_append_left _ ha

theorem addHeaderAccesses_inRange {i j e : Nat} (hij : i ≤ j) (hje : j < e) (he : e ≤ n) :
    ∀ a ∈ addHeaderAccesses (some i) (some j) (some e), a.InRange n := by
  have hfield : (Access.range (some i) (some j)).InRange n := ⟨hij, by omega⟩
  have hvalue : (Access.range (some (j + 1)) (some e)).InRange n := ⟨hje, he⟩
  have hcall : (Access.addHeader (some i) (some j) (some e)).InRange n := ⟨hij, hje, he⟩
  simp [addHeaderAccesses, hfield, hvalue, hcall]

/-- With its positions set, a turn reads received bytes. -/
theorem HeaderScan.Ready.step (h : s.Ready k) (hk : k < n) (ch : Byte) :
    ∀ a ∈ headerStepAccesses n k ch s, a.InRange n := by
  have hbyte : (Access.byte k).InRange n := hk
  have hone : (Access.range (some k) (some (k + 1))).InRange n := ⟨k.le_succ, hk⟩
  have hrest : (Access.range (some k) (some n)).InRange n := ⟨hk.le, Nat.le_refl n⟩
  refine List.forall_mem_cons.mpr ⟨hbyte, ?_⟩
  cases h with
  | outside hs =>
    obtain hs | hs | hs | hs := hs <;> rw [hs] <;> dsimp only
    · split
      · exact List.forall_mem_nil _
      · exact List.forall_mem_singleton.mpr hrest
    · split
      · exact List.forall_mem_singleton.mpr hone
      · exact List.forall_mem_singleton.mpr hrest
    · split
      · exact List.forall_mem_singleton.mpr hone
      · exact List.forall_mem_nil _
    · exact List.forall_mem_nil _
  | key hi =>
    dsimp only
    split
    · exact List.forall_mem_singleton.mpr ⟨hi.le, hk.le⟩
    · exact List.forall_mem_nil _
  | colon hij hj =>
    dsimp only
    split
    · exact List.forall_mem_singleton.mpr ⟨by omega, hk⟩
    · exact List.forall_mem_nil _
  | spacesAfterColon hij hj => exact List.forall_mem_singleton.mpr hrest
  | value hij hjv hv =>
    dsimp only
    split
    · exact List.forall_mem_singleton.mpr ⟨hv.le, hk.le⟩
    · split
      · exact List.forall_mem_append.mpr ⟨addHeaderAccesses_inRange hij (by omega) hk.le,
          List.forall_mem_singleton.mpr ⟨hv.le, hk.le⟩⟩
      · exact List.forall_mem_nil _
  | cr hij hjv hve he =>
    dsimp only
    split
    · exact List.forall_mem_append.mpr ⟨addHeaderAccesses_inRange hij (by omega) (by omega),
        List.forall_mem_singleton.mpr ⟨hve, by omega⟩⟩
    · exact List.forall_mem_nil _

theorem HeaderScan.Ready.reads (h : s.Ready k) (hk : k + rest.length = bytes.length) :
    s.Reads bytes rest k := by
  induction rest generalizing k s with
  | nil => exact reads_nil
  | cons ch rest ih =>
    rw [List.length_cons] at hk
    have hstep := h.step (n := bytes.length) (by omega) ch
    have hfollows := h.follows bytes ch
    generalize turn s.hState ch = turned at hfollows
    cases hfollows with
    | next hnext hready => exact (reads_next hnext).mpr ⟨hstep, ih hready (by omega)⟩
    | error herr => exact (reads_error herr).mpr hstep
    | success hsucc => exact (reads_success hsucc).mpr hstep

/-! The states that a call can begin with, their positions null. -/

theorem byte_inRange (hk : k + (rest.length + 1) = n) : (Access.byte k).InRange n := by
  show k < n
  omega

theorem HeaderScan.reads_key (hs : s.hState = .key) (hnull : s.keyStart = none)
    (hk : k + rest.length = bytes.length) : s.Reads bytes rest k ↔ ¬ UsesNull .key rest := by
  induction rest generalizing k with
  | nil => exact iff_of_true reads_nil (by simp [UsesNull])
  | cons ch rest ih =>
    have hbyte := byte_inRange hk
    by_cases hcolon : ch = colon
    · refine iff_of_false (not_reads (a := .range none (some k)) ?_ not_false) ?_
      · simp [headerStepAccesses, hs, hcolon, hnull]
      · simp [UsesNull, hcolon]
    · by_cases hend : ch = LF ∨ ch = CR
      · rw [reads_error (by simp only [headerStep, hs, if_neg hcolon, if_pos hend])]
        refine iff_of_true ?_ ?_
        · simpa [headerStepAccesses, hs, hcolon] using hbyte
        · obtain rfl | rfl := hend <;> simp [UsesNull, hcolon]
      · rw [reads_next (by simp only [headerStep, hs, if_neg hcolon, if_neg hend]; rfl),
          ih (by simp at hk; omega)]
        have hstep : ∀ a ∈ headerStepAccesses bytes.length k ch s, a.InRange bytes.length := by
          simpa [headerStepAccesses, hs, hcolon] using hbyte
        rw [not_or] at hend
        simp only [UsesNull, and_iff_right hstep, List.find?_cons, hcolon, hend.1, hend.2, or_self,
          decide_false]

theorem HeaderScan.reads_colon (hs : s.hState = .colon) (hnull : s.keyEnd = none)
    (hk : k + rest.length = bytes.length) : s.Reads bytes rest k ↔ ¬ UsesNull .colon rest := by
  cases rest with
  | nil => exact iff_of_true reads_nil (by simp [UsesNull])
  | cons ch rest =>
    have hbyte := byte_inRange hk
    by_cases hspace : ch = space
    · refine iff_of_false (not_reads (a := .range none (some (k + 1))) ?_ not_false) ?_
      · simp [headerStepAccesses, hs, hspace, hnull]
      · simp [UsesNull, hspace]
    · rw [reads_error (by simp only [headerStep, hs, if_neg hspace])]
      refine iff_of_true ?_ ?_
      · simpa [headerStepAccesses, hs, hspace] using hbyte
      · simpa [UsesNull] using hspace

theorem HeaderScan.reads_cr (hs : s.hState = .cr) (hnull : s.keyStart = none)
    (hk : k + rest.length = bytes.length) : s.Reads bytes rest k ↔ ¬ UsesNull .cr rest := by
  cases rest with
  | nil => exact iff_of_true reads_nil (by simp [UsesNull])
  | cons ch rest =>
    have hbyte := byte_inRange hk
    by_cases hlf : ch = LF
    · refine iff_of_false (not_reads (a := .addHeader none s.keyEnd s.valEnd) ?_ not_false) ?_
      · simp [headerStepAccesses, addHeaderAccesses, hs, hlf, hnull]
      · simp [UsesNull, hlf]
    · rw [reads_error (by simp only [headerStep, hs, if_neg hlf])]
      refine iff_of_true ?_ ?_
      · simpa [headerStepAccesses, hs, hlf] using hbyte
      · simpa [UsesNull] using hlf

theorem HeaderScan.reads_value (hs : s.hState = .value) (hkey : s.keyStart = none)
    (hval : s.valStart = none) (hk : k + rest.length = bytes.length) :
    s.Reads bytes rest k ↔ ¬ UsesNull .value rest := by
  induction rest generalizing k with
  | nil => exact iff_of_true reads_nil (by simp [UsesNull])
  | cons ch rest ih =>
    have hbyte := byte_inRange hk
    by_cases hcr : ch = CR
    · refine iff_of_false (not_reads (a := .range none (some k)) ?_ not_false) ?_
      · simp [headerStepAccesses, hs, hcr, hval]
      · simp [UsesNull, hcr]
    · by_cases hlf : ch = LF
      · refine iff_of_false (not_reads (a := .addHeader none s.keyEnd (some k)) ?_ not_false) ?_
        · simp [headerStepAccesses, addHeaderAccesses, hs, if_neg hcr, if_pos hlf, hkey]
        · simp [UsesNull, hlf]
      · have hstep : ∀ a ∈ headerStepAccesses bytes.length k ch s, a.InRange bytes.length := by
          simpa [headerStepAccesses, hs, hcr, hlf] using hbyte
        rw [reads_next (by simp only [headerStep, hs, if_neg hcr, if_neg hlf]; rfl),
          and_iff_right hstep, ih (by simp at hk; omega)]
        simp [UsesNull, Ne.symm hcr, Ne.symm hlf]

/-- A value without a name: its first byte has been seen by the same call. -/
theorem HeaderScan.reads_nameless {v : Nat} (hs : s.hState = .value) (hkey : s.keyStart = none)
    (hval : s.valStart = some v) (hv : v < k) (hk : k + rest.length = bytes.length) :
    s.Reads bytes rest k ↔
      ¬([LF] <+: rest.dropWhile (fun b => b ≠ CR ∧ b ≠ LF) ∨
        [CR, LF] <+: rest.dropWhile (fun b => b ≠ CR ∧ b ≠ LF)) := by
  induction rest generalizing k with
  | nil => exact iff_of_true reads_nil (by simp)
  | cons ch rest ih =>
    have hbyte := byte_inRange hk
    rw [List.length_cons] at hk
    by_cases hcr : ch = CR
    · subst hcr
      have hfirst : ∀ a ∈ headerStepAccesses bytes.length k CR s, a.InRange bytes.length := by
        have hlog : (Access.range (some v) (some k)).InRange bytes.length := ⟨hv.le, by omega⟩
        simp [headerStepAccesses, hs, hval, hbyte, hlog]
      rw [reads_next (headerStep_valueCR hs hval hv.le), and_iff_right hfirst,
        reads_cr (s := { s with hState := .cr, valEnd := some k }) rfl hkey (by omega)]
      have hne : ¬ LF = CR := by decide
      cases rest <;> simp [UsesNull, eq_comm, hne]
    · by_cases hlf : ch = LF
      · refine iff_of_false (not_reads (a := .addHeader none s.keyEnd (some k)) ?_ not_false) ?_
        · simp [headerStepAccesses, addHeaderAccesses, hs, if_neg hcr, if_pos hlf, hkey]
        · simp [hlf]
      · have hstep : ∀ a ∈ headerStepAccesses bytes.length k ch s, a.InRange bytes.length := by
          simpa [headerStepAccesses, hs, hcr, hlf] using hbyte
        rw [reads_next (by simp only [headerStep, hs, if_neg hcr, if_neg hlf]; rfl),
          and_iff_right hstep, ih (by omega) (by omega)]
        simp [hcr, hlf]

theorem HeaderScan.reads_spacesAfterColon (hs : s.hState = .spacesAfterColon)
    (hkey : s.keyStart = none) (hk : k + rest.length = bytes.length) :
    s.Reads bytes rest k ↔ ¬ UsesNull .spacesAfterColon rest := by
  cases rest with
  | nil => exact iff_of_true reads_nil (by simp [UsesNull])
  | cons ch rest =>
    have hbyte := byte_inRange hk
    rw [List.length_cons] at hk
    have hstep : ∀ a ∈ headerStepAccesses bytes.length k ch s, a.InRange bytes.length := by
      have hlog : (Access.range (some k) (some bytes.length)).InRange bytes.length :=
        ⟨by omega, Nat.le_refl _⟩
      simp [headerStepAccesses, hs, hbyte, hlog]
    rw [reads_next (headerStep_valueFirst hs), and_iff_right hstep,
      reads_nameless (s := { s with hState := .value, valStart := some k }) rfl hkey rfl
        (Nat.lt_succ_self k) (by omega)]
    rfl

theorem parseHeadersAccesses_inRange :
    (∀ a ∈ ctx.parseHeadersAccesses buf, a.InRange buf.readableBytes) ↔
      ¬ UsesNull ctx.hState buf.readable := by
  rw [← Buffer.readable_length]
  show (HeaderScan.enter ctx.hState).Reads buf.readable buf.readable 0 ↔ _
  have hk := Nat.zero_add buf.readable.length
  cases hh : ctx.hState with
  | key => exact HeaderScan.reads_key rfl rfl hk
  | colon => exact HeaderScan.reads_colon rfl rfl hk
  | spacesAfterColon => exact HeaderScan.reads_spacesAfterColon rfl rfl hk
  | value => exact HeaderScan.reads_value rfl rfl rfl hk
  | cr => exact HeaderScan.reads_cr rfl rfl hk
  | start => exact iff_of_true (HeaderScan.Ready.reads (.outside (.inl rfl)) hk) not_false
  | lf => exact iff_of_true (HeaderScan.Ready.reads (.outside (.inr (.inl rfl))) hk) not_false
  | endCR =>
    exact iff_of_true (HeaderScan.Ready.reads (.outside (.inr (.inr (.inl rfl)))) hk) not_false
  | endLF =>
    exact iff_of_true (HeaderScan.Ready.reads (.outside (.inr (.inr (.inr rfl)))) hk) not_false

/-! ### A call of `parseRequest` -/

theorem forall_mem_map_mk {as : List Access} :
    (∀ x ∈ as.map (Prod.mk n), x.2.InRange x.1) ↔ ∀ a ∈ as, a.InRange n := by
  simp

theorem recvBodyAccesses_inRange :
    ∀ a ∈ ctx.recvBodyAccesses buf, a.InRange buf.readableBytes := by
  unfold recvBodyAccesses
  split
  · exact List.forall_mem_nil _
  split
  · exact List.forall_mem_nil _
  split
  · exact List.forall_mem_singleton.mpr ⟨Nat.zero_le _, ‹_›⟩
  · exact List.forall_mem_nil _

/-- Behind the header section no read goes wrong. -/
theorem parseLoopAccesses_body (fuel : Nat) (hs : ctx.state ≠ .parseURI ∧ ctx.state ≠ .parseHeaders) :
    ∀ x ∈ parseLoopAccesses fuel ctx buf t, x.2.InRange x.1 := by
  induction fuel generalizing ctx buf with
  | zero => exact List.forall_mem_nil _
  | succ fuel ih =>
    rw [parseLoopAccesses]
    cases hstate : ctx.state with
    | parseURI => exact absurd hstate hs.1
    | parseHeaders => exact absurd hstate hs.2
    | recvBody =>
      refine List.forall_mem_append.mpr ⟨forall_mem_map_mk.mpr recvBodyAccesses_inRange, ?_⟩
      split
      · rename_i ctx' buf' hbody
        refine ih ?_
        unfold recvBody at hbody
        split at hbody
        · cases hbody
          exact ⟨nofun, nofun⟩
        · split at hbody
          · cases hbody
          · split at hbody <;> cases hbody
            exact ⟨nofun, nofun⟩
      · exact List.forall_mem_nil _
    | analysis => exact List.forall_mem_nil _
    | finish => exact ih hs

theorem parseLoopAccesses_headers (fuel : Nat) (hs : ctx.state = .parseHeaders) :
    (∀ x ∈ parseLoopAccesses (fuel + 1) ctx buf t, x.2.InRange x.1) ↔
      ¬ UsesNull ctx.hState buf.readable := by
  rw [parseLoopAccesses]
  simp only [hs]
  rw [List.forall_mem_append, forall_mem_map_mk, parseHeadersAccesses_inRange]
  refine and_iff_left ?_
  split
  · split
    · exact parseLoopAccesses_body fuel ⟨nofun, nofun⟩
    · exact parseLoopAccesses_body fuel ⟨nofun, nofun⟩
  · exact List.forall_mem_nil _

theorem readsReceived_headers (hs : ctx.state = .parseHeaders) :
    ctx.ReadsReceived bytes ↔ ¬ UsesNull ctx.hState bytes := by
  simp only [ReadsReceived, hs]

/-- A request line is complete once its LF is there to be seen. -/
theorem parseURI_success {ctx' : HttpContext} {buf' : Buffer}
    (h : ctx.parseURI buf = .ok (.success, ctx', buf'))
    (hnext : ∀ line rest m, buf.readable = line ++ CR :: rest → CR ∉ line → IsRequestLine m line →
      rest ≠ []) :
    ∃ line rest m, buf.readable = line ++ CR :: LF :: rest ∧ CR ∉ line ∧ IsRequestLine m line := by
  by_cases hcr : CR ∈ buf.readable
  · obtain ⟨line, rest, hread, hfree⟩ := List.eq_append_cons_of_mem hcr
    rw [parseURI_line hread hfree] at h
    have hiff := requestLine_iff ctx.request line
    generalize requestLine ctx.request line line.length = r at h hiff
    obtain ⟨_ | _, req⟩ := r
    · cases h
    · obtain ⟨m, hm⟩ := hiff.mp rfl
      obtain ⟨c, rest', rfl⟩ := List.exists_cons_of_ne_nil (hnext line rest m hread hfree hm)
      simp only [byteAt_behind hread] at h
      split at h
      · rename_i hc
        exact ⟨line, rest', m, hc ▸ hread, hfree, hm⟩
      · cases h
  · rw [parseURI_again hcr] at h
    cases h

/-- Every read of a call stays in the readable range exactly when the byte behind the CR of a
request line has arrived and no position of an earlier call is used. -/
theorem reads_received (ctx : HttpContext) (buf : Buffer) (t : Timestamp) :
    (∀ x ∈ ctx.accesses buf t, x.2.InRange x.1) ↔ ctx.ReadsReceived buf.readable := by
  unfold accesses
  cases hs : ctx.state with
  | parseHeaders => rw [parseLoopAccesses_headers 3 hs, readsReceived_headers hs]
  | recvBody | analysis | finish =>
    refine iff_of_true (parseLoopAccesses_body 4 (by simp [hs])) ?_
    simp only [ReadsReceived, hs]
  | parseURI =>
    rw [parseLoopAccesses]
    simp only [hs, ReadsReceived]
    rw [List.forall_mem_append, forall_mem_map_mk, parseURIAccesses_inRange]
    by_cases hline : ∃ line rest m, buf.readable = line ++ CR :: LF :: rest ∧ CR ∉ line ∧
        IsRequestLine m line
    · obtain ⟨line, rest, m, hread, hfree, hm⟩ := hline
      obtain ⟨req, hreq, -⟩ := hm.requestLine ctx.request
      simp only [parseURI_line hread hfree, hreq, byteAt_behind hread, if_pos]
      rw [parseLoopAccesses_headers 2 rfl]
      simp only [Buffer.readable_retrieveUntil, hread]
      rw [show (line ++ CR :: LF :: rest).drop (line.length + 2) = rest by simp]
      constructor
      · intro h line' rest' m' hline' hfree' hm'
        obtain ⟨rfl, rfl⟩ := line_unique hline' hfree hfree'
        refine ⟨List.cons_ne_nil _ _, fun rest' h' => ?_⟩
        cases h'
        exact h.2
      · intro h
        exact ⟨fun line' rest' m' hline' hfree' hm' => (h line' rest' m' hline' hfree' hm').1,
          (h line (LF :: rest) m rfl hfree hm).2 rest rfl⟩
    · constructor
      · intro h line rest m hread hfree hm
        exact ⟨h.1 line rest m hread hfree hm, fun rest' hrest =>
          absurd ⟨line, rest', m, hrest ▸ hread, hfree, hm⟩ hline⟩
      · intro h
        refine ⟨fun line rest m hread hfree hm => (h line rest m hread hfree hm).1, ?_⟩
        split
        · rename_i hsuccess
          exact absurd (parseURI_success hsuccess fun line rest m hread hfree hm =>
            (h line rest m hread hfree hm).1) hline
        · exact List.forall_mem_nil _

/-- Neither the byte behind the CR nor a position kept from an earlier chunk need be there. -/
theorem not_reads_received :
    (¬ ∀ x ∈ new.accesses ((Buffer.new 64).append (ascii "GET / HTTP/1.1\r")) 0,
      x.2.InRange x.1) ∧
    ∃ ctx buf, new.parseRequest ((Buffer.new 64).append (ascii "GET / HTTP/1.1\r\nA: b")) 0 =
        .ok (true, ctx, buf) ∧
      ¬ ∀ x ∈ ctx.accesses (buf.append (ascii "\r\n\r\n")) 0, x.2.InRange x.1 := by
  constructor
  · decide +kernel
  · refine ⟨_, _, rfl, ?_⟩
    decide +kernel

end HttpContext
end MuduoX
