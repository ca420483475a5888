import MuduoX.Http.Connection
import MuduoX.Http.ContextLemmas

/-! What happens on a connection after the server has decided to close it.

`conn->shutdown()` closes the write side only. It is not recorded in the `HttpContext`, so bytes
that arrive later are parsed and requests are dispatched as before, but nothing that is sent
reaches the socket (`conn_of_not_connected`).

After a parse error the bytes that caused it stay in the buffer, and so does the state of the
automaton. `Refused` describes the sessions in which every further attempt fails on those bytes
again. -/

namespace MuduoX

/-! ### The write side -/

namespace TcpConnection

variable {tid : LoopId} {c : TcpConnection}

theorem send_of_not_connected (h : c.state ≠ .kConnected) (message : Bytes) (r : WriteResult) :
    c.send tid message r = c := by
  rw [send, if_neg h]

theorem shutdown_of_not_connected (h : c.state ≠ .kConnected) : c.shutdown tid = c := by
  rw [shutdown, if_neg h]

theorem shutdown_not_connected : (c.shutdown tid).state ≠ .kConnected := by
  unfold shutdown
  split
  · unfold shutdownInLoop
    split <;> simp [setState, emit]
  · assumption

end TcpConnection

section
variable {socket : TcpConnection → Bytes → WriteResult} {c : TcpConnection}

theorem Effect.apply_of_not_connected (h : c.state ≠ .kConnected) (e : Effect) :
    e.apply socket c = c := by
  cases e with
  | send data => exact TcpConnection.send_of_not_connected h data _
  | shutdown => exact TcpConnection.shutdown_of_not_connected h
  | registerFile | asyncRead => rfl

theorem foldl_apply_of_not_connected (h : c.state ≠ .kConnected) (es : List Effect) :
    es.foldl (Effect.apply socket) c = c := by
  induction es with
  | nil => rfl
  | cons e es ih => rw [List.foldl_cons, e.apply_of_not_connected h, ih]

theorem not_connected_of_shutdown {es : List Effect} (h : .shutdown ∈ es) :
    (es.foldl (Effect.apply socket) c).state ≠ .kConnected := by
  induction es generalizing c with
  | nil => cases h
  | cons e es ih =>
    rw [List.foldl_cons]
    rcases List.mem_cons.mp h with rfl | h
    · have hshut : (Effect.shutdown.apply socket c).state ≠ .kConnected :=
        TcpConnection.shutdown_not_connected
      rwa [foldl_apply_of_not_connected hshut]
    · exact ih h

end

namespace HttpConnection

variable {o : Outside} {hc : HttpConnection}

theorem foldl_perform_conn (h : hc.conn.state ≠ .kConnected) (as : List Action) :
    (as.foldl (perform o) hc).conn = hc.conn := by
  induction as generalizing hc with
  | nil => rfl
  | cons a as ih =>
    have hconn : (hc.perform o a).conn = hc.conn := foldl_apply_of_not_connected h _
    rw [List.foldl_cons, ih (by rwa [hconn]), hconn]

/-- Once the connection is not connected, nothing that arrives has an effect on it. -/
theorem conn_of_not_connected (h : hc.conn.state ≠ .kConnected) (cs : List Chunk) :
    (hc.deliverAll o cs).conn = hc.conn := by
  induction cs generalizing hc with
  | nil => rfl
  | cons c cs ih =>
    have hconn : (hc.deliver o c).conn = hc.conn := by
      unfold deliver
      split
      · rfl
      · exact foldl_perform_conn h _
    rw [deliverAll, List.foldl_cons]
    exact (ih (by rwa [hconn])).trans hconn

end HttpConnection

/-! ### After a parse error -/

namespace HttpContext

/-- Whether a line is a request line does not depend on what the request holds already. -/
theorem requestLine_fst (req req' : HttpRequest) (bytes : Bytes) (crlf : Nat) :
    (requestLine req bytes crlf).1 = (requestLine req' bytes crlf).1 := by
  unfold requestLine
  simp only
  generalize find bytes 0 crlf space = sp
  rcases Decidable.em (sp = crlf) with h | h
  · rw [if_pos h, if_pos h]
  · rw [if_neg h, if_neg h]
    have hknown : (req.setMethod (slice bytes 0 sp)).1 = (req'.setMethod (slice bytes 0 sp)).1 :=
      rfl
    generalize req.setMethod (slice bytes 0 sp) = m at hknown ⊢
    generalize req'.setMethod (slice bytes 0 sp) = m' at hknown ⊢
    obtain ⟨known, r⟩ := m
    obtain ⟨known', r'⟩ := m'
    cases hknown
    simp only [apply_ite Prod.fst]

/-- The automaton refuses a byte in four states only. -/
theorem headerStep_error {bytes : Bytes} {k : Nat} {ch : Byte} {s : HeaderScan}
    (h : headerStep bytes k ch s = .ok .error) :
    s.hState = .key ∨ s.hState = .colon ∨ s.hState = .cr ∨ s.hState = .endCR := by
  unfold headerStep at h
  split at h <;> rename_i hs
  · split at h <;> cases h
  · exact .inl hs
  · exact .inr (.inl hs)
  · cases h
  · split at h
    · cases hc : cstring bytes s.valStart (some k) <;> rw [hc] at h <;> cases h
    · split at h
      · cases ha : HttpRequest.addHeader bytes s.keyStart s.keyEnd (some k) <;> rw [ha] at h
        · cases h
        · cases hc : cstring bytes s.valStart (some k) <;> simp only [hc] at h <;> cases h
      · cases h
  · exact .inr (.inr (.inl hs))
  · split at h <;> cases h
  · exact .inr (.inr (.inr hs))
  · cases h

theorem headerLoop_error_state {bytes rest : Bytes} {k : Nat} {s : HeaderScan}
    {req req' : HttpRequest} {h : ParseState}
    (hloop : headerLoop bytes rest k s req = .ok (.error h req')) :
    h = .key ∨ h = .colon ∨ h = .cr ∨ h = .endCR := by
  induction rest generalizing k s req with
  | nil => cases hloop
  | cons ch rest ih =>
    match hstep : headerStep bytes k ch s with
    | .error f => rw [headerLoop_fault hstep] at hloop; cases hloop
    | .ok (.next s' stored) => rw [headerLoop_next hstep] at hloop; exact ih hloop
    | .ok .error =>
      rw [headerLoop_error hstep] at hloop
      cases hloop
      exact headerStep_error hstep
    | .ok .success => rw [headerLoop_success hstep] at hloop; cases hloop

/-- A scan that goes on inside a name whose beginning it does not know never leaves the name. -/
theorem headerLoop_key {bytes : Bytes} (rest : Bytes) (k : Nat) {s : HeaderScan}
    (req : HttpRequest) (hs : s.hState = .key) (hk : s.keyStart = none) :
    (∃ f, headerLoop bytes rest k s req = .error f) ∨
      headerLoop bytes rest k s req = .ok (.again s req) ∨
      headerLoop bytes rest k s req = .ok (.error .key req) := by
  induction rest generalizing k with
  | nil => exact .inr (.inl rfl)
  | cons ch rest ih =>
    rcases Decidable.em (ch = colon) with hc | hc
    · have hstep : headerStep bytes k ch s = .error .nullPointer := by
        simp only [headerStep, hs, if_pos hc, hk, cstring]
        rfl
      exact .inl ⟨_, headerLoop_fault hstep⟩
    · rcases Decidable.em (ch = LF ∨ ch = CR) with hb | hb
      · have hstep : headerStep bytes k ch s = .ok .error := by
          simp only [headerStep, hs, if_neg hc, if_pos hb]
        exact .inr (.inr (hs ▸ headerLoop_error hstep))
      · have hstep : headerStep bytes k ch s = .ok (.next s none) := by
          simp only [headerStep, hs, if_neg hc, if_neg hb]
        rw [headerLoop_next hstep]
        exact ih (k + 1)

/-- A second scan from a state in which the first one failed does not complete the section,
unless its first byte is the LF that the state waits for. -/
theorem headerLoop_refused (bytes : Bytes) {first : Byte} (rest : Bytes) {h : ParseState}
    (req : HttpRequest) (hr : h = .key ∨ h = .colon ∨ h = .cr ∨ h = .endCR ∧ first ≠ LF) :
    (∃ f, headerLoop bytes (first :: rest) 0 (.enter h) req = .error f) ∨
      headerLoop bytes (first :: rest) 0 (.enter h) req = .ok (.again (.enter h) req) ∨
      headerLoop bytes (first :: rest) 0 (.enter h) req = .ok (.error h req) := by
  rcases hr with rfl | rfl | rfl | ⟨rfl, hlf⟩
  · exact headerLoop_key _ _ _ rfl rfl
  · rcases Decidable.em (first = space) with hb | hb
    · have hstep : headerStep bytes 0 first (.enter .colon) = .error .nullPointer := by
        simp only [headerStep, HeaderScan.enter, if_pos hb, cstring]
        rfl
      exact .inl ⟨_, headerLoop_fault hstep⟩
    · have hstep : headerStep bytes 0 first (.enter .colon) = .ok .error := by
        simp only [headerStep, HeaderScan.enter, if_neg hb]
      exact .inr (.inr (headerLoop_error hstep))
  · rcases Decidable.em (first = LF) with hb | hb
    · have hstep : headerStep bytes 0 first (.enter .cr) = .error .nullPointer := by
        simp only [headerStep, HeaderScan.enter, if_pos hb, HttpRequest.addHeader, cstring]
        rfl
      exact .inl ⟨_, headerLoop_fault hstep⟩
    · have hstep : headerStep bytes 0 first (.enter .cr) = .ok .error := by
        simp only [headerStep, HeaderScan.enter, if_neg hb]
      exact .inr (.inr (headerLoop_error hstep))
  · have hstep : headerStep bytes 0 first (.enter .endCR) = .ok .error := by
      simp only [headerStep, HeaderScan.enter, if_neg hlf]
    exact .inr (.inr (headerLoop_error hstep))

end HttpContext

namespace Session

/-- The bytes at the front of the buffer have been refused and will be again: a complete request
line that is none, or a header section whose scan goes on in a state in which its first byte is
an error or a null pointer is used. -/
inductive Refused (s : Session) : Prop
  | line {line rest : Bytes} : s.context.state = .parseURI →
    s.inputBuffer.readable = line ++ CR :: rest → CR ∉ line →
    (HttpContext.requestLine s.context.request line line.length).1 = false ∨
      (∃ c rest', rest = c :: rest' ∧ c ≠ LF) → Refused s
  | headers {first : Byte} {rest : Bytes} : s.context.state = .parseHeaders →
    s.inputBuffer.readable = first :: rest →
    s.context.hState = .key ∨ s.context.hState = .colon ∨ s.context.hState = .cr ∨
      s.context.hState = .endCR ∧ first ≠ LF → Refused s

/-- The two kinds of refused bytes that a later read can still turn into a request: a request line
whose CR was the last byte that had arrived, and a header section that begins with a LF and was
refused behind its last CR. -/
def Reprieved (s : Session) : Prop :=
  (s.context.state = .parseURI ∧ ∃ line, s.inputBuffer.readable = line ++ [CR] ∧ CR ∉ line ∧
    (HttpContext.requestLine s.context.request line line.length).1 = true) ∨
  (s.context.state = .parseHeaders ∧ s.context.hState = .endCR ∧
    s.inputBuffer.readable.head? = some LF)

/-! The step: what is refused stays refused, by whatever arrives and by every attempt. -/

theorem Refused.readableBytes_ne {s : Session} (h : s.Refused) :
    s.inputBuffer.readableBytes ≠ 0 := by
  rw [Ne, ← Buffer.readable_eq_nil]
  cases h with
  | line _ hr => simp [hr]
  | headers _ hr => simp [hr]

theorem Refused.append {s : Session} (h : s.Refused) (data : Bytes) :
    Refused { s with inputBuffer := s.inputBuffer.append data } := by
  cases h with
  | line hs hr hcr hline =>
    refine .line hs (by rw [Buffer.readable_append, hr, List.append_assoc]; rfl) hcr ?_
    exact hline.imp_right fun ⟨c, rest', hrest, hc⟩ => ⟨c, rest' ++ data, by rw [hrest]; rfl, hc⟩
  | headers hs hr hh =>
    exact .headers hs (by rw [Buffer.readable_append, hr]; rfl) hh

theorem Refused.parseRequest {s : Session} (h : s.Refused) (t : Timestamp) :
    (∃ f, s.context.parseRequest s.inputBuffer t = .error f) ∨
      ∃ parsed ctx buf, s.context.parseRequest s.inputBuffer t = .ok (parsed, ctx, buf) ∧
        ctx.gotAll = false ∧ Refused ⟨ctx, buf⟩ := by
  cases h with
  | @line line rest hs hr hcr hline =>
    rw [HttpContext.parseRequest, HttpContext.parseLoop, hs]
    simp only [HttpContext.parseURI_line hr hcr]
    match hreq : HttpContext.requestLine s.context.request line line.length with
    | (false, req) =>
      refine .inr ⟨_, _, _, rfl, by simp [HttpContext.gotAll, hs], .line hs hr hcr (.inl ?_)⟩
      rw [HttpContext.requestLine_fst _ s.context.request, hreq]
    | (true, req) =>
      obtain ⟨c, rest', rfl, hc⟩ := hline.resolve_left (by simp [hreq])
      have hbyte : s.inputBuffer.byteAt (line.length + 1) = some c := by
        have hlen := congrArg List.length hr
        rw [Buffer.readable_length, List.length_append] at hlen
        rw [Buffer.byteAt_of_lt (by rw [hlen]; simp), hr]
        simp
      simp only [hbyte, if_neg hc]
      exact .inr ⟨_, _, _, rfl, by simp [HttpContext.gotAll, hs],
        .line hs hr hcr (.inr ⟨c, rest', rfl, hc⟩)⟩
  | @headers first rest hs hr hh =>
    rw [HttpContext.parseRequest, HttpContext.parseLoop, hs]
    simp only [HttpContext.parseHeaders_of_readable, hr]
    rcases HttpContext.headerLoop_refused (first :: rest) rest s.context.request hh with
      ⟨f, hloop⟩ | hloop | hloop
    · exact .inl ⟨f, by simp only [hloop]⟩
    · simp only [hloop]
      exact .inr ⟨_, _, _, rfl, by simp [HttpContext.gotAll, hs], .headers hs hr hh⟩
    · simp only [hloop]
      exact .inr ⟨_, _, _, rfl, by simp [HttpContext.gotAll, hs], .headers hs hr hh⟩

theorem Refused.onMessageLoop {s : Session} (h : s.Refused) (fuel : Nat) (t : Timestamp) :
    (∀ a ∈ (HttpServer.onMessageLoop fuel s t).1, a = .badRequest) ∧
      ∀ s', (HttpServer.onMessageLoop fuel s t).2 = .ok s' → Refused s' := by
  cases fuel with
  | zero => exact ⟨by simp [HttpServer.onMessageLoop], by simp [HttpServer.onMessageLoop]⟩
  | succ fuel =>
    rw [HttpServer.onMessageLoop, if_neg h.readableBytes_ne]
    rcases h.parseRequest t with ⟨f, hf⟩ | ⟨parsed, ctx, buf, hp, hgot, hrefused⟩
    · simp [hf]
    · simp only [hp, hgot]
      refine ⟨fun a ha => ?_, fun s' hs' => ?_⟩
      · cases parsed <;> simp_all
      · cases hs'
        exact hrefused

/-- No later read of a refused session dispatches a request. -/
theorem Refused.deliverAll {s : Session} (h : s.Refused) (cs : List Chunk) :
    ∀ a ∈ (s.deliverAll cs).1, a = .badRequest := by
  induction cs generalizing s with
  | nil => simp [Session.deliverAll]
  | cons c cs ih =>
    obtain ⟨hacts, hrefused⟩ := (h.append c.data).onMessageLoop _ c.receiveTime
    rw [Session.deliverAll]
    match hd : s.deliver c with
    | (acts, .error f) =>
      intro a ha
      exact hacts a (by rw [show acts = (s.deliver c).1 by rw [hd]] at ha; exact ha)
    | (acts, .ok s') =>
      intro a ha
      rcases List.mem_append.mp ha with ha | ha
      · exact hacts a (by rw [show acts = (s.deliver c).1 by rw [hd]] at ha; exact ha)
      · exact ih (hrefused s' (congrArg Prod.snd hd)) a ha

/-! Every parse error leaves the session refused, or reprieved. -/

theorem refused_of_parseURI {ctx ctx' : HttpContext} {buf buf' : Buffer}
    (hs : ctx.state = .parseURI) (h : ctx.parseURI buf = .ok (.error, ctx', buf')) :
    ctx'.gotAll = false ∧ (Refused ⟨ctx', buf'⟩ ∨ Reprieved ⟨ctx', buf'⟩) := by
  rcases Decidable.em (CR ∈ buf.readable) with hmem | hmem
  · obtain ⟨line, rest, hr, hcr⟩ := List.eq_append_cons_of_mem hmem
    rw [HttpContext.parseURI_line hr hcr] at h
    match hreq : HttpContext.requestLine ctx.request line line.length with
    | (false, req) =>
      simp only [hreq] at h
      cases h
      refine ⟨by simp [HttpContext.gotAll, hs], .inl (.line hs hr hcr (.inl ?_))⟩
      rw [HttpContext.requestLine_fst _ ctx.request, hreq]
    | (true, req) =>
      have htrue : (HttpContext.requestLine req line line.length).1 = true := by
        rw [HttpContext.requestLine_fst _ ctx.request, hreq]
      simp only [hreq] at h
      match hbyte : buf.byteAt (line.length + 1) with
      | none => simp [hbyte] at h
      | some c =>
        simp only [hbyte] at h
        split at h
        · cases h
        · rename_i hc
          cases h
          refine ⟨by simp [HttpContext.gotAll, hs], ?_⟩
          match rest with
          | [] => exact .inr (.inl ⟨hs, line, hr, hcr, htrue⟩)
          | d :: rest' =>
            have hd : buf.byteAt (line.length + 1) = some d := by
              have hlen := congrArg List.length hr
              rw [Buffer.readable_length, List.length_append] at hlen
              rw [Buffer.byteAt_of_lt (by rw [hlen]; simp), hr]
              simp
            rw [hd] at hbyte
            cases hbyte
            exact .inl (.line hs hr hcr (.inr ⟨c, rest', rfl, hc⟩))
  · rw [HttpContext.parseURI_again hmem] at h
    cases h

theorem refused_of_parseHeaders {ctx ctx' : HttpContext} {buf buf' : Buffer}
    (hs : ctx.state = .parseHeaders) (h : ctx.parseHeaders buf = .ok (.error, ctx', buf')) :
    ctx'.gotAll = false ∧ (Refused ⟨ctx', buf'⟩ ∨ Reprieved ⟨ctx', buf'⟩) := by
  rw [HttpContext.parseHeaders_of_readable] at h
  match hloop : HttpContext.headerLoop buf.readable buf.readable 0 (.enter ctx.hState)
      ctx.request with
  | .error f => simp [hloop] at h
  | .ok (.again s req) => simp [hloop] at h
  | .ok (.success req used) => simp [hloop] at h
  | .ok (.error e req) =>
    simp only [hloop] at h
    cases h
    refine ⟨by simp [HttpContext.gotAll, hs], ?_⟩
    have hstate := HttpContext.headerLoop_error_state hloop
    match hr : buf.readable with
    | [] => rw [hr] at hloop; cases hloop
    | first :: rest =>
      rcases hstate with he | he | he | he
      · exact .inl (.headers hs hr (.inl he))
      · exact .inl (.headers hs hr (.inr (.inl he)))
      · exact .inl (.headers hs hr (.inr (.inr (.inl he))))
      · rcases Decidable.em (first = LF) with hlf | hlf
        · exact .inr (.inr ⟨hs, he, by rw [hr, hlf]; rfl⟩)
        · exact .inl (.headers hs hr (.inr (.inr (.inr ⟨he, hlf⟩))))

theorem refused_of_parseLoop {n : Nat} {ctx ctx' : HttpContext} {buf buf' : Buffer}
    {t : Timestamp} (h : HttpContext.parseLoop n ctx buf t = .ok (false, ctx', buf')) :
    ctx'.gotAll = false ∧ (Refused ⟨ctx', buf'⟩ ∨ Reprieved ⟨ctx', buf'⟩) := by
  induction n generalizing ctx buf with
  | zero => cases h
  | succ n ih =>
    rw [HttpContext.parseLoop] at h
    match hs : ctx.state with
    | .parseURI =>
      simp only [hs] at h
      match hp : ctx.parseURI buf with
      | .error f => simp [hp] at h
      | .ok (.again, ctx₁, buf₁) => simp [hp] at h
      | .ok (.success, ctx₁, buf₁) => simp only [hp] at h; exact ih h
      | .ok (.error, ctx₁, buf₁) =>
        simp only [hp] at h
        cases h
        exact refused_of_parseURI hs hp
    | .parseHeaders =>
      simp only [hs] at h
      match hp : ctx.parseHeaders buf with
      | .error f => simp [hp] at h
      | .ok (.again, ctx₁, buf₁) => simp [hp] at h
      | .ok (.success, ctx₁, buf₁) =>
        simp only [hp] at h
        split at h
        · exact ih h
        · exact ih h
      | .ok (.error, ctx₁, buf₁) =>
        simp only [hp] at h
        cases h
        exact refused_of_parseHeaders hs hp
    | .recvBody =>
      simp only [hs] at h
      match hp : ctx.recvBody buf with
      | .error f => simp [hp] at h
      | .ok none => simp [hp] at h
      | .ok (some (ctx₁, buf₁)) => simp only [hp] at h; exact ih h
    | .analysis => simp [hs] at h
    | .finish => simp only [hs] at h; exact ih h

/-- A 400 ends the loop of `onMessage`. -/
theorem refused_of_onMessageLoop {fuel : Nat} {s s' : Session} {t : Timestamp}
    (hbad : .badRequest ∈ (HttpServer.onMessageLoop fuel s t).1)
    (hs' : (HttpServer.onMessageLoop fuel s t).2 = .ok s') :
    (∃ reqs : List HttpRequest,
      (HttpServer.onMessageLoop fuel s t).1 = reqs.map Action.request ++ [.badRequest]) ∧
      (Refused s' ∨ Reprieved s') := by
  induction fuel generalizing s with
  | zero => simp [HttpServer.onMessageLoop] at hbad
  | succ fuel ih =>
    rw [HttpServer.onMessageLoop] at hbad hs' ⊢
    split at hbad
    · cases hbad
    · rename_i hne
      rw [if_neg hne] at hs'
      rw [if_neg hne]
      match hp : s.context.parseRequest s.inputBuffer t with
      | .error f => simp [hp] at hbad
      | .ok (true, ctx, buf) =>
        simp only [hp, if_true, List.nil_append] at hbad hs' ⊢
        split at hbad
        · rename_i hgot
          rw [if_pos hgot] at hs'
          rw [if_pos hgot]
          rcases List.mem_cons.mp hbad with hbad | hbad
          · cases hbad
          · obtain ⟨⟨reqs, hreqs⟩, hrefused⟩ := ih hbad hs'
            exact ⟨⟨ctx.request :: reqs, by rw [hreqs]; rfl⟩, hrefused⟩
        · cases hbad
      | .ok (false, ctx, buf) =>
        obtain ⟨hgot, hrefused⟩ := refused_of_parseLoop hp
        simp only [hp, hgot] at hs' ⊢
        cases hs'
        exact ⟨⟨[], rfl⟩, hrefused⟩

end Session

/-- **After the decision to close.** When the server has called `shutdown`, nothing that it does
later on the connection has an effect. When it has answered 400, that was the last action of its
`onMessage`, and unless the session is reprieved no later read dispatches a request. -/
theorem HttpConnection.after_shutdown (o : Outside) (hc : HttpConnection) (s s' : Session)
    (c : Chunk) (a : Action) :
    (.shutdown ∈ a.effects (o.env hc.actions.length) → ∀ (later : List Action) (cs : List Chunk),
      ((later.foldl (perform o) (hc.perform o a)).deliverAll o cs).conn = (hc.perform o a).conn) ∧
    (.badRequest ∈ (s.deliver c).1 → (s.deliver c).2 = .ok s' →
      (∃ reqs : List HttpRequest, (s.deliver c).1 = reqs.map Action.request ++ [.badRequest]) ∧
      (¬s'.Reprieved → ∀ cs, ∀ b ∈ (s'.deliverAll cs).1, b = .badRequest)) := by
  constructor
  · intro hshut later cs
    have hconn : (hc.perform o a).conn.state ≠ .kConnected := not_connected_of_shutdown hshut
    have hlater := foldl_perform_conn (o := o) hconn later
    rw [conn_of_not_connected (by rwa [hlater]), hlater]
  · intro hbad hs'
    obtain ⟨hreqs, hrefused⟩ := Session.refused_of_onMessageLoop hbad hs'
    exact ⟨hreqs, fun hrep cs => (hrefused.resolve_right hrep).deliverAll cs⟩

/-- A server without files whose callback answers every request with 200, on a socket that takes
whatever is written. -/
def answering : Outside where
  env _ :=
    { webRoot := ascii "./www"
      httpCallback := some fun _ response => response.setStatusCode k200Ok
      fs := ⟨fun _ => none, fun _ => false, fun _ _ h => by cases h⟩
      uring := true }
  socket _ message := .room message.length

/-- A connection of the base loop on which nothing has arrived yet. -/
def HttpConnection.established : HttpConnection :=
  ⟨.ok .fresh, .established baseLoop baseLoop, []⟩

def closingRequest : HttpRequest :=
  { HttpRequest.new with
    method := .kGet, version := .kHttp10, path := ascii "/"
    headers := (∅ : HeaderMap).insert (ascii "A") (ascii "b") }

/-- Two pipelined requests of HTTP/1.0: the answer to the first one closes the connection, and the
second one is dispatched all the same. -/
theorem HttpConnection.dispatched_after_shutdown :
    (Session.fresh.deliver ⟨ascii "GET / HTTP/1.0\r\nA: b\r\n\r\nGET / HTTP/1.0\r\nA: b\r\n\r\n",
        0⟩).1 = [.request closingRequest, .request closingRequest] ∧
      .shutdown ∈ (Action.request closingRequest).effects (answering.env 0) ∧
      (established.perform answering (.request closingRequest)).conn.state = .kDisconnecting := by
  decide +kernel

theorem HttpConnection.after_shutdown_badRequest :
    ∃ s', (Session.fresh.deliver ⟨ascii "GET\r\n", 0⟩).2 = .ok s' ∧
      (∀ cs, ∀ b ∈ (s'.deliverAll cs).1, b = .badRequest) ∧
      ∀ cs, ((established.perform answering .badRequest).deliverAll answering cs).conn =
        (established.perform answering .badRequest).conn := by
  have hs : (Session.fresh.deliver ⟨ascii "GET\r\n", 0⟩).2.toOption.map
      (fun s => (s.context.state, s.inputBuffer.readable)) =
        some (.parseURI, ascii "GET\r\n") := by
    decide +kernel
  obtain ⟨s', hs', hfields⟩ := Option.map_eq_some_iff.mp hs
  have hok : (Session.fresh.deliver ⟨ascii "GET\r\n", 0⟩).2 = .ok s' := by
    generalize (Session.fresh.deliver ⟨ascii "GET\r\n", 0⟩).2 = result at hs'
    cases result with
    | error f => cases hs'
    | ok s => cases hs'; rfl
  have hrep : ¬s'.Reprieved := by
    obtain ⟨hstate, hr⟩ := Prod.mk.inj hfields
    rintro (⟨-, line, hline, -⟩ | ⟨h, -⟩)
    · have hlast := congrArg List.getLast? (hr.symm.trans hline)
      rw [List.getLast?_append] at hlast
      exact absurd (hlast.trans Option.some_or) (by decide)
    · rw [hstate] at h
      cases h
  have h := after_shutdown answering established .fresh s' ⟨ascii "GET\r\n", 0⟩ .badRequest
  exact ⟨s', hok, (h.2 (by decide +kernel) hok).2 hrep, h.1 (by decide) []⟩

end MuduoX
