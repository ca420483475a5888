import MuduoX.Http.Parser
import MuduoX.Http.Server

/-! The code refines the incremental parser.

One call of `parseRequest` answers as `HttpParser.parse` does (`parseLoop_agrees`), one call of
`onMessage` dispatches what `drive` parses (`onMessage_agrees`), and chunk after chunk a connection
dispatches what `feedAll` parses (`deliverAll_agrees`). Receive times are left out of the
comparison. The one thing that separates the two sides is the byte behind the end of the input:
`LooksPast` says when `parseURI` reads it. -/

namespace MuduoX

open Incremental HttpParser

/-! ### Requests up to their receive time -/

def HttpRequest.eraseTime (r : HttpRequest) : HttpRequest := r.setReceiveTime 0

/-- The same request, received at whatever time. -/
def HttpRequest.Same (r r' : HttpRequest) : Prop := r.eraseTime = r'.eraseTime

namespace HttpRequest

variable {r r' : HttpRequest}

theorem Same.refl (r : HttpRequest) : r.Same r := rfl

theorem Same.setReceiveTime (h : r.Same r') (t : Timestamp) : (r.setReceiveTime t).Same r' := h

theorem Same.method : r.Same r' → r.method = r'.method := congrArg HttpRequest.method

theorem Same.headers : r.Same r' → r.headers = r'.headers := congrArg HttpRequest.headers

theorem Same.setBody (h : r.Same r') (b : Bytes) : (r.setBody b).Same (r'.setBody b) :=
  congrArg (HttpRequest.setBody · b) h

theorem eraseTime_addFields (r : HttpRequest) (fields : List (Bytes × Bytes)) :
    (r.addFields fields).eraseTime = r.eraseTime.addFields fields := by
  induction fields generalizing r with
  | nil => rfl
  | cons f fields ih => exact ih (r.setHeader f.1 f.2)

theorem Same.addFields (h : r.Same r') (fields : List (Bytes × Bytes)) :
    (r.addFields fields).Same (r'.addFields fields) := by
  unfold Same at h ⊢
  rw [eraseTime_addFields, eraseTime_addFields, h]

end HttpRequest

/-! ### One call of `parseRequest` -/

/-- The context that stands for a phase. -/
inductive Represents : Phase → HttpContext → Prop
  | line : Represents .line .new
  | headers {h req ctx} : ctx.state = .parseHeaders → ctx.hState = h → ctx.request.Same req →
    Represents (.headers h req) ctx
  | body {req len pos v} {ctx : HttpContext} : ctx.state = .recvBody → ctx.request.Same req →
    req.headers[ascii "Content-Length"]? = some v → stoul v = .ok len →
    Represents (.body req len pos) ctx

theorem Represents.not_gotAll {p : Phase} {ctx : HttpContext} (h : Represents p ctx) :
    ctx.gotAll = false := by
  cases h with
  | line => rfl
  | headers hs | body hs => simp [HttpContext.gotAll, hs]

/-- The outcome of `parseRequest` that stands for an answer. -/
inductive Agrees : Answer → Except Fault (Bool × HttpContext × Buffer) → Prop
  | more {p ctx buf} : Represents p ctx → Agrees (.more p buf.readable) (.ok (true, ctx, buf))
  | done {m ctx buf} : ctx.state = .finish → ctx.request.Same m →
    Agrees (.done m buf.readable) (.ok (true, ctx, buf))
  | badRequest {ctx buf} : ctx.gotAll = false →
    Agrees (.fail .badRequest) (.ok (false, ctx, buf))
  | fault {f} : Agrees (.fail (.fault f)) (.error f)

/-- The request line is complete up to its CR: `parseURI` looks at the byte behind the input. -/
def LooksPast : Phase → Bytes → Prop
  | .line, r => CR ∈ r
  | _, _ => False

instance : ∀ p r, Decidable (LooksPast p r)
  | .line, r => inferInstanceAs (Decidable (CR ∈ r))
  | .headers _ _, _ => inferInstanceAs (Decidable False)
  | .body _ _ _, _ => inferInstanceAs (Decidable False)

namespace HttpContext

variable (ctx : HttpContext) {req : HttpRequest} (buf : Buffer) (t : Timestamp) {n : Nat}

theorem parseLoop_analysis (hs : ctx.state = .analysis) (hreq : ctx.request.Same req) :
    Agrees (.done req buf.readable) (parseLoop (n + 1) ctx buf t) := by
  rw [parseLoop, hs]
  exact .done rfl hreq

theorem parseLoop_body {len : Nat} {v : Bytes} (hs : ctx.state = .recvBody)
    (hreq : ctx.request.Same req) (hv : req.headers[ascii "Content-Length"]? = some v)
    (hlen : stoul v = .ok len) :
    Agrees (takeBody req len buf.readable) (parseLoop (n + 2) ctx buf t) := by
  have hv' := hv
  rw [← hreq.headers] at hv'
  rcases Nat.lt_or_ge buf.readableBytes len with h | h
  · have hmore : takeBody req len buf.readable = .more (.body req len (by omega)) buf.readable := by
      rw [takeBody, dif_neg (by rw [Buffer.readable_length]; omega)]
    rw [hmore, parseLoop, hs]
    simp only [recvBody, hv', hlen, if_neg (show ¬len ≤ buf.readableBytes by omega)]
    exact .more (.body hs hreq hv hlen)
  · rw [takeBody, dif_pos (by rw [Buffer.readable_length]; omega), parseLoop, hs]
    simp only [recvBody, hv', hlen, if_pos h]
    rw [← Buffer.readable_retrieve]
    exact parseLoop_analysis _ _ t rfl (hreq.setBody _)

theorem parseLoop_afterHeaders (hreq : ctx.request.Same req) :
    Agrees (afterHeaders req buf.readable)
      (if ctx.request.method = .kPost then parseLoop (n + 2) { ctx with state := .recvBody } buf t
        else parseLoop (n + 2) { ctx with state := .analysis } buf t) := by
  rw [afterHeaders, hreq.method]
  split
  · match hv : req.headers[ascii "Content-Length"]? with
    | none =>
      rw [parseLoop]
      simp only [recvBody, hreq.headers, hv]
      exact parseLoop_analysis _ _ t rfl hreq
    | some v =>
      match hlen : stoul v with
      | .error f =>
        rw [parseLoop]
        simp only [recvBody, hreq.headers, hv, hlen]
        exact .fault
      | .ok len =>
        simp only [hlen]
        exact parseLoop_body { ctx with state := .recvBody } buf t rfl hreq hv hlen
  · exact parseLoop_analysis _ _ t rfl hreq

theorem parseLoop_headers (hs : ctx.state = .parseHeaders) (hreq : ctx.request.Same req) :
    Agrees (inHeaders ctx.hState req buf.readable) (parseLoop (n + 3) ctx buf t) := by
  obtain ⟨o, fields, ho⟩ := headerLoop_fields buf.readable buf.readable 0 (.enter ctx.hState)
  have hsame := hreq.addFields fields
  rw [inHeaders, ho, parseLoop, hs]
  simp only [parseHeaders_of_readable, ho]
  match o with
  | .error f => exact .fault
  | .ok (.again s _) => exact .more (.headers hs rfl hsame)
  | .ok (.error h _) => exact .badRequest (by simp [gotAll, hs])
  | .ok (.success _ used) =>
    simp only [Except.map, HeaderResult.withRequest]
    rw [← Buffer.readable_retrieve]
    exact parseLoop_afterHeaders { ctx with hState := .endLF, request := _ } _ t hsame

theorem splitCR_nil {r line : Bytes} (h : splitCR r = (line, [])) : CR ∉ r := by
  have hall := List.dropWhile_eq_nil_iff.mp (Prod.mk.inj h).2
  intro hmem
  simpa using hall CR hmem

theorem splitCR_cons {r line rest : Bytes} {c : Byte} (h : splitCR r = (line, c :: rest)) :
    r = line ++ CR :: rest ∧ CR ∉ line := by
  obtain ⟨rfl, hd⟩ := Prod.mk.inj h
  have hc := List.head?_dropWhile_not (p := (· ≠ CR)) r
  rw [hd] at hc
  have hc : c = CR := by simpa using hc
  subst hc
  refine ⟨?_, fun hmem => ?_⟩
  · conv => lhs; rw [← List.takeWhile_append_dropWhile (p := (· ≠ CR)) (l := r), hd]
  · simpa using List.mem_takeWhile_imp hmem

theorem parseLoop_line (hpast : ∀ p r, onLine buf.readable = .more p r → ¬LooksPast p r) :
    Agrees (onLine buf.readable) (parseLoop (n + 4) .new buf t) := by
  obtain ⟨line, tail, hsplit⟩ : ∃ line tail, splitCR buf.readable = (line, tail) :=
    ⟨_, _, rfl⟩
  cases tail with
  | nil =>
    have hmore : onLine buf.readable = .more .line buf.readable := by simp only [onLine, hsplit]
    rw [hmore, parseLoop]
    simp only [new]
    rw [← new, parseURI_again (splitCR_nil hsplit)]
    exact .more .line
  | cons c rest =>
    obtain ⟨hbuf, hcr⟩ := splitCR_cons hsplit
    have hlen := congrArg List.length hbuf
    rw [Buffer.readable_length, List.length_append, List.length_cons] at hlen
    rw [parseLoop]
    simp only [new]
    rw [← new, parseURI_line hbuf hcr]
    obtain ⟨ok, req, hreq⟩ : ∃ ok req, requestLine .new line line.length = (ok, req) :=
      ⟨_, _, rfl⟩
    cases ok with
    | false =>
      simp only [onLine, hsplit, hreq, new]
      exact .badRequest rfl
    | true => cases rest with
    | nil =>
      have hmore : onLine buf.readable = .more .line buf.readable := by
        simp only [onLine, hsplit, hreq]
      exact absurd (by rw [LooksPast, hbuf]; simp) (hpast _ _ hmore)
    | cons d rest =>
      have hd : buf.byteAt (line.length + 1) = some d := by
        rw [Buffer.byteAt_of_lt (by simp only [List.length_cons] at hlen; omega), hbuf]
        simp
      simp only [onLine, hsplit, hreq, new, hd]
      split
      · have hrest : (buf.retrieveUntil (line.length + 2)).readable = rest := by
          rw [Buffer.readable_retrieveUntil, hbuf]
          simp
        rw [← hrest]
        exact parseLoop_headers ⟨.parseHeaders, .start, req.setReceiveTime t⟩ _ t rfl
          ((HttpRequest.Same.refl req).setReceiveTime t)
      · exact .badRequest rfl

/-- `parseRequest` answers as the parser does, unless it looks past the end of its input. -/
theorem parseRequest_agrees {p : Phase} (hp : Represents p ctx)
    (hpast : ∀ p' r', parse p buf.readable = .more p' r' → ¬LooksPast p' r') :
    Agrees (parse p buf.readable) (ctx.parseRequest buf t) := by
  cases hp with
  | line => exact parseLoop_line buf t hpast
  | headers hs hh hreq => exact hh ▸ parseLoop_headers ctx buf t hs hreq
  | body hs hreq hv hlen => exact parseLoop_body ctx buf t hs hreq hv hlen

end HttpContext

/-! ### One call of `onMessage`, and a whole run -/

/-- The actions and the session that stand for parsed requests and a status. What follows the
first 400 is left open. -/
inductive Dispatches : List HttpRequest × Status Phase Byte Failure →
    List Action × Except Fault Session → Prop
  | idle {p s} : Represents p s.context →
    Dispatches ([], .idle p s.inputBuffer.readable) ([], .ok s)
  | badRequest {acts res} : Dispatches ([], .failed .badRequest) (.badRequest :: acts, res)
  | fault {f} : Dispatches ([], .failed (.fault f)) ([], .error f)
  | request {m req ms st acts res} : req.Same m → Dispatches (ms, st) (acts, res) →
    Dispatches (m :: ms, st) (.request req :: acts, res)

namespace Dispatches

variable {ms ms' : List HttpRequest} {st : Status Phase Byte Failure} {p : Phase} {r : Bytes}
  {acts acts' : List Action} {res res' : Except Fault Session} {s : Session} {f : Fault}

/-- A run that is still going has dispatched requests and nothing else. -/
theorem of_idle (h : Dispatches (ms, .idle p r) (acts, res)) :
    ∃ (reqs : List HttpRequest) (s : Session), acts = reqs.map Action.request ∧
      reqs.map HttpRequest.eraseTime = ms.map HttpRequest.eraseTime ∧
      res = .ok s ∧ Represents p s.context ∧ s.inputBuffer.readable = r := by
  generalize hx : (ms, Status.idle p r) = x at h
  generalize hy : (acts, res) = y at h
  induction h generalizing ms acts with
  | idle hp => cases hx; cases hy; exact ⟨[], _, rfl, rfl, rfl, hp, rfl⟩
  | badRequest | fault => cases hx
  | @request _ req _ _ _ _ hm _ ih =>
    cases hx; cases hy
    obtain ⟨reqs, s, rfl, hreqs, hs⟩ := ih rfl rfl
    exact ⟨req :: reqs, s, rfl, by rw [List.map_cons, List.map_cons, hm, hreqs], hs⟩

/-- What a later delivery dispatches comes after what the earlier ones did. -/
theorem append (h : Dispatches (ms, .idle p r) (acts, res))
    (h' : Dispatches (ms', st) (acts', res')) :
    Dispatches (ms ++ ms', st) (acts ++ acts', res') := by
  generalize hx : (ms, Status.idle p r) = x at h
  generalize hy : (acts, res) = y at h
  induction h generalizing ms acts with
  | idle => cases hx; cases hy; exact h'
  | badRequest | fault => cases hx
  | request hm _ ih => cases hx; cases hy; exact .request hm (ih rfl rfl)

/-- After a 400 nothing that is dispatched counts. -/
theorem append_failed {e : Failure} (h : Dispatches (ms, .failed e) (acts, .ok s)) :
    Dispatches (ms, .failed e) (acts ++ acts', res') := by
  generalize hx : (ms, Status.failed e) = x at h
  generalize hy : (acts, Except.ok s) = y at h
  induction h generalizing ms acts with
  | idle => cases hx
  | badRequest => cases hx; cases hy; exact .badRequest
  | fault => cases hy
  | request hm _ ih => cases hx; cases hy; exact .request hm (ih rfl rfl)

end Dispatches

theorem done_of_agrees {m : HttpRequest} {r : Bytes} {o}
    (h : Agrees (.done m r) o) : ∃ ctx buf, o = .ok (true, ctx, buf) ∧ ctx.state = .finish ∧
      ctx.request.Same m ∧ buf.readable = r := by
  cases h with
  | done hs hm => exact ⟨_, _, rfl, hs, hm, rfl⟩

/-- No delivery ends where `parseURI` would look past its bytes. -/
def Status.InBounds (st : Status Phase Byte Failure) : Prop :=
  ∀ p r, st = .idle p r → ¬LooksPast p r

theorem onMessageLoop_agrees (fuel : Nat) (s : Session) {p : Phase} (t : Timestamp)
    (hp : Represents p s.context) (hfuel : s.inputBuffer.readableBytes < fuel)
    (hpast : Status.InBounds (parser.drive p s.inputBuffer.readable).2) :
    Dispatches (parser.drive p s.inputBuffer.readable) (HttpServer.onMessageLoop fuel s t) := by
  induction fuel generalizing s p with
  | zero => omega
  | succ fuel ih =>
    rw [HttpServer.onMessageLoop]
    split
    · rename_i h
      rw [← Buffer.readable_eq_nil] at h
      have hnil := Parser.drive_nil (P := parser) (s := p)
      rw [← h] at hnil
      rw [hnil]
      exact .idle hp
    · rename_i h
      rw [← Buffer.readable_eq_nil] at h
      have hagree := HttpContext.parseRequest_agrees _ _ t hp fun p' r' hmore => by
        rw [Parser.drive_more h hmore] at hpast
        exact hpast p' r' rfl
      match hparse : parse p s.inputBuffer.readable with
      | .more p' r' =>
        rw [Parser.drive_more h hparse]
        rw [hparse] at hagree
        generalize s.context.parseRequest s.inputBuffer t = o at hagree
        cases hagree with
        | more hp' =>
          simp only [hp'.not_gotAll]
          exact .idle (s := ⟨_, _⟩) hp'
      | .fail e =>
        rw [Parser.drive_fail h hparse]
        rw [hparse] at hagree
        generalize s.context.parseRequest s.inputBuffer t = o at hagree
        cases hagree with
        | badRequest hgot => simp only [hgot]; exact .badRequest
        | fault => exact .fault
      | .done m r' =>
        have hlt := parser.progress hparse
        rw [Parser.drive_done hparse] at hpast ⊢
        rw [hparse] at hagree
        obtain ⟨ctx, buf, ho, hs, hm, rfl⟩ := done_of_agrees hagree
        rw [Buffer.readable_length, Buffer.readable_length] at hlt
        simp only [ho, HttpContext.gotAll, hs]
        exact .request hm (ih ⟨ctx.reset, buf⟩ .line (by simp only; omega) hpast)

theorem deliver_agrees {s : Session} {p : Phase} {c : Chunk} (hp : Represents p s.context)
    (hpast : Status.InBounds (parser.drive p (s.inputBuffer.readable ++ c.data)).2) :
    Dispatches (parser.drive p (s.inputBuffer.readable ++ c.data)) (s.deliver c) := by
  rw [← Buffer.readable_append] at hpast ⊢
  exact onMessageLoop_agrees _ ⟨s.context, s.inputBuffer.append c.data⟩ c.receiveTime hp
    (Nat.lt_succ_self _) hpast

/-- A whole run dispatches what the parser takes out of its chunks. -/
theorem deliverAll_agrees {s : Session} {p : Phase} (cs : List Chunk)
    (hp : Represents p s.context)
    (hpast : ∀ pre c post, cs = pre ++ c :: post →
      Status.InBounds (parser.feedAll (.idle p s.inputBuffer.readable)
        ((pre ++ [c]).map Chunk.data)).2) :
    Dispatches (parser.feedAll (.idle p s.inputBuffer.readable) (cs.map Chunk.data))
      (s.deliverAll cs) := by
  induction cs generalizing s p with
  | nil => exact .idle hp
  | cons c cs ih =>
    have hfirst := deliver_agrees hp
      (by simpa [Parser.feedAll, Parser.feed] using hpast [] c cs rfl)
    rw [List.map_cons, Parser.feedAll, Parser.feed, Session.deliverAll]
    obtain ⟨ms, st, hd⟩ : ∃ ms st,
        parser.drive p (s.inputBuffer.readable ++ c.data) = (ms, st) := ⟨_, _, rfl⟩
    cases st with
    | idle p' r' =>
      rw [hd] at hfirst ⊢
      obtain ⟨-, s', -, -, hres, hp', rfl⟩ := hfirst.of_idle
      rw [show s.deliver c = ((s.deliver c).1, .ok s') from Prod.ext rfl hres] at hfirst ⊢
      refine hfirst.append (ih hp' fun pre d post hcs => ?_)
      simpa [Parser.feedAll, Parser.feed, hd] using hpast (c :: pre) d post (by rw [hcs]; rfl)
    | failed e =>
      rw [hd] at hfirst ⊢
      have hrest : (parser.feedAll (.failed e) (cs.map Chunk.data)) = ([], .failed e) := by
        clear hpast ih
        induction cs with
        | nil => rfl
        | cons d cs ih => simp [Parser.feedAll, Parser.feed, ih]
      simp only [hrest, List.append_nil]
      obtain ⟨acts, res, hres⟩ : ∃ acts res, s.deliver c = (acts, res) := ⟨_, _, rfl⟩
      rw [hres] at hfirst ⊢
      cases res with
      | error f => exact hfirst
      | ok s' => exact hfirst.append_failed

end MuduoX
