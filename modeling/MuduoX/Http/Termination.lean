import MuduoX.Http.ContextLemmas
import MuduoX.Http.Server

/-! Why `onMessage` comes to an end.

Both of its loops are controlled by the state of the context and by the buffer, not by a counter.
Between two calls a context is `Waiting`: it has not finished its request, and a body that it
waits for is not empty. From there a call of `parseRequest` takes at most four turns, and what it
completes has cost it at least one byte (`parseRequest_progress`). -/

namespace MuduoX
namespace HttpContext

/-- A context between two calls. -/
def Waiting (ctx : HttpContext) : Prop :=
  match ctx.state with
  | .parseURI | .parseHeaders => True
  | .recvBody => ∃ v len, ctx.request.headers[ascii "Content-Length"]? = some v ∧
    stoul v = .ok len ∧ 0 < len
  | .analysis | .finish => False

/-- What a call may come to that is to leave less than `n` bytes behind a completed request. -/
inductive Progress (n : Nat) : Except Fault (Bool × HttpContext × Buffer) → Prop
  | waits {ok ctx buf} : ctx.Waiting → Progress n (.ok (ok, ctx, buf))
  | done {ctx buf} : ctx.state = .finish → buf.readableBytes < n → Progress n (.ok (true, ctx, buf))
  | fault {f} : f ≠ .diverge → Progress n (.error f)

variable {ctx : HttpContext} {buf : Buffer} {t : Timestamp} {n fuel : Nat}

theorem Waiting.of_headers (h : ctx.state = .parseHeaders) : ctx.Waiting := by
  simp only [Waiting, h]

theorem Waiting.of_line (h : ctx.state = .parseURI) : ctx.Waiting := by
  simp only [Waiting, h]

theorem Waiting.state_ne (h : ctx.Waiting) : ctx.state ≠ .finish ∧ ctx.state ≠ .analysis := by
  unfold Waiting at h
  split at h
  · simp [*]
  · simp [*]
  · simp [*]
  · cases h
  · cases h

/-! ### Exceptions are no endless loops -/

theorem cstring_ne_diverge (bs : Bytes) (first last : Option Nat) :
    cstring bs first last ≠ .error .diverge := by
  unfold cstring
  split
  · split <;> nofun
  · nofun
  · nofun

theorem bind_ne_diverge {α β : Type} {x : Except Fault α} {f : α → Except Fault β}
    (hx : x ≠ .error .diverge) (hf : ∀ a, f a ≠ .error .diverge) : (x >>= f) ≠ .error .diverge := by
  cases x with
  | error e => exact fun h => hx (Except.error.inj h ▸ rfl)
  | ok a => exact hf a

theorem addHeader_ne_diverge (bs : Bytes) (start colon last : Option Nat) :
    HttpRequest.addHeader bs start colon last ≠ .error .diverge := by
  refine bind_ne_diverge (cstring_ne_diverge _ _ _) fun field => ?_
  cases colon with
  | none => nofun
  | some c => exact bind_ne_diverge (cstring_ne_diverge _ _ _) nofun

theorem headerStep_ne_diverge (bytes : Bytes) (k : Nat) (ch : Byte) (s : HeaderScan) :
    headerStep bytes k ch s ≠ .error .diverge := by
  unfold headerStep
  cases s.hState with
  | start | endCR | lf => dsimp only; split <;> nofun
  | spacesAfterColon | endLF => nofun
  | key =>
    dsimp only
    split
    · exact bind_ne_diverge (cstring_ne_diverge _ _ _) nofun
    · split <;> nofun
  | colon =>
    dsimp only
    split
    · exact bind_ne_diverge (cstring_ne_diverge _ _ _) nofun
    · nofun
  | value =>
    dsimp only
    split
    · exact bind_ne_diverge (cstring_ne_diverge _ _ _) nofun
    · split
      · exact bind_ne_diverge (addHeader_ne_diverge _ _ _ _) fun field =>
          bind_ne_diverge (cstring_ne_diverge _ _ _) nofun
      · nofun
  | cr =>
    dsimp only
    split
    · exact bind_ne_diverge (addHeader_ne_diverge _ _ _ _) fun field =>
        bind_ne_diverge (cstring_ne_diverge _ _ _) nofun
    · nofun

theorem headerLoop_ne_diverge (bytes rest : Bytes) (k : Nat) (s : HeaderScan) (req : HttpRequest) :
    headerLoop bytes rest k s req ≠ .error .diverge := by
  induction rest generalizing k s req with
  | nil => nofun
  | cons ch rest ih =>
    cases hstep : headerStep bytes k ch s with
    | error f =>
      rw [headerLoop_fault hstep]
      intro h
      cases h
      exact headerStep_ne_diverge _ _ _ _ hstep
    | ok step =>
      cases step with
      | next s' stored =>
        rw [headerLoop_next hstep]
        exact ih _ _ _
      | error =>
        rw [headerLoop_error hstep]
        nofun
      | success =>
        rw [headerLoop_success hstep]
        nofun

theorem stoul_ne_diverge (v : Bytes) : stoul v ≠ .error .diverge := by
  unfold stoul
  simp only
  split_ifs <;> nofun

/-! ### One call of `parseRequest` -/

theorem readableBytes_retrieve (buf : Buffer) (len : Nat) :
    (buf.retrieve len).readableBytes = buf.readableBytes - len := by
  rw [← Buffer.readable_length, Buffer.readable_retrieve, List.length_drop, Buffer.readable_length]

theorem parseLoop_analysis_progress (hs : ctx.state = .analysis) (hn : buf.readableBytes < n) :
    Progress n (parseLoop (fuel + 1) ctx buf t) := by
  rw [parseLoop]
  simp only [hs]
  exact .done rfl hn

/-- A body is waited for only when it is not empty, so that taking it later takes some bytes. -/
theorem parseLoop_recvBody_progress (hs : ctx.state = .recvBody)
    (hn : buf.readableBytes < n ∨ buf.readableBytes = n ∧ ctx.Waiting) :
    Progress n (parseLoop (fuel + 2) ctx buf t) := by
  rw [parseLoop]
  simp only [hs, recvBody]
  cases hfield : ctx.request.headers[ascii "Content-Length"]? with
  | none =>
    refine parseLoop_analysis_progress rfl ?_
    obtain hn | ⟨-, hwait⟩ := hn
    · exact hn
    · simp [Waiting, hs, hfield] at hwait
  | some v =>
    dsimp only
    cases hlen : stoul v with
    | error f => exact .fault fun h => stoul_ne_diverge v (h ▸ hlen)
    | ok len =>
      dsimp only
      by_cases hle : len ≤ buf.readableBytes
      · rw [if_pos hle]
        refine parseLoop_analysis_progress rfl ?_
        rw [readableBytes_retrieve]
        obtain hn | ⟨rfl, hwait⟩ := hn
        · omega
        · simp only [Waiting, hs, hfield] at hwait
          obtain ⟨w, len', hw, hlen', hpos⟩ := hwait
          cases hw
          cases hlen.symm.trans hlen'
          omega
      · rw [if_neg hle]
        refine .waits ?_
        simp only [Waiting, hs]
        exact ⟨v, len, hfield, hlen, by omega⟩

theorem parseLoop_headers_progress (hs : ctx.state = .parseHeaders) (hn : buf.readableBytes ≤ n) :
    Progress n (parseLoop (fuel + 3) ctx buf t) := by
  rw [parseLoop]
  simp only [hs, parseHeaders_of_readable]
  cases hloop : headerLoop buf.readable buf.readable 0 (.enter ctx.hState) ctx.request with
  | error f => exact .fault fun h => headerLoop_ne_diverge _ _ _ _ _ (h ▸ hloop)
  | ok r =>
    cases r with
    | again s req => exact .waits (.of_headers rfl)
    | error h req => exact .waits (.of_headers rfl)
    | success req used =>
      have hused := headerLoop_used hloop
      rw [Buffer.readable_length] at hused
      have hlt : (buf.retrieve used).readableBytes < n := by
        rw [readableBytes_retrieve]
        omega
      dsimp only
      split
      · exact parseLoop_recvBody_progress rfl (.inl hlt)
      · exact parseLoop_analysis_progress rfl hlt

theorem parseLoop_line_progress (hs : ctx.state = .parseURI) (hn : buf.readableBytes ≤ n) :
    Progress n (parseLoop (fuel + 4) ctx buf t) := by
  rw [parseLoop]
  simp only [hs]
  by_cases hcr : CR ∈ buf.readable
  · obtain ⟨line, rest, hread, hfree⟩ := List.eq_append_cons_of_mem hcr
    rw [parseURI_line hread hfree]
    generalize requestLine ctx.request line line.length = r
    obtain ⟨_ | _, req⟩ := r
    · exact .waits (.of_line hs)
    · cases buf.byteAt (line.length + 1) with
      | none => exact .fault nofun
      | some c =>
        dsimp only
        by_cases hc : c = LF
        · rw [if_pos hc]
          refine parseLoop_headers_progress rfl ?_
          rw [Buffer.retrieveUntil, readableBytes_retrieve]
          omega
        · rw [if_neg hc]
          exact .waits (.of_line hs)
  · rw [parseURI_again hcr]
    exact .waits (.of_line hs)

/-- A call from a waiting context ends after at most four turns, and a request that it completes
has taken at least one byte. -/
theorem parseRequest_progress (h : ctx.Waiting) (buf : Buffer) (t : Timestamp) :
    Progress buf.readableBytes (ctx.parseRequest buf t) := by
  unfold parseRequest
  cases hs : ctx.state with
  | parseURI => exact parseLoop_line_progress hs (Nat.le_refl _)
  | parseHeaders => exact parseLoop_headers_progress hs (Nat.le_refl _)
  | recvBody => exact parseLoop_recvBody_progress hs (.inr ⟨rfl, h⟩)
  | analysis => exact absurd hs h.state_ne.2
  | finish => exact absurd hs h.state_ne.1

end HttpContext

/-! ### The loop of `onMessage` -/

namespace HttpServer

open HttpContext

/-- One turn of the loop that dispatches a request, and the session that the next turn begins
with. -/
def Dispatching (t : Timestamp) (s s' : Session) : Prop :=
  s.inputBuffer.readableBytes ≠ 0 ∧ ∃ ok context buf,
    s.context.parseRequest s.inputBuffer t = .ok (ok, context, buf) ∧ context.gotAll ∧
      s' = ⟨context.reset, buf⟩

variable {s s' : Session} {t : Timestamp} {fuel : Nat}

/-- A dispatched request leaves fewer bytes, and a context that waits for the next one. -/
theorem Dispatching.progress (h : Dispatching t s s') (hwait : s.context.Waiting) :
    s'.inputBuffer.readableBytes < s.inputBuffer.readableBytes ∧ s'.context.Waiting := by
  obtain ⟨-, ok, context, buf, hparse, hgot, rfl⟩ := h
  have hprogress := parseRequest_progress hwait s.inputBuffer t
  rw [hparse] at hprogress
  cases hprogress with
  | waits hwait => exact absurd (of_decide_eq_true hgot) hwait.state_ne.1
  | done hstate hlt => exact ⟨hlt, .of_line rfl⟩

theorem dispatchings_waiting (h : Relation.ReflTransGen (Dispatching t) s s')
    (hwait : s.context.Waiting) : s'.context.Waiting := by
  induction h with
  | refl => exact hwait
  | tail _ hstep ih => exact (hstep.progress ih).2

theorem onMessageLoop_ends (hwait : s.context.Waiting)
    (hfuel : s.inputBuffer.readableBytes < fuel) :
    (onMessageLoop fuel s t).2 ≠ .error .diverge ∧
      ∀ s', (onMessageLoop fuel s t).2 = .ok s' → s'.context.Waiting := by
  induction fuel generalizing s with
  | zero => omega
  | succ fuel ih =>
    rw [onMessageLoop]
    split
    · refine ⟨nofun, fun s' h => ?_⟩
      cases h
      exact hwait
    · have hprogress := parseRequest_progress hwait s.inputBuffer t
      generalize s.context.parseRequest s.inputBuffer t = r at hprogress
      cases hprogress with
      | waits hwait' =>
        have hgot : HttpContext.gotAll _ = false := decide_eq_false hwait'.state_ne.1
        dsimp only
        rw [if_neg (by simp [hgot])]
        refine ⟨nofun, fun s' h => ?_⟩
        cases h
        exact hwait'
      | done hstate hlt =>
        have hgot : HttpContext.gotAll _ = true := decide_eq_true hstate
        dsimp only
        rw [if_pos hgot]
        exact ih (.of_line rfl) (by dsimp only; omega)
      | fault hf =>
        refine ⟨fun h => hf (Except.error.inj h), fun s' h => ?_⟩
        cases h

end HttpServer

/-! ### A connection -/

namespace Session

open HttpContext HttpServer

variable {s s' : Session}

theorem deliver_ends (hwait : s.context.Waiting) (c : Chunk) :
    (s.deliver c).2 ≠ .error .diverge ∧ ∀ s', (s.deliver c).2 = .ok s' → s'.context.Waiting :=
  onMessageLoop_ends hwait (Nat.lt_succ_self _)

theorem deliverAll_waiting (cs : List Chunk) (hwait : s.context.Waiting)
    (h : (s.deliverAll cs).2 = .ok s') : s'.context.Waiting := by
  induction cs generalizing s with
  | nil =>
    cases h
    exact hwait
  | cons c cs ih =>
    rw [deliverAll] at h
    cases hd : s.deliver c with
    | mk actions r =>
      rw [hd] at h
      cases r with
      | error f => cases h
      | ok s₁ => exact ih ((deliver_ends hwait c).2 s₁ (by rw [hd])) h

/-- Whatever has been delivered before, a call of `onMessage` ends. No turn of its loop enters
`parseRequest` with a finished request, every call of `parseRequest` ends, and every turn that
dispatches a request leaves fewer readable bytes. -/
theorem onMessage_ends (cs : List Chunk) (c : Chunk) (h : (fresh.deliverAll cs).2 = .ok s) :
    (s.deliver c).2 ≠ .error .diverge ∧
      ∀ s₁, Relation.ReflTransGen (Dispatching c.receiveTime)
          { s with inputBuffer := s.inputBuffer.append c.data } s₁ →
        s₁.context.state ≠ .finish ∧
        s₁.context.parseRequest s₁.inputBuffer c.receiveTime ≠ .error .diverge ∧
        ∀ s₂, Dispatching c.receiveTime s₁ s₂ →
          s₂.inputBuffer.readableBytes < s₁.inputBuffer.readableBytes := by
  have hwait := deliverAll_waiting cs (.of_line rfl) h
  refine ⟨(deliver_ends hwait c).1, fun s₁ hreach => ?_⟩
  have hwait₁ := dispatchings_waiting hreach hwait
  refine ⟨hwait₁.state_ne.1, ?_, fun s₂ hstep => (hstep.progress hwait₁).1⟩
  have hprogress := parseRequest_progress hwait₁ s₁.inputBuffer c.receiveTime
  intro hdiverge
  rw [hdiverge] at hprogress
  cases hprogress with
  | fault hf => exact hf rfl

theorem onMessage_ends_split :
    ∃ s, (fresh.deliverAll [⟨ascii "GET / HT", 1⟩]).2 = .ok s ∧
      (s.deliver ⟨ascii "TP/1.1\r\nA: b\r\n\r\n", 2⟩).2 ≠ .error .diverge := by
  have hok : (fresh.deliverAll [⟨ascii "GET / HT", 1⟩]).2.toBool = true := by decide +kernel
  cases h : (fresh.deliverAll [⟨ascii "GET / HT", 1⟩]).2 with
  | error f =>
    rw [h] at hok
    cases hok
  | ok s => exact ⟨s, rfl, (onMessage_ends [⟨ascii "GET / HT", 1⟩] _ h).1⟩

end Session
end MuduoX
