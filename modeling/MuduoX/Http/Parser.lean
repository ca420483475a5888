import MuduoX.Theory.Incremental
import MuduoX.Http.ContextLemmas

/-! What `HttpContext` is for: an incremental parser of requests.

`parse` is stated over the unconsumed bytes and a `Phase`; there is no buffer, no receive time and
no byte behind the end. It keeps the code's behaviour in the header section, where an unfinished
section is scanned again from its first byte and from the automaton state the last scan ended in.
That is also where it can fail to be resumable: `Resume` names the states from which a second scan
answers as if there had been only one, and `resumable` proves it. -/

namespace MuduoX
namespace HttpParser

open Incremental HttpContext

/-- What is known of the current request. A body that is waited for is not empty. -/
inductive Phase where
  | line
  | headers (h : ParseState) (req : HttpRequest)
  | body (req : HttpRequest) (len : Nat) (pos : 0 < len)
  deriving DecidableEq

/-- Why no request can follow. -/
inductive Failure where
  | badRequest
  | fault (f : Fault)
  deriving DecidableEq

abbrev Answer := Reply Phase Byte HttpRequest Failure

def takeBody (req : HttpRequest) (len : Nat) (r : Bytes) : Answer :=
  if h : len ≤ r.length then .done (req.setBody (r.take len)) (r.drop len)
  else .more (.body req len (Nat.zero_lt_of_lt (Nat.lt_of_not_le h))) r

/-- Only a POST request has a body, and only under a `Content-Length`. -/
def afterHeaders (req : HttpRequest) (r : Bytes) : Answer :=
  if req.method = .kPost then
    match req.headers[ascii "Content-Length"]? with
    | none => .done req r
    | some v =>
      match stoul v with
      | .error f => .fail (.fault f)
      | .ok len => takeBody req len r
  else .done req r

def inHeaders (h : ParseState) (req : HttpRequest) (r : Bytes) : Answer :=
  match headerLoop r r 0 (.enter h) req with
  | .error f => .fail (.fault f)
  | .ok (.again s req) => .more (.headers s.hState req) r
  | .ok (.error _ _) => .fail .badRequest
  | .ok (.success req used) => afterHeaders req (r.drop used)

/-- The bytes before the first CR, and those from it on. -/
def splitCR (r : Bytes) : Bytes × Bytes := (r.takeWhile (· ≠ CR), r.dropWhile (· ≠ CR))

def onLine (r : Bytes) : Answer :=
  match splitCR r with
  | (_, []) => .more .line r
  | (line, _ :: rest) =>
    match requestLine .new line line.length, rest with
    | (false, _), _ => .fail .badRequest
    | (true, _), [] => .more .line r
    | (true, req), c :: rest => if c = LF then inHeaders .start req rest else .fail .badRequest

def parse : Phase → Bytes → Answer
  | .line, r => onLine r
  | .headers h req, r => inHeaders h req r
  | .body req len _, r => takeBody req len r

/-! ### Progress -/

theorem takeBody_done {req m : HttpRequest} {len : Nat} {r r' : Bytes}
    (h : takeBody req len r = .done m r') : r'.length + len = r.length := by
  unfold takeBody at h
  split at h <;> cases h
  simp; omega

theorem afterHeaders_done {req m : HttpRequest} {r r' : Bytes}
    (h : afterHeaders req r = .done m r') : r'.length ≤ r.length := by
  unfold afterHeaders at h
  split at h
  · split at h
    · cases h; exact Nat.le_refl _
    · split at h
      · cases h
      · have := takeBody_done h; omega
  · cases h; exact Nat.le_refl _

theorem inHeaders_done {h : ParseState} {req m : HttpRequest} {r r' : Bytes}
    (hd : inHeaders h req r = .done m r') : r'.length < r.length := by
  unfold inHeaders at hd
  split at hd
  · cases hd
  · cases hd
  · cases hd
  · rename_i hloop
    have h₁ := headerLoop_used hloop
    have h₂ := afterHeaders_done hd
    rw [List.length_drop] at h₂
    omega

theorem splitCR_append (r : Bytes) : (splitCR r).1 ++ (splitCR r).2 = r :=
  List.takeWhile_append_dropWhile

theorem splitCR_of_free {line : Bytes} (h : CR ∉ line) (rest : Bytes) :
    splitCR (line ++ CR :: rest) = (line, CR :: rest) := by
  have hfree : ∀ b ∈ line, decide (b ≠ CR) = true := fun b hb =>
    decide_eq_true fun hcr => h (hcr ▸ hb)
  rw [splitCR, List.takeWhile_append_of_pos hfree, List.dropWhile_append_of_pos hfree]
  simp

theorem onLine_done {m : HttpRequest} {r r' : Bytes} (h : onLine r = .done m r') :
    r'.length < r.length := by
  have hlen := congrArg List.length (splitCR_append r)
  unfold onLine at h
  split at h
  · cases h
  · rename_i hs
    rw [hs] at hlen
    split at h
    · cases h
    · cases h
    · split at h
      · have := inHeaders_done h
        simp only [List.length_append, List.length_cons] at hlen
        omega
      · cases h

/-- The parser: it starts at a request line, and every request takes at least one byte. -/
def parser : Parser Phase Byte HttpRequest Failure where
  init := .line
  parse := parse
  progress {s r m r'} h := by
    cases s with
    | line => exact onLine_done h
    | headers h' req => exact inHeaders_done h
    | body req len pos =>
      have := takeBody_done h
      omega

@[simp] theorem parser_init : parser.init = .line := rfl
@[simp] theorem parser_parse (s : Phase) (r : Bytes) : parser.parse s r = parse s r := rfl

/-! ### Resumption -/

/-- The automaton states from which the bytes `r` of an unfinished header section can be scanned a
second time: nothing seen yet, or at a line's end with a name to begin with. -/
def ResumeHeaders (h : ParseState) (r : Bytes) : Prop :=
  h = .start ∨ h = .lf ∧ ∀ c ∈ r.head?, ¬(c = LF ∨ c = CR)

instance (h : ParseState) (r : Bytes) : Decidable (ResumeHeaders h r) :=
  inferInstanceAs (Decidable (_ ∨ _ ∧ _))

/-- The phases that can be resumed with `r` to parse. -/
def Resume : Phase → Bytes → Prop
  | .line, _ => True
  | .headers h _, r => ResumeHeaders h r
  | .body _ _ _, _ => True

instance : ∀ p r, Decidable (Resume p r)
  | .line, _ => inferInstanceAs (Decidable True)
  | .headers h _, r => inferInstanceAs (Decidable (ResumeHeaders h r))
  | .body _ _ _, _ => inferInstanceAs (Decidable True)

theorem takeBody_append (req : HttpRequest) (len : Nat) (r u : Bytes) :
    takeBody req len (r ++ u) = (takeBody req len r).extend parse u := by
  rcases Nat.lt_or_ge r.length len with h | h
  · have hmore : takeBody req len r = .more (.body req len (by omega)) r := by
      rw [takeBody, dif_neg (by omega)]
    rw [hmore]
    rfl
  · have happ : len ≤ (r ++ u).length := by rw [List.length_append]; omega
    rw [takeBody, takeBody, dif_pos happ, dif_pos h, List.take_append_of_le_length h,
      List.drop_append_of_le_length h]
    rfl

theorem afterHeaders_append (req : HttpRequest) (r u : Bytes) :
    afterHeaders req (r ++ u) = (afterHeaders req r).extend parse u := by
  unfold afterHeaders
  split
  · split
    · rfl
    · split
      · rfl
      · exact takeBody_append ..
  · rfl

/-- In a resumable state the automaton may as well start from `start`. -/
theorem ResumeHeaders.enter {h : ParseState} {c : Byte} {r : Bytes}
    (hr : ResumeHeaders h (c :: r)) (req : HttpRequest) :
    headerLoop (c :: r) (c :: r) 0 (.enter h) req =
      headerLoop (c :: r) (c :: r) 0 (.enter .start) req := by
  rcases hr with rfl | ⟨rfl, hc⟩
  · rfl
  · exact headerLoop_enter_lf req (hc c rfl)

/-- A second scan of an unfinished section, with more bytes behind it, answers as a single scan
of all of them would. -/
theorem headerLoop_resume {h : ParseState} {s : HeaderScan} {req req' : HttpRequest}
    {r u : Bytes} (hloop : headerLoop r r 0 (.enter h) req = .ok (.again s req'))
    (hr : ResumeHeaders h r) (hu : ResumeHeaders s.hState (r ++ u)) :
    headerLoop (r ++ u) (r ++ u) 0 (.enter s.hState) req' =
      headerLoop (r ++ u) (r ++ u) 0 (.enter h) req := by
  rcases hu with hs | hu
  · obtain ⟨rfl, rfl⟩ := headerLoop_again_start hloop hs
    rfl
  · cases r with
    | nil => cases hloop; rfl
    | cons c r =>
      have hh : ResumeHeaders h (c :: (r ++ u)) := hr
      have hs : ResumeHeaders s.hState (c :: (r ++ u)) := .inr hu
      have hreplay := headerLoop_replay hloop u
      rw [List.cons_append] at hreplay ⊢
      rw [hs.enter, ← hh.enter, hreplay]

theorem inHeaders_append {h : ParseState} {req : HttpRequest} {r u : Bytes}
    (hr : ResumeHeaders h r)
    (hu : ∀ s' r', inHeaders h req r = .more s' r' → Resume s' (r' ++ u)) :
    inHeaders h req (r ++ u) = (inHeaders h req r).extend parse u := by
  have happ := headerLoop_append req (HeaderScan.below_enter h 0) (Nat.zero_add r.length) u
  match hloop : headerLoop r r 0 (.enter h) req with
  | .error f =>
    rw [hloop] at happ
    simp only [inHeaders, hloop, happ]
    rfl
  | .ok (.again s req') =>
    have hmore : inHeaders h req r = .more (.headers s.hState req') r := by
      simp only [inHeaders, hloop]
    have hagain := headerLoop_resume hloop hr (hu _ _ hmore)
    rw [hmore]
    simp only [Reply.extend, parse, inHeaders, hagain]
  | .ok (.error h' req') =>
    rw [hloop] at happ
    simp only [inHeaders, hloop, happ]
    rfl
  | .ok (.success req' used) =>
    rw [hloop] at happ
    have hused : used ≤ r.length := by
      have := headerLoop_used hloop
      omega
    simp only [inHeaders, hloop, happ, List.drop_append_of_le_length hused]
    exact afterHeaders_append ..

theorem splitCR_append_of_cons {r line rest : Bytes} {c : Byte}
    (h : splitCR r = (line, c :: rest)) (u : Bytes) :
    splitCR (r ++ u) = (line, c :: rest ++ u) := by
  obtain ⟨rfl, h₂⟩ := Prod.mk.inj h
  have hne : ¬ (r.takeWhile (· ≠ CR)).length = r.length := by
    intro hlen
    have := congrArg List.length (List.takeWhile_append_dropWhile (p := (· ≠ CR)) (l := r))
    simp only [List.length_append, h₂, List.length_cons] at this
    omega
  rw [splitCR, List.takeWhile_append, List.dropWhile_append, if_neg hne, h₂]
  rfl

theorem onLine_append {r u : Bytes}
    (hu : ∀ s' r', onLine r = .more s' r' → Resume s' (r' ++ u)) :
    onLine (r ++ u) = (onLine r).extend parse u := by
  match hs : splitCR r with
  | (line, []) =>
    have hmore : onLine r = .more .line r := by simp only [onLine, hs]
    rw [hmore]
    rfl
  | (line, c :: rest) =>
    have happ := splitCR_append_of_cons hs u
    rw [List.cons_append] at happ
    match hreq : requestLine .new line line.length, rest with
    | (false, _), _ =>
      simp only [onLine, hs, happ, hreq]
      rfl
    | (true, req), [] =>
      have hmore : onLine r = .more .line r := by simp only [onLine, hs, hreq]
      rw [hmore]
      rfl
    | (true, req), d :: rest =>
      rcases Decidable.em (d = LF) with hd | hd
      · have heq : onLine r = inHeaders .start req rest := by
          simp only [onLine, hs, hreq, if_pos hd]
        rw [heq] at hu ⊢
        rw [← inHeaders_append (.inl rfl) hu]
        simp only [onLine, happ, hreq, List.cons_append, if_pos hd]
      · simp only [onLine, hs, happ, hreq, List.cons_append, if_neg hd]
        rfl

theorem resumable : parser.Resumable Resume where
  init_resume _ := trivial
  append {s r} u hr hu := by
    cases s with
    | line => exact onLine_append hu
    | headers h req => exact inHeaders_append hr hu
    | body req len pos => exact takeBody_append ..

end HttpParser
end MuduoX
