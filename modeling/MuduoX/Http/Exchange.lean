import MuduoX.Http.Closing
import MuduoX.Http.ResponseStream
import MuduoX.Http.RoundTrip
import MuduoX.Http.Segmentation
import MuduoX.Net.Output
import MuduoX.Net.Shutdown

/-! # Requests in, responses out

The whole of a connection of `HttpServer`: reads bring requests in pieces, the handler answers each
of them, and what the socket does not take at once leaves later, on `EPOLLOUT`. The input side is
`Session.deliverAll`, of which `Dispatches` says what it makes of the bytes; the output side is
`OutputInv`. `Conveys` is what the answers given so far have made of the connection. -/

namespace MuduoX

open Incremental HttpParser

/-! ### Runs of a connection -/

/-- What the poller reports of a connection: something to read, or room to write. -/
inductive Incident where
  | read (c : Chunk)
  | writable (r : WriteResult)
  deriving DecidableEq

/-- The chunks of a run. -/
def Incident.chunks (is : List Incident) : List Chunk :=
  is.filterMap fun
    | .read c => some c
    | .writable _ => none

namespace HttpConnection

variable (o : Outside)

def handle (hc : HttpConnection) : Incident → HttpConnection
  | .read c => hc.deliver o c
  | .writable r =>
    match hc.session with
    | .error _ => hc
    | .ok _ => { hc with conn := hc.conn.handleWrite hc.conn.channel.loop r }

def handleAll (hc : HttpConnection) (is : List Incident) : HttpConnection :=
  is.foldl (handle o) hc

/-- A connection of `loop` on which nothing has arrived yet. -/
def opened (creator loop : LoopId) : HttpConnection := ⟨.ok .fresh, .established creator loop, []⟩

end HttpConnection

/-! ### Answers -/

/-- The effect is one on the connection. -/
def Effect.onConnection : Effect → Bool
  | .send _ | .shutdown => true
  | .registerFile _ | .asyncRead _ => false

/-- What a handler does with a connection to answer with `r`. -/
def HttpResponse.effects (r : HttpResponse) : List Effect :=
  .sendResponse r :: if r.closeConnection then [.shutdown] else []

/-- The action is answered with `r`, at once. -/
def Action.AnsweredWith (env : Env) (a : Action) (r : HttpResponse) : Prop :=
  (a.effects env).filter Effect.onConnection = r.effects

/-- The actions of a run are answered one by one, in order. -/
structure Answered (o : Outside) (as : List Action) (rs : List HttpResponse) : Prop where
  length_eq : rs.length = as.length
  answered : ∀ (n : Nat) (a : Action) (r : HttpResponse), as[n]? = some a → rs[n]? = some r →
    a.AnsweredWith (o.env n) r

theorem Answered.exists_concat {o : Outside} {as : List Action} {a : Action}
    {rs : List HttpResponse} (h : Answered o (as ++ [a]) rs) :
    ∃ rs' r, rs = rs' ++ [r] ∧ Answered o as rs' ∧ a.AnsweredWith (o.env as.length) r := by
  obtain rfl | ⟨rs', r, rfl⟩ := List.eq_nil_or_concat rs
  · have hlen := h.length_eq
    simp at hlen
  · rw [List.concat_eq_append] at h ⊢
    have hlen : rs'.length = as.length := by
      have hlen := h.length_eq
      rw [List.length_append, List.length_append, List.length_singleton,
        List.length_singleton] at hlen
      exact Nat.succ.inj hlen
    refine ⟨rs', r, rfl, ⟨hlen, ?_⟩, ?_⟩
    · intro n b q hb hq
      apply h.answered n b q
      · rw [List.getElem?_append_left (List.getElem?_eq_some_iff.mp hb).1, hb]
      · rw [List.getElem?_append_left (List.getElem?_eq_some_iff.mp hq).1, hq]
    · apply h.answered
      · exact List.getElem?_concat_length
      · rw [← hlen]
        exact List.getElem?_concat_length

theorem Effect.foldl_filter (socket : TcpConnection → Bytes → WriteResult) (es : List Effect)
    (c : TcpConnection) :
    (es.filter Effect.onConnection).foldl (Effect.apply socket) c =
      es.foldl (Effect.apply socket) c := by
  induction es generalizing c with
  | nil => rfl
  | cons e es ih => cases e <;> exact ih _

namespace HttpResponse

/-- The response is the last one: nothing behind it is sent. -/
theorem upToFinal_append_of_closed {rs : List HttpResponse} {r : HttpResponse}
    (h : ∃ q ∈ rs, q.closeConnection) : upToFinal (rs ++ [r]) = upToFinal rs := by
  induction rs with
  | nil =>
    obtain ⟨q, hq, -⟩ := h
    cases hq
  | cons q rs ih =>
    rw [List.cons_append, upToFinal, upToFinal]
    split
    · rfl
    · rename_i hq
      obtain ⟨p, hp, hclose⟩ := h
      rcases List.mem_cons.mp hp with rfl | hp
      · exact absurd hclose hq
      · rw [ih ⟨p, hp, hclose⟩]

theorem upToFinal_append_of_open {rs : List HttpResponse} {r : HttpResponse}
    (h : ¬∃ q ∈ rs, q.closeConnection) : upToFinal (rs ++ [r]) = upToFinal rs ++ [r] := by
  induction rs with
  | nil =>
    rw [List.nil_append, upToFinal, upToFinal, upToFinal]
    exact ite_self _
  | cons q rs ih =>
    have hq : ¬q.closeConnection := fun hq => h ⟨q, List.mem_cons_self, hq⟩
    rw [List.cons_append, upToFinal, upToFinal, if_neg hq, if_neg hq, ih]
    · rfl
    · intro hlater
      obtain ⟨p, hp, hclose⟩ := hlater
      exact h ⟨p, List.mem_cons_of_mem q hp, hclose⟩

end HttpResponse

/-! ### The output side -/

namespace TcpConnection

variable {tid : LoopId} {c : TcpConnection} {sent : Bytes}

/-- A connection that is closing still has something to write or has closed its write end. -/
def Finishing (c : TcpConnection) : Prop :=
  c.state = .kDisconnecting → c.channel.writing ∨ .shutdownWrite ∈ c.socketLog

theorem finishing_shutdownInLoop : (c.shutdownInLoop tid).Finishing := by
  intro _
  rw [shutdownInLoop]
  split
  · exact .inl ‹_›
  · rw [socketLog_emit]
    exact .inr (List.mem_append_right _ (List.mem_singleton_self _))

theorem finishing_shutdownIfClosing :
    (if c.state = .kDisconnecting then c.shutdownInLoop tid else c).Finishing := by
  split
  · exact finishing_shutdownInLoop
  · intro hclosing
    contradiction

theorem Finishing.handleWrite (h : c.Finishing) (r : WriteResult) :
    (c.handleWrite tid r).Finishing := by
  unfold TcpConnection.handleWrite
  split
  · rename_i hw
    cases r with
    | error e => exact fun _ => .inl hw
    | room n =>
      simp only
      split
      · exact fun _ => .inl hw
      · exact finishing_shutdownIfClosing
  · exact h

/-- The state of a connection whose run has been answered with `rs`. -/
structure Conveys (c : TcpConnection) (rs : List HttpResponse) : Prop where
  output : OutputInv c ((HttpResponse.upToFinal rs).flatMap HttpResponse.encode)
  connected : c.state = .kConnected ↔ ¬∃ r ∈ rs, r.closeConnection
  finishing : c.Finishing

variable {rs : List HttpResponse} {o : Outside}

theorem Conveys.handleWrite (h : c.Conveys rs) (r : WriteResult) :
    (c.handleWrite tid r).Conveys rs where
  output := h.output.handleWrite tid r
  connected := by rw [handleWrite_state]; exact h.connected
  finishing := h.finishing.handleWrite r

/-- One more answer: it is sent, unless an earlier one was the last. -/
theorem Conveys.answer (h : c.Conveys rs) (r : HttpResponse)
    (hreset : ∀ c data, o.socket c data ≠ .error .EPIPE ∧ o.socket c data ≠ .error .ECONNRESET) :
    (r.effects.foldl (Effect.apply o.socket) c).Conveys (rs ++ [r]) := by
  rcases Decidable.em (c.state = .kConnected) with hstate | hstate
  · have hopen := h.connected.mp hstate
    have hsent : OutputInv (Effect.apply o.socket c (.sendResponse r))
        ((HttpResponse.upToFinal (rs ++ [r])).flatMap HttpResponse.encode) := by
      rw [HttpResponse.upToFinal_append_of_open hopen, List.flatMap_append, List.flatMap_singleton,
        Effect.sendResponse, Effect.apply, send, if_pos hstate,
        HttpResponse.readable_appendToBuffer, Buffer.readable_new, List.nil_append]
      exact h.output.sendInLoop _ hstate _ (hreset _ _).1 (hreset _ _).2
    have hconnected : (Effect.apply o.socket c (.sendResponse r)).state = .kConnected := by
      rw [Effect.sendResponse, Effect.apply, send, if_pos hstate, sendInLoop_state, hstate]
    rw [HttpResponse.effects, List.foldl_cons]
    generalize Effect.apply o.socket c (.sendResponse r) = c' at hsent hconnected
    cases hclose : r.closeConnection with
    | false =>
      refine ⟨hsent, ⟨fun _ => ?_, fun _ => hconnected⟩, fun hclosing => ?_⟩
      · rintro ⟨q, hq, hqclose⟩
        rcases List.mem_append.mp hq with hq | hq
        · exact hopen ⟨q, hq, hqclose⟩
        · cases List.mem_singleton.mp hq
          rw [hclose] at hqclose
          cases hqclose
      · exact StateE.noConfusion (hconnected.symm.trans hclosing)
    | true =>
      rw [if_pos rfl, List.foldl_cons, List.foldl_nil, Effect.apply, shutdown, if_pos hconnected]
      refine ⟨?_, ⟨fun h => ?_, fun h => ?_⟩, finishing_shutdownInLoop⟩
      · exact OutputInv.shutdownInLoop _ rfl hsent.stream hsent.writing
          (hsent.open_of_connected hconnected)
      · rw [shutdownInLoop_state] at h
        cases h
      · exact absurd ⟨r, List.mem_append_right _ (List.mem_singleton_self r), hclose⟩ h
  · -- an earlier answer has closed the connection, and nothing is sent
    have hclosed : ∃ q ∈ rs, q.closeConnection :=
      Decidable.not_not.mp (mt h.connected.mpr hstate)
    rw [foldl_apply_of_not_connected hstate]
    refine ⟨?_, ⟨fun h => absurd h hstate, fun h => absurd ?_ h⟩, h.finishing⟩
    · rw [HttpResponse.upToFinal_append_of_closed hclosed]
      exact h.output
    · obtain ⟨q, hq, hqclose⟩ := hclosed
      exact ⟨q, List.mem_append_left _ hq, hqclose⟩

theorem conveys_established (creator loop : LoopId) : (established creator loop).Conveys [] where
  output := outputInv_established creator loop
  connected := ⟨fun _ ⟨_, hr, _⟩ => List.not_mem_nil hr, fun _ => rfl⟩
  finishing h := by cases h

end TcpConnection

namespace HttpConnection

variable {o : Outside} {hc : HttpConnection}

/-- However the actions of the run have been answered, the connection conveys those answers. -/
def Conveying (o : Outside) (hc : HttpConnection) : Prop :=
  ∀ rs, Answered o hc.actions rs → hc.conn.Conveys rs

theorem Conveying.perform (h : Conveying o hc) (a : Action)
    (hreset : ∀ c data, o.socket c data ≠ .error .EPIPE ∧ o.socket c data ≠ .error .ECONNRESET) :
    Conveying o (hc.perform o a) := by
  intro rs hrs
  obtain ⟨rs', r, rfl, hrs', hr⟩ := hrs.exists_concat
  have hanswer := (h rs' hrs').answer r hreset
  rw [← hr, Effect.foldl_filter] at hanswer
  exact hanswer

theorem Conveying.foldl_perform (h : Conveying o hc) (as : List Action)
    (hreset : ∀ c data, o.socket c data ≠ .error .EPIPE ∧ o.socket c data ≠ .error .ECONNRESET) :
    Conveying o (as.foldl (HttpConnection.perform o) hc) := by
  induction as generalizing hc with
  | nil => exact h
  | cons a as ih => exact ih (h.perform a hreset)

theorem Conveying.handle (h : Conveying o hc) (i : Incident)
    (hreset : ∀ c data, o.socket c data ≠ .error .EPIPE ∧ o.socket c data ≠ .error .ECONNRESET) :
    Conveying o (hc.handle o i) := by
  cases i with
  | read c =>
    rw [HttpConnection.handle, deliver]
    split
    · exact h
    · exact h.foldl_perform _ hreset
  | writable r =>
    rw [HttpConnection.handle]
    split
    · exact h
    · exact fun rs hrs => (h rs hrs).handleWrite r

theorem Conveying.handleAll (h : Conveying o hc) (is : List Incident)
    (hreset : ∀ c data, o.socket c data ≠ .error .EPIPE ∧ o.socket c data ≠ .error .ECONNRESET) :
    Conveying o (hc.handleAll o is) := by
  induction is generalizing hc with
  | nil => exact h
  | cons i is ih => exact ih (h.handle i hreset)

/-! ### The input side -/

theorem foldl_perform_actions (as : List Action) :
    (as.foldl (perform o) hc).actions = hc.actions ++ as := by
  induction as generalizing hc with
  | nil => exact (List.append_nil _).symm
  | cons a as ih =>
    rw [List.foldl_cons, ih, perform, List.append_assoc]
    rfl

theorem handleAll_of_fault (hc : HttpConnection) {f : Fault} (h : hc.session = .error f)
    (is : List Incident) : hc.handleAll o is = hc := by
  induction is with
  | nil => rfl
  | cons i is ih =>
    have hstep : hc.handle o i = hc := by
      cases i with
      | read c => simp only [handle, deliver, h]
      | writable r => simp only [handle, h]
    rw [handleAll, List.foldl_cons, hstep]
    exact ih

/-- Writing does not come into what is dispatched. -/
theorem handleAll_session (hc : HttpConnection) {s : Session} (h : hc.session = .ok s)
    (is : List Incident) :
    (hc.handleAll o is).actions = hc.actions ++ (s.deliverAll (Incident.chunks is)).1 ∧
      (hc.handleAll o is).session = (s.deliverAll (Incident.chunks is)).2 := by
  induction is generalizing hc s with
  | nil => exact ⟨(List.append_nil _).symm, h⟩
  | cons i is ih =>
    cases i with
    | writable r =>
      have hstep : hc.handle o (.writable r) =
          { hc with conn := hc.conn.handleWrite hc.conn.channel.loop r } := by
        simp only [handle, h]
      rw [handleAll, List.foldl_cons, hstep]
      exact ih { hc with conn := _ } h
    | read c =>
      have hstep : hc.handle o (.read c) =
          { (s.deliver c).1.foldl (perform o) hc with session := (s.deliver c).2 } := by
        simp only [handle, deliver, h]
      have hchunks : Incident.chunks (.read c :: is) = c :: Incident.chunks is := rfl
      rw [handleAll, List.foldl_cons, hstep, hchunks, Session.deliverAll]
      obtain ⟨as, res, hres⟩ : ∃ as res, s.deliver c = (as, res) := ⟨_, _, rfl⟩
      rw [hres]
      cases res with
      | error f =>
        have hrest := handleAll_of_fault (o := o)
          { as.foldl (perform o) hc with session := .error f } rfl is
        rw [handleAll] at hrest
        rw [hrest]
        exact ⟨foldl_perform_actions as, rfl⟩
      | ok s' =>
        have hrest := ih { as.foldl (perform o) hc with session := .ok s' } rfl
        refine ⟨hrest.1.trans ?_, hrest.2⟩
        simp only [foldl_perform_actions, List.append_assoc]

end HttpConnection

/-- What a run with safe cuts dispatches, in terms of the parser. -/
theorem Session.dispatches_deliverAll {cs : List Chunk} (h : SafeCuts [] (cs.map Chunk.data)) :
    Dispatches (parser.feedAll (.idle .line []) (cs.map Chunk.data)) (fresh.deliverAll cs) := by
  have hrun := deliverAll_agrees (s := fresh) cs .line fun pre c post hcs => by
    rw [hcs, List.map_append, List.map_cons] at h
    have hpre : SafeCuts [] ((pre ++ [c]).map Chunk.data) := by
      rw [List.map_append]
      exact SafeCuts.of_append (post.map Chunk.data) (by simpa using h)
    have hbounds := h.at.inBounds
    rw [show fresh.inputBuffer.readable = [] from Buffer.readable_new _, hpre.feedAll_eq_drive]
    simpa using hbounds
  rwa [show fresh.inputBuffer.readable = [] from Buffer.readable_new _] at hrun

namespace Incremental.Parser

variable {σ α μ ε : Type*} {P : Parser σ α μ ε}

theorem feedAll_append (st : Status σ α ε) (cs cs' : List (List α)) :
    P.feedAll st (cs ++ cs') =
      ((P.feedAll st cs).1 ++ (P.feedAll (P.feedAll st cs).2 cs').1,
        (P.feedAll (P.feedAll st cs).2 cs').2) := by
  induction cs generalizing st with
  | nil => rfl
  | cons c cs ih =>
    rw [List.cons_append, feedAll, ih, feedAll]
    simp only [List.append_assoc]

theorem feedAll_failed (e : ε) (cs : List (List α)) :
    P.feedAll (.failed e) cs = ([], .failed e) := by
  induction cs with
  | nil => rfl
  | cons c cs ih => rw [feedAll, feed, ih]; rfl

/-- A run that ends idle has been idle after every chunk. -/
theorem feedAll_idle_of_append {st : Status σ α ε} {cs cs' : List (List α)} {ms : List μ} {s : σ}
    {r : List α} (h : P.feedAll st (cs ++ cs') = (ms, .idle s r)) :
    ∃ ms₁ s₁ r₁, P.feedAll st cs = (ms₁, .idle s₁ r₁) ∧ ms₁ <+: ms := by
  rw [feedAll_append] at h
  obtain ⟨hms, hst⟩ := Prod.mk.inj h
  rcases hfirst : P.feedAll st cs with ⟨ms₁, s₁ | e⟩
  · rw [hfirst] at hms
    exact ⟨ms₁, _, _, rfl, _, hms⟩
  · rw [hfirst, feedAll_failed] at hst
    cases hst

end Incremental.Parser

namespace RequestMessage

/-- The messages that are whole in the first `n` bytes of what all of them are written as. -/
def arrived : List RequestMessage → Nat → List RequestMessage
  | [], _ => []
  | m :: ms, n => if m.encode.length ≤ n then m :: arrived ms (n - m.encode.length) else []

theorem arrived_all (ms : List RequestMessage) : arrived ms (ms.flatMap encode).length = ms := by
  induction ms with
  | nil => rfl
  | cons m ms ih =>
    rw [List.flatMap_cons, List.length_append, arrived, if_pos (Nat.le_add_right ..),
      Nat.add_sub_cancel_left, ih]

theorem arrived_front (ms : List RequestMessage) (n : Nat) : arrived ms n <+: ms := by
  induction ms generalizing n with
  | nil => exact List.nil_prefix
  | cons m ms ih =>
    rw [arrived]
    split
    · exact List.cons_prefix_cons.mpr ⟨rfl, ih _⟩
    · exact List.nil_prefix

/-- A message is not parsed before its last byte is there. -/
theorem drive_part (m : RequestMessage) {part u rest : Bytes} (hu : u ≠ [])
    (hm : m.encode = part ++ u) (hsize : (m.body ++ rest).length < 2 ^ 64) :
    (parser.drive .line part).1 = [] := by
  rcases Decidable.em (part = []) with rfl | hpart
  · exact congrArg Prod.fst Parser.drive_nil
  · cases hparse : parser.parse .line part with
    | more p r => rw [Parser.drive_more hpart hparse]
    | fail e => rw [Parser.drive_fail hpart hparse]
    | done q r =>
      have hdone := resumable.done_append (u ++ rest) (resumable.init_resume _) hparse
      have hwhole := m.parse_encode rest hsize
      rw [hm, List.append_assoc] at hwhole
      have hrest := (Reply.done.inj (hdone.symm.trans hwhole)).2
      have hlen := congrArg List.length hrest
      rw [List.length_append, List.length_append] at hlen
      exact absurd (List.length_eq_zero_iff.mp (by omega)) hu

/-- The messages that are whole are parsed. -/
theorem drive_front {ms : List RequestMessage} {front later : Bytes}
    (hbytes : front ++ later = ms.flatMap encode) (hsize : (ms.flatMap encode).length < 2 ^ 64) :
    (parser.drive .line front).1 = (arrived ms front.length).map request := by
  induction ms generalizing front with
  | nil =>
    rw [(List.append_eq_nil_iff.mp hbytes).1]
    exact congrArg Prod.fst Parser.drive_nil
  | cons m ms ih =>
    rw [List.flatMap_cons] at hbytes hsize
    have hbody : (m.body ++ ms.flatMap encode).length < 2 ^ 64 := by
      rw [encode, List.append_assoc, List.length_append] at hsize
      exact lt_of_le_of_lt (Nat.le_add_left ..) hsize
    rw [arrived]
    rcases List.append_eq_append_iff.mp hbytes with ⟨u, hm, hlater⟩ | ⟨front', rfl, hrest⟩
    · rcases Decidable.em (u = []) with rfl | hu
      · -- the message ends where the bytes end
        rw [List.append_nil] at hm
        rw [← hm, if_pos (le_refl _), Nat.sub_self]
        have hparse := m.parse_encode [] (by rw [List.length_append] at hbody ⊢; simp; omega)
        rw [List.append_nil] at hparse
        have hsize' : (ms.flatMap encode).length < 2 ^ 64 := by
          rw [List.length_append] at hsize
          omega
        have hnil := @ih [] hlater hsize'
        rw [Parser.drive_done hparse, parser_init, hnil]
        rfl
      · have hlt : ¬m.encode.length ≤ front.length := by
          have hpos := List.length_pos_iff.mpr hu
          rw [hm, List.length_append]
          omega
        rw [if_neg hlt, m.drive_part hu hm hbody]
        rfl
    · have hsize' : (ms.flatMap encode).length < 2 ^ 64 := by
        rw [List.length_append] at hsize
        omega
      have hparse := m.parse_encode front' (by
        rw [hrest, List.length_append, List.length_append] at hbody
        rw [List.length_append]
        omega)
      rw [if_pos (by rw [List.length_append]; omega), List.length_append, Nat.add_sub_cancel_left,
        Parser.drive_done hparse, parser_init, ih hrest.symm hsize']
      rfl

end RequestMessage

/-- The requests of the messages that a run has brought in whole are dispatched, and the session is
ready for the rest. -/
theorem Session.deliverAll_messages {ms : List RequestMessage} {cs later : List Chunk}
    (hcuts : SafeCuts [] ((cs ++ later).map Chunk.data))
    (hbytes : ((cs ++ later).map Chunk.data).flatten = ms.flatMap RequestMessage.encode)
    (hsize : (ms.flatMap RequestMessage.encode).length < 2 ^ 64) :
    ∃ (reqs : List HttpRequest) (s : Session),
      fresh.deliverAll cs = (reqs.map Action.request, .ok s) ∧
      reqs.map HttpRequest.eraseTime =
        (RequestMessage.arrived ms (cs.map Chunk.data).flatten.length).map
          RequestMessage.request := by
  have hall := hcuts.feedAll_eq_drive
  rw [hbytes, drive_encode ms hsize, List.map_append] at hall
  obtain ⟨ms₁, p, r, hfirst, hfront⟩ := Parser.feedAll_idle_of_append hall
  rw [List.map_append] at hcuts hbytes
  have hcuts' := SafeCuts.of_append _ hcuts
  have hrun := dispatches_deliverAll hcuts'
  rw [hfirst] at hrun
  obtain ⟨reqs, s, hacts, hreqs, hres, -⟩ := hrun.of_idle
  have herase : ms₁.map HttpRequest.eraseTime = ms₁ := by
    rw [List.map_congr_left (g := id), List.map_id]
    intro q hq
    obtain ⟨m, -, rfl⟩ := List.mem_map.mp (hfront.subset hq)
    rfl
  have hdrive := hcuts'.feedAll_eq_drive
  rw [List.flatten_append] at hbytes
  rw [hfirst] at hdrive
  refine ⟨reqs, s, Prod.ext hacts hres, ?_⟩
  rw [hreqs, herase, ← RequestMessage.drive_front hbytes hsize, ← hdrive]

theorem Answered.concat {o : Outside} {as : List Action} {a : Action} {rs : List HttpResponse}
    {r : HttpResponse} (h : Answered o as rs) (hr : a.AnsweredWith (o.env as.length) r) :
    Answered o (as ++ [a]) (rs ++ [r]) where
  length_eq := by rw [List.length_append, List.length_append, h.length_eq]; rfl
  answered n b q hb hq := by
    rw [List.getElem?_append] at hb hq
    rw [h.length_eq] at hq
    split at hb
    · rw [if_pos ‹_›] at hq
      exact h.answered n b q hb hq
    · rw [if_neg ‹_›] at hq
      obtain ⟨hn, rfl⟩ := List.getElem?_eq_some_iff.mp hb
      obtain ⟨-, rfl⟩ := List.getElem?_eq_some_iff.mp hq
      have hn : n = as.length := by
        rw [List.length_singleton] at hn
        omega
      subst hn
      simpa using hr

theorem Answered.exists_framed {o : Outside} {as : List Action}
    (h : ∀ n a, as[n]? = some a → ∃ r, Action.AnsweredWith (o.env n) a r ∧ r.Framed) :
    ∃ rs, Answered o as rs ∧ ∀ r ∈ rs, r.Framed := by
  induction as using List.reverseRecOn with
  | nil => exact ⟨[], ⟨rfl, fun n a r ha => by cases ha⟩, fun r hr => by cases hr⟩
  | append_singleton as a ih =>
    obtain ⟨rs, hrs, hframed⟩ := ih fun n b hb =>
      h n b (by rw [List.getElem?_append_left (List.getElem?_eq_some_iff.mp hb).1, hb])
    obtain ⟨r, hr, hrframed⟩ := h as.length a List.getElem?_concat_length
    refine ⟨rs ++ [r], hrs.concat hr, ?_⟩
    intro q hq
    rcases List.mem_append.mp hq with hq | hq
    · exact hframed q hq
    · cases List.mem_singleton.mp hq
      exact hrframed

/-- The write end is closed when the last answer has been given and everything has been taken. -/
theorem TcpConnection.Conveys.closed_iff {c : TcpConnection} {rs : List HttpResponse}
    (h : c.Conveys rs) : .shutdownWrite ∈ c.socketLog ↔
      (∃ r ∈ rs, r.closeConnection) ∧ c.outputBuffer.readable = [] := by
  constructor
  · intro hmem
    rcases h.output.closed with hopen | ⟨hstate, hwriting, -⟩
    · exact absurd hmem hopen
    · refine ⟨Decidable.not_not.mp (mt h.connected.mpr ?_), ?_⟩
      · rw [hstate]
        exact StateE.noConfusion
      · exact Decidable.not_not.mp (mt h.output.writing.mpr hwriting)
  · intro ⟨hclosed, hempty⟩
    have hstate : c.state = .kDisconnecting :=
      h.output.state.resolve_left fun hstate => h.connected.mp hstate hclosed
    rcases h.finishing hstate with hwriting | hmem
    · exact absurd hempty (h.output.writing.mp hwriting)
    · exact hmem

/-- **Requests in, responses out.** However the bytes of the requests are cut, as long as the cuts
are safe, and however slowly the socket takes the answers: at every moment exactly the requests that
have arrived whole have been dispatched, in order, what the socket has taken and what is still buffered
decodes to the answers to them up to the first that closes the connection, and the write end has
been closed exactly if there is such an answer and everything has been taken. -/
theorem HttpConnection.exchange (o : Outside) (creator loop : LoopId) (ms : List RequestMessage)
    (is later : List Incident)
    (hreset : ∀ c data, o.socket c data ≠ .error .EPIPE ∧ o.socket c data ≠ .error .ECONNRESET)
    (hanswers : ∀ n req, (ms.map RequestMessage.request)[n]? = some req.eraseTime →
      ∃ r, Action.AnsweredWith (o.env n) (.request req) r ∧ r.Framed)
    (hcuts : SafeCuts [] ((Incident.chunks (is ++ later)).map Chunk.data))
    (hbytes : ((Incident.chunks (is ++ later)).map Chunk.data).flatten =
      ms.flatMap RequestMessage.encode)
    (hsize : (ms.flatMap RequestMessage.encode).length < 2 ^ 64) :
    let hc := (opened creator loop).handleAll o is
    ∃ (reqs : List HttpRequest) (rs : List HttpResponse) (s : Session),
      hc.session = .ok s ∧ hc.actions = reqs.map Action.request ∧
      reqs.map HttpRequest.eraseTime =
        (RequestMessage.arrived ms ((Incident.chunks is).map Chunk.data).flatten.length).map
          RequestMessage.request ∧
      Answered o hc.actions rs ∧
      streamDecoder.drive () (hc.conn.accepted ++ hc.conn.outputBuffer.readable) =
        (HttpResponse.upToFinal rs, .idle () []) ∧
      (.shutdownWrite ∈ hc.conn.socketLog ↔
        (∃ r ∈ rs, r.closeConnection) ∧ hc.conn.outputBuffer.readable = []) := by
  intro hc
  rw [Incident.chunks, List.filterMap_append] at hcuts hbytes
  obtain ⟨reqs, s, hrun, harrived⟩ := Session.deliverAll_messages hcuts hbytes hsize
  have hfront : reqs.map HttpRequest.eraseTime <+: ms.map RequestMessage.request :=
    harrived ▸ (RequestMessage.arrived_front ms _).map _
  obtain ⟨hactions, hsession⟩ := handleAll_session (o := o) (opened creator loop) rfl is
  rw [Incident.chunks, hrun] at hactions hsession
  have hactions : hc.actions = reqs.map Action.request := hactions
  obtain ⟨rs, hrs, hframed⟩ : ∃ rs, Answered o hc.actions rs ∧ ∀ r ∈ rs, r.Framed := by
    apply Answered.exists_framed
    intro n a ha
    rw [hactions, List.getElem?_map, Option.map_eq_some_iff] at ha
    obtain ⟨req, hreq, rfl⟩ := ha
    have herased : (reqs.map HttpRequest.eraseTime)[n]? = some req.eraseTime := by
      rw [List.getElem?_map, hreq, Option.map_some]
    obtain ⟨hn, heq⟩ := List.getElem?_eq_some_iff.mp herased
    exact hanswers n req ((List.prefix_iff_getElem?.mp hfront n hn).trans (congrArg some heq))
  have hconveys : hc.conn.Conveys rs := by
    apply Conveying.handleAll (o := o) _ is hreset rs hrs
    intro rs' hrs'
    cases List.length_eq_zero_iff.mp hrs'.length_eq
    exact TcpConnection.conveys_established creator loop
  refine ⟨reqs, rs, s, hsession, hactions, harrived, hrs, ?_, hconveys.closed_iff⟩
  rw [hconveys.output.stream]
  exact HttpResponse.drive_upToFinal hframed

/-- The server of `answering`, on a socket that has room for ten bytes. -/
def answeringSlowly : Outside := { answering with socket _ _ := .room 10 }

def answered (req : HttpRequest) : HttpResponse :=
  (HttpResponse.new (HttpServer.shouldClose req)).setStatusCode k200Ok

theorem framed_answered (req : HttpRequest) : (answered req).Framed := by
  have hplain : HttpResponse.Plain ((HttpResponse.new false).setStatusCode k200Ok) := by
    refine ⟨rfl, by decide, ?_, ?_, ?_, ?_, ?_, by decide⟩ <;> decide +kernel
  rw [answered]
  cases HttpServer.shouldClose req with
  | false => exact .inl hplain
  | true => exact .inr ⟨rfl, hplain⟩

theorem answeredWith_answered (n : Nat) (req : HttpRequest) :
    (Action.request req).AnsweredWith (answeringSlowly.env n) (answered req) := by
  have heffects : HttpServer.onRequest (answeringSlowly.env n) req = (answered req).effects := rfl
  rw [Action.AnsweredWith, Action.effects, heffects, HttpResponse.effects]
  cases (answered req).closeConnection <;> rfl

/-- Two requests in one read, the second of them HTTP/1.0, and the answers to them in two
writes. -/
theorem HttpConnection.exchange_pair :
    let bytes := [postMessage, getMessage].flatMap RequestMessage.encode
    let hc := (opened 0 1).handleAll answeringSlowly [.read ⟨bytes, 7⟩, .writable (.room 1000)]
    ∃ (reqs : List HttpRequest) (rs : List HttpResponse) (s : Session),
      hc.session = .ok s ∧ hc.actions = reqs.map Action.request ∧
      reqs.map HttpRequest.eraseTime = [postMessage.request, getMessage.request] ∧
      Answered answeringSlowly hc.actions rs ∧
      streamDecoder.drive () (hc.conn.accepted ++ hc.conn.outputBuffer.readable) =
        (HttpResponse.upToFinal rs, .idle () []) ∧
      (.shutdownWrite ∈ hc.conn.socketLog ↔
        (∃ r ∈ rs, r.closeConnection) ∧ hc.conn.outputBuffer.readable = []) := by
  intro bytes
  have hsize : bytes.length < 2 ^ 64 := by decide +kernel
  have hstart := congrArg Prod.snd (Parser.drive_nil (P := parser) (s := .line))
  have hend : (parser.drive .line ([] ++ bytes)).2 = .idle .line [] := by
    rw [List.nil_append]
    exact congrArg Prod.snd (drive_encode [postMessage, getMessage] hsize)
  have hcut : SafeCut [] bytes := .of_idle hstart trivial hend (by decide)
  have hchunks : Incident.chunks ([.read ⟨bytes, 7⟩, .writable (.room 1000)] ++ []) =
      [⟨bytes, 7⟩] := rfl
  obtain ⟨reqs, rs, s, hsession, hactions, harrived, hrest⟩ :=
    HttpConnection.exchange answeringSlowly 0 1 [postMessage, getMessage]
      [.read ⟨bytes, 7⟩, .writable (.room 1000)] [] (fun c data => ⟨nofun, nofun⟩)
      (fun n req _ => ⟨_, answeredWith_answered n req, framed_answered req⟩)
      (hchunks ▸ ⟨hcut, trivial⟩) (hchunks ▸ List.flatten_singleton) hsize
  refine ⟨reqs, rs, s, hsession, hactions, harrived.trans ?_, hrest⟩
  have hall : ((Incident.chunks [.read ⟨bytes, 7⟩, .writable (.room 1000)]).map
      Chunk.data).flatten = bytes := List.flatten_singleton
  rw [hall, RequestMessage.arrived_all]
  rfl

end MuduoX
