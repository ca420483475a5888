import MuduoX.Http.Handler
import MuduoX.Http.Server
import MuduoX.Theory.Deferred

/-! The answers to the requests of one connection.

A request that the callback answers, and one that is refused, has its response handed to
`conn->send` by `onRequest` itself. A static file is read by `io_uring`; its response is handed to
`conn->send` by a functor that the completion callback leaves to the connection's loop. The reads
of one connection complete in any order, and between any two of them `onMessage` may run again.

Every dispatched request is in one place (`Pipeline.answers`), but nothing holds an answer back
until the earlier ones have been sent. -/

namespace MuduoX

/-- A dispatched request, and the earlier ones whose files were still being read. -/
structure Dispatch where
  req : HttpRequest
  pending : List Nat
  deriving DecidableEq

/-- Requests are numbered in the order of their dispatch. -/
structure Pipeline where
  session : Except Fault Session
  dispatched : List Dispatch
  /-- Reads that `io_uring` has not reported yet. -/
  reads : List (Nat × PendingRead)
  /-- Functors of completed reads in the queue of the connection's loop, with what was read. -/
  functors : List (Nat × PendingRead × Bytes)
  /-- What has been handed to `conn->send`, and for which request. -/
  handed : List (Nat × Bytes)
  /-- The calls of `conn->shutdown()`, and for which request. -/
  shutdowns : List Nat
  /-- Requests whose read has failed. -/
  failed : List Nat

namespace Pipeline

def new : Pipeline := ⟨.ok .fresh, [], [], [], [], [], []⟩

def pending (p : Pipeline) : List Nat := p.reads.map Prod.fst ++ p.functors.map Prod.fst

/-- One effect of the handler of request `n`. -/
def carryOut (n : Nat) (p : Pipeline) : Effect → Pipeline
  | .send data => { p with handed := p.handed ++ [(n, data)] }
  | .shutdown => { p with shutdowns := p.shutdowns ++ [n] }
  | .asyncRead read => { p with reads := p.reads ++ [(n, read)] }
  | .registerFile _ => p

inductive Input where
  /-- Bytes arrive and `onMessage` runs. -/
  | deliver (c : Chunk)
  /-- `handleCQE` finds the result of the read for request `n`. -/
  | complete (n : Nat) (result : Option Bytes)
  /-- The connection's loop runs the next functor. -/
  | runFunctor

/- `env n` is what request `n` is handled with; `sameLoop` says that the connection belongs to the
base loop, whose thread runs the completion callbacks. -/
variable (env : Nat → Env) (sameLoop : Bool)

def dispatch (p : Pipeline) (req : HttpRequest) : Pipeline :=
  (HttpServer.onRequest (env p.dispatched.length) req).foldl (carryOut p.dispatched.length)
    { p with dispatched := p.dispatched ++ [⟨req, p.pending⟩] }

/-- A 400 answers no request. -/
def perform (p : Pipeline) : Action → Pipeline
  | .badRequest => p
  | .request req => p.dispatch env req

def step (p : Pipeline) : Input → Option Pipeline
  | .deliver c =>
    match p.session with
    | .error _ => none
    | .ok s =>
      let result := s.deliver c
      some { result.1.foldl (perform env) p with session := result.2 }
  | .complete n result =>
    match p.reads.find? (·.1 = n) with
    | none => none
    | some (_, read) =>
      let p := { p with reads := p.reads.eraseP (·.1 = n) }
      match result with
      | none => some ((read.completed none).foldl (carryOut n) { p with failed := n :: p.failed })
      | some content =>
        if sameLoop then some ((read.completed (some content)).foldl (carryOut n) p)
        else some { p with functors := p.functors ++ [(n, read, content)] }
  | .runFunctor =>
    match p.functors with
    | [] => none
    | (n, read, content) :: functors =>
      some ((read.completed (some content)).foldl (carryOut n) { p with functors })

end Pipeline

/-! ### What a handler does -/

namespace Effect

/-- The responses among the effects of a handler. -/
def sends (es : List Effect) : List Bytes :=
  es.filterMap fun | .send data => some data | _ => none

/-- The reads that a handler starts. -/
def asyncReads (es : List Effect) : List PendingRead :=
  es.filterMap fun | .asyncRead read => some read | _ => none

/-- The `conn->shutdown()` among them. -/
def shutdownCalls (es : List Effect) : List Effect := es.filter (· = .shutdown)

/-- One response is sent, or one read is started and the response is left to it. -/
inductive OneAnswer (es : List Effect) : Prop
  | send (data : Bytes) : sends es = [data] → asyncReads es = [] → OneAnswer es
  | asyncRead (read : PendingRead) : sends es = [] → asyncReads es = [read] → OneAnswer es

theorem mem_asyncReads {es : List Effect} {read : PendingRead} :
    read ∈ asyncReads es ↔ .asyncRead read ∈ es := by
  rw [asyncReads, List.mem_filterMap]
  constructor
  · rintro ⟨e, he, hread⟩
    cases e <;> cases hread
    exact he
  · exact fun h => ⟨_, h, rfl⟩

theorem mem_sends {es : List Effect} {data : Bytes} : data ∈ sends es ↔ .send data ∈ es := by
  rw [sends, List.mem_filterMap]
  constructor
  · rintro ⟨e, he, hdata⟩
    cases e <;> cases hdata
    exact he
  · exact fun h => ⟨_, h, rfl⟩

end Effect

open Effect

namespace HttpServer

theorem oneAnswer_handleError (response : HttpResponse) (statusCode : HttpStatusCode)
    (msg : Bytes) : OneAnswer (handleError response statusCode msg) :=
  .send _ rfl rfl

/-- With an `io_uring` at hand, as every loop has one, a static file is read or refused. -/
theorem oneAnswer_handleStaticFile {env : Env} (huring : env.uring) (req : HttpRequest)
    (response : HttpResponse) : OneAnswer (handleStaticFile env req response) := by
  unfold handleStaticFile
  simp only [huring, not_true, if_false]
  split
  · exact oneAnswer_handleError ..
  · split
    · exact oneAnswer_handleError ..
    · split
      · exact oneAnswer_handleError ..
      · split
        · exact .asyncRead _ rfl rfl
        · exact .send _ rfl rfl

theorem oneAnswer_onRequest {env : Env} (huring : env.uring) (req : HttpRequest) :
    OneAnswer (onRequest env req) := by
  have hanswer (response : HttpResponse) : OneAnswer
      (if response.statusCode ≠ kUnknown then
        .sendResponse response :: if response.closeConnection then [.shutdown] else []
      else handleStaticFile env req response) := by
    split
    · cases response.closeConnection
      · exact .send _ rfl rfl
      · exact .send _ rfl rfl
    · exact oneAnswer_handleStaticFile huring req response
  exact hanswer _

end HttpServer

/-- A completed read is answered with one response. -/
theorem PendingRead.sends_completed (read : PendingRead) (content : Bytes) :
    ∃ data, sends (read.completed (some content)) = [data] ∧
      asyncReads (read.completed (some content)) = [] := by
  unfold completed
  cases read.shouldClose
  · exact ⟨_, rfl, rfl⟩
  · exact ⟨_, rfl, rfl⟩

namespace Pipeline

theorem foldl_carryOut (n : Nat) (es : List Effect) (p : Pipeline) :
    es.foldl (carryOut n) p = { p with
      reads := p.reads ++ (asyncReads es).map (n, ·)
      handed := p.handed ++ (sends es).map (n, ·)
      shutdowns := p.shutdowns ++ (shutdownCalls es).map fun _ => n } := by
  induction es generalizing p with
  | nil => simp [sends, asyncReads, shutdownCalls]
  | cons e es ih =>
    rw [List.foldl_cons, ih]
    cases e with
    | send data => simp [carryOut, sends, asyncReads, shutdownCalls]
    | asyncRead read => simp [carryOut, sends, asyncReads, shutdownCalls]
    | shutdown => simp [carryOut, sends, asyncReads, shutdownCalls]
    | registerFile filepath => rfl

/-- What a completed read leaves behind is its one response, and `conn->shutdown()` if it was asked
for. -/
theorem foldl_completed (n : Nat) (read : PendingRead) (content : Bytes) (p : Pipeline) :
    ∃ data closes, .send data ∈ read.completed (some content) ∧
      (read.completed (some content)).foldl (carryOut n) p =
        { p with handed := p.handed ++ [(n, data)], shutdowns := p.shutdowns ++ closes } := by
  obtain ⟨data, hsends, hreads⟩ := read.sends_completed content
  refine ⟨data, (shutdownCalls (read.completed (some content))).map fun _ => n,
    mem_sends.mp (hsends ▸ List.mem_singleton_self data), ?_⟩
  rw [foldl_carryOut, hsends, hreads]
  simp

theorem map_fst_eraseP (l : List (Nat × PendingRead)) (n : Nat) :
    (l.eraseP (·.1 = n)).map Prod.fst = (l.map Prod.fst).erase n := by
  induction l with
  | nil => rfl
  | cons x l ih =>
    rcases Decidable.em (x.1 = n) with h | h
    · rw [List.eraseP_cons_of_pos (by simpa using h), List.map_cons, h, List.erase_cons_head]
    · rw [List.eraseP_cons_of_neg (by simpa using h), List.map_cons, List.map_cons, ih,
        List.erase_cons_tail (by simpa using h)]

/-! ### The order of the answers -/

/-- A pipeline without the requests and the responses. -/
def abs (p : Pipeline) : Deferred.State where
  issued := p.dispatched.map fun d => (d.pending : Multiset ℕ)
  waiting := p.pending
  answered := p.handed.map Prod.fst
  dropped := p.failed

variable {env : Nat → Env} {sameLoop : Bool} {p p' : Pipeline}

/-- Step by step, the answers of a pipeline are those of the abstract system. -/
theorem dispatch_simulates (huring : ∀ n, (env n).uring) (p : Pipeline) (req : HttpRequest) :
    ∃ js, Run.run Deferred.step p.abs js = some (p.dispatch env req).abs := by
  unfold dispatch
  rw [foldl_carryOut]
  cases HttpServer.oneAnswer_onRequest (huring p.dispatched.length) req with
  | send data hsends hreads =>
    refine ⟨[.atOnce], ?_⟩
    simp [Run.run, Deferred.step, abs, pending, hsends, hreads]
  | asyncRead read hsends hreads =>
    refine ⟨[.defer], ?_⟩
    simp [Run.run, Deferred.step, abs, pending, hsends, hreads, List.perm_middle.symm]

theorem foldl_perform_simulates (huring : ∀ n, (env n).uring) (as : List Action)
    (p : Pipeline) :
    ∃ js, Run.run Deferred.step p.abs js = some (as.foldl (perform env) p).abs := by
  induction as generalizing p with
  | nil => exact ⟨[], rfl⟩
  | cons a as ih =>
    rw [List.foldl_cons]
    obtain ⟨ks, hks⟩ := ih (p.perform env a)
    cases a with
    | badRequest => exact ⟨ks, hks⟩
    | request req =>
      obtain ⟨js, hjs⟩ := dispatch_simulates huring p req
      exact ⟨js ++ ks, Run.run_append.mpr ⟨_, hjs, hks⟩⟩

variable {n m : Nat} {read : PendingRead}

theorem mem_pending_of_find
    (h : p.reads.find? (·.1 = n) = some (m, read)) : (n, read) ∈ p.reads ∧ n ∈ p.pending := by
  have hmn : m = n := by simpa using List.find?_some h
  subst hmn
  have hmem := List.mem_of_find?_eq_some h
  exact ⟨hmem, List.mem_append_left _ (List.mem_map_of_mem hmem)⟩

/-- What is left when a read, or the functor of one, is taken out. -/
theorem erase_pending (h : n ∈ p.reads.map Prod.fst) :
    pending { p with reads := p.reads.eraseP (·.1 = n) } = p.pending.erase n := by
  rw [pending, pending, map_fst_eraseP, List.erase_append_left _ h]

theorem erase_pending_functor {content : Bytes} {fs : List (Nat × PendingRead × Bytes)}
    (h : p.functors = (n, read, content) :: fs) :
    (p.pending.erase n).Perm (pending { p with functors := fs }) := by
  have hperm : p.pending.Perm (n :: pending { p with functors := fs }) := by
    rw [pending, pending, h, List.map_cons]
    exact List.perm_middle
  simpa using hperm.erase n

/-- The response of a request that was pending is handed on. -/
theorem answer_simulates {q : Pipeline} {data : Bytes} (hn : n ∈ p.pending)
    (hpending : (p.pending.erase n).Perm q.pending) (hdispatched : q.dispatched = p.dispatched)
    (hhanded : q.handed = p.handed ++ [(n, data)]) (hfailed : q.failed = p.failed) :
    ∃ js, Run.run Deferred.step p.abs js = some q.abs := by
  refine ⟨[.answer n], (Deferred.run_answer hn).trans ?_⟩
  have hwaiting : (p.abs.waiting.erase n : Multiset ℕ) = q.pending :=
    Multiset.coe_eq_coe.mpr hpending
  rw [hwaiting, abs, abs, hdispatched, hhanded, hfailed, List.map_append]
  rfl

theorem step_simulates (huring : ∀ n, (env n).uring) (p : Pipeline) (i : Input) (p' : Pipeline)
    (h : step env sameLoop p i = some p') :
    ∃ js, Run.run Deferred.step p.abs js = some p'.abs := by
  cases i with
  | deliver c =>
    rw [step] at h
    match hsession : p.session with
    | .error f => simp [hsession] at h
    | .ok s =>
      simp only [hsession, Option.some.injEq] at h
      subst h
      exact foldl_perform_simulates huring (s.deliver c).1 p
  | complete n result =>
    rw [step] at h
    match hfind : p.reads.find? (·.1 = n) with
    | none => simp [hfind] at h
    | some (m, read) =>
      obtain ⟨hmem, hpending⟩ := mem_pending_of_find hfind
      have herase := erase_pending (List.mem_map_of_mem hmem)
      simp only [hfind] at h
      cases result with
      | none =>
        cases h
        refine ⟨[.drop n], (Deferred.run_drop hpending).trans ?_⟩
        exact congrArg (fun w => some { p.abs with waiting := w, dropped := n ::ₘ p.failed })
          (congrArg _ herase.symm)
      | some content =>
        obtain ⟨data, closes, -, hfold⟩ := foldl_completed n read content
          { p with reads := p.reads.eraseP (·.1 = n) }
        simp only [hfold] at h
        split at h
        · cases h
          exact answer_simulates hpending (herase ▸ .refl _) rfl rfl rfl
        · cases h
          refine ⟨[], congrArg some ?_⟩
          have hmoved : p.pending.Perm (pending { p with
              reads := p.reads.eraseP (·.1 = n)
              functors := p.functors ++ [(n, read, content)] }) := by
            refine (List.perm_cons_erase hpending).trans ?_
            rw [← herase, pending, pending, List.map_append, ← List.append_assoc]
            exact (List.perm_append_singleton n _).symm
          rw [abs, abs, Multiset.coe_eq_coe.mpr hmoved]
  | runFunctor =>
    rw [step] at h
    match hfunctors : p.functors with
    | [] => simp [hfunctors] at h
    | (n, read, content) :: functors =>
      obtain ⟨data, closes, -, hfold⟩ := foldl_completed n read content { p with functors }
      simp only [hfunctors, hfold, Option.some.injEq] at h
      subst h
      have hpending : n ∈ p.pending := by
        rw [pending, hfunctors]
        exact List.mem_append_right _ List.mem_cons_self
      exact answer_simulates hpending (erase_pending_functor hfunctors) rfl rfl rfl

/-! ### Whose answer it is -/

/-- Request `i` is answered from a file. -/
def AsksFor (env : Nat → Env) (ds : List Dispatch) (i : Nat) (read : PendingRead) : Prop :=
  ∃ d, ds[i]? = some d ∧ .asyncRead read ∈ HttpServer.onRequest (env i) d.req

/-- `data` is a response to request `i`. -/
def Answers (env : Nat → Env) (ds : List Dispatch) (i : Nat) (data : Bytes) : Prop :=
  (∃ d, ds[i]? = some d ∧ .send data ∈ HttpServer.onRequest (env i) d.req) ∨
    ∃ read content, AsksFor env ds i read ∧ .send data ∈ read.completed (some content)

theorem getElem?_append_of_some {ds : List Dispatch} {i : Nat} {d : Dispatch}
    (h : ds[i]? = some d) (more : List Dispatch) : (ds ++ more)[i]? = some d := by
  rw [List.getElem?_append_left (List.getElem?_eq_some_iff.mp h).1, h]

theorem AsksFor.append {ds : List Dispatch} {i : Nat} (h : AsksFor env ds i read)
    (more : List Dispatch) : AsksFor env (ds ++ more) i read := by
  obtain ⟨d, hd, hread⟩ := h
  exact ⟨d, getElem?_append_of_some hd more, hread⟩

theorem Answers.append {ds : List Dispatch} {i : Nat} {data : Bytes} (h : Answers env ds i data)
    (more : List Dispatch) : Answers env (ds ++ more) i data := by
  rcases h with ⟨d, hd, hsend⟩ | ⟨read, content, hasks, hsend⟩
  · exact .inl ⟨d, getElem?_append_of_some hd more, hsend⟩
  · exact .inr ⟨read, content, hasks.append more, hsend⟩

/-- What is pending, and what has been handed on, goes back to the request it is kept with; and for
each failed read the connection has been told to shut down. -/
structure Recorded (env : Nat → Env) (p : Pipeline) : Prop where
  reads : ∀ x ∈ p.reads, AsksFor env p.dispatched x.1 x.2
  functors : ∀ x ∈ p.functors, AsksFor env p.dispatched x.1 x.2.1
  pendings : ∀ d ∈ p.dispatched, ∀ i ∈ d.pending, ∃ read, AsksFor env p.dispatched i read
  handed : ∀ x ∈ p.handed, Answers env p.dispatched x.1 x.2
  failed : ∀ i ∈ p.failed, i ∈ p.shutdowns

theorem Recorded.pending (h : Recorded env p) {i : Nat} (hi : i ∈ p.pending) :
    ∃ read, AsksFor env p.dispatched i read := by
  rcases List.mem_append.mp hi with hi | hi
  · obtain ⟨x, hx, rfl⟩ := List.mem_map.mp hi
    exact ⟨_, h.reads x hx⟩
  · obtain ⟨x, hx, rfl⟩ := List.mem_map.mp hi
    exact ⟨_, h.functors x hx⟩

theorem Recorded.dispatch (h : Recorded env p) (req : HttpRequest) :
    Recorded env (p.dispatch env req) := by
  rw [Pipeline.dispatch, foldl_carryOut]
  have hlast : (p.dispatched ++ [⟨req, p.pending⟩])[p.dispatched.length]? =
      some ⟨req, p.pending⟩ := List.getElem?_concat_length
  refine ⟨fun x hx => ?_, fun x hx => (h.functors x hx).append _, fun d hd i hi => ?_,
    fun x hx => ?_, fun i hi => List.mem_append_left _ (h.failed i hi)⟩
  · rcases List.mem_append.mp hx with hx | hx
    · exact (h.reads x hx).append _
    · obtain ⟨read, hread, rfl⟩ := List.mem_map.mp hx
      exact ⟨_, hlast, mem_asyncReads.mp hread⟩
  · have hasks : ∃ read, AsksFor env p.dispatched i read := by
      rcases List.mem_append.mp hd with hd | hd
      · exact h.pendings d hd i hi
      · cases List.mem_singleton.mp hd
        exact h.pending hi
    obtain ⟨read, hread⟩ := hasks
    exact ⟨read, hread.append _⟩
  · rcases List.mem_append.mp hx with hx | hx
    · exact (h.handed x hx).append _
    · obtain ⟨data, hdata, rfl⟩ := List.mem_map.mp hx
      exact .inl ⟨_, hlast, mem_sends.mp hdata⟩

theorem Recorded.foldl_perform (h : Recorded env p) (as : List Action) :
    Recorded env (as.foldl (perform env) p) := by
  induction as generalizing p with
  | nil => exact h
  | cons a as ih =>
    cases a with
    | badRequest => exact ih h
    | request req => exact ih (h.dispatch req)

/-- A response read from a file is handed on. -/
theorem Recorded.hand (h : Recorded env p) {data content : Bytes} {closes : List Nat}
    (hasks : AsksFor env p.dispatched n read) (hdata : .send data ∈ read.completed (some content)) :
    Recorded env
      { p with handed := p.handed ++ [(n, data)], shutdowns := p.shutdowns ++ closes } := by
  refine ⟨h.reads, h.functors, h.pendings, fun x hx => ?_,
    fun i hi => List.mem_append_left _ (h.failed i hi)⟩
  rcases List.mem_append.mp hx with hx | hx
  · exact h.handed x hx
  · cases List.mem_singleton.mp hx
    exact .inr ⟨read, content, hasks, hdata⟩

theorem Recorded.step {i : Input} (h : Recorded env p)
    (hs : Pipeline.step env sameLoop p i = some p') : Recorded env p' := by
  cases i with
  | deliver c =>
    rw [Pipeline.step] at hs
    match hsession : p.session with
    | .error f => simp [hsession] at hs
    | .ok s =>
      simp only [hsession, Option.some.injEq] at hs
      subst hs
      obtain ⟨hreads, hfunctors, hpendings, hhanded, hfailed⟩ := h.foldl_perform (s.deliver c).1
      exact ⟨hreads, hfunctors, hpendings, hhanded, hfailed⟩
  | complete n result =>
    rw [Pipeline.step] at hs
    match hfind : p.reads.find? (·.1 = n) with
    | none => simp [hfind] at hs
    | some (m, read) =>
      have hasks := h.reads _ (mem_pending_of_find hfind).1
      have herased : Recorded env { p with reads := p.reads.eraseP (·.1 = n) } :=
        ⟨fun x hx => h.reads x (List.mem_of_mem_eraseP hx), h.functors, h.pendings, h.handed,
          h.failed⟩
      simp only [hfind] at hs
      cases result with
      | none =>
        cases hs
        refine ⟨herased.reads, h.functors, h.pendings, h.handed, fun i hi => ?_⟩
        obtain rfl | hi := List.mem_cons.mp hi
        · exact List.mem_append_right _ (List.mem_singleton_self i)
        · exact List.mem_append_left _ (h.failed i hi)
      | some content =>
        obtain ⟨data, closes, hdata, hfold⟩ := foldl_completed n read content
          { p with reads := p.reads.eraseP (·.1 = n) }
        simp only [hfold] at hs
        split at hs
        · cases hs
          exact herased.hand hasks hdata
        · cases hs
          refine ⟨herased.reads, fun x hx => ?_, h.pendings, h.handed, h.failed⟩
          rcases List.mem_append.mp hx with hx | hx
          · exact h.functors x hx
          · cases List.mem_singleton.mp hx
            exact hasks
  | runFunctor =>
    rw [Pipeline.step] at hs
    match hfunctors : p.functors with
    | [] => simp [hfunctors] at hs
    | (n, read, content) :: functors =>
      obtain ⟨data, closes, hdata, hfold⟩ := foldl_completed n read content { p with functors }
      simp only [hfunctors, hfold, Option.some.injEq] at hs
      subst hs
      have hasks := h.functors _ (hfunctors ▸ List.mem_cons_self)
      have hpopped : Recorded env { p with functors } :=
        ⟨h.reads, fun x hx => h.functors x (hfunctors ▸ List.mem_cons_of_mem _ hx), h.pendings,
          h.handed, h.failed⟩
      exact hpopped.hand hasks hdata

theorem recorded_of_run {is : List Input}
    (h : Run.run (Pipeline.step env sameLoop) new is = some p) : Recorded env p :=
  Run.run_invariant' (fun _ _ _ hrec hs => hrec.step hs)
    ⟨fun _ hx => (List.not_mem_nil hx).elim, fun _ hx => (List.not_mem_nil hx).elim,
      fun _ hd => (List.not_mem_nil hd).elim, fun _ hx => (List.not_mem_nil hx).elim,
      fun _ hi => (List.not_mem_nil hi).elim⟩ h

/-- **The answers on one connection.** Every dispatched request has had its one response, or its
read has failed and the connection has been told to shut down, or it is pending; each response is one
to its request; and a response goes before that of an earlier request only when the earlier one is
read from a file and was pending when the later request was dispatched. -/
theorem answers (env : Nat → Env) (huring : ∀ n, (env n).uring) (sameLoop : Bool)
    (is : List Input) (p : Pipeline)
    (h : Run.run (Pipeline.step env sameLoop) new is = some p) :
    (p.handed.map Prod.fst ++ p.failed ++ p.pending).Perm (List.range p.dispatched.length) ∧
      (∀ i ∈ p.failed, i ∈ p.shutdowns) ∧
      (∀ x ∈ p.handed, Answers env p.dispatched x.1 x.2) ∧
      p.handed.Pairwise fun x y => y.1 < x.1 →
        (∃ d, p.dispatched[x.1]? = some d ∧ y.1 ∈ d.pending) ∧
          ∃ read, AsksFor env p.dispatched y.1 read := by
  obtain ⟨js, hjs⟩ := Run.run_simulates (step_simulates huring) h
  have hinv := Deferred.inv_of_run hjs
  have hrec := recorded_of_run h
  refine ⟨?_, hrec.failed, hrec.handed, ?_⟩
  · rw [← Multiset.coe_eq_coe, ← Multiset.coe_add, ← Multiset.coe_add]
    exact hinv.accounted.trans (by rw [abs, List.length_map]; rfl)
  · refine (List.pairwise_map.mp hinv.ordered).imp fun {x y} hwaited hlt => ?_
    obtain ⟨w, hw, hmem⟩ := hwaited hlt
    rw [abs, List.getElem?_map, Option.map_eq_some_iff] at hw
    obtain ⟨d, hd, rfl⟩ := hw
    exact ⟨⟨d, hd, hmem⟩, hrec.pendings d (List.mem_of_getElem? hd) y.1 hmem⟩

/-- A server with one file, whose callback answers the requests for `/api` only. -/
def fileAndApi : Env where
  webRoot := ascii "./www"
  httpCallback := some fun req response =>
    if req.path = ascii "/api" then response.setStatusCode k200Ok else response
  fs := .oneFile (ascii "./www/a.html") (by decide) (by decide)
  uring := true

/-- Two pipelined requests, the first one for the file, whose read completes afterwards. -/
def fileThenApi : List Input :=
  [.deliver ⟨ascii "GET /a.html HTTP/1.1\r\nA: b\r\n\r\nGET /api HTTP/1.1\r\nA: b\r\n\r\n", 0⟩,
    .complete 0 (some (ascii "abc"))]

/-- The response to the second request goes first. -/
theorem handed_out_of_order :
    (Run.run (Pipeline.step (fun _ => fileAndApi) true) new fileThenApi).map
      (fun p => p.handed.map Prod.fst) = some [1, 0] := by
  decide +kernel

theorem answers_fileThenApi :
    ∃ p, Run.run (Pipeline.step (fun _ => fileAndApi) true) new fileThenApi = some p ∧
      (p.handed.map Prod.fst ++ p.failed ++ p.pending).Perm (List.range p.dispatched.length) := by
  have hrun : (Run.run (Pipeline.step (fun _ => fileAndApi) true) new fileThenApi).isSome := by
    decide +kernel
  obtain ⟨p, hp⟩ := Option.isSome_iff_exists.mp hrun
  exact ⟨p, hp, (answers (fun _ => fileAndApi) (fun _ => rfl) true fileThenApi p hp).1⟩

end Pipeline
end MuduoX
