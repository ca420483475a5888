import MuduoX.Log.FixedBuffer
import MuduoX.Theory.Run

/-! `AsyncLogging` (`include/AsyncLogging.h`, `log/AsyncLogging.cpp`).

A step is a call of `start`, `stop` or `append` by any thread, or a step of `threadFunc`: the test
of `running_`, the locked region up to the wait or to its end, the region behind the wait, one
`output.append`, and the recycling of the buffers. What `mutex_` protects is one step, as no other
thread can see the middle of it; a wait releases it, so anything may happen before the next step.

A `unique_ptr` is null after it has been moved from. Following a null pointer, or taking the last
element of an empty vector, ends the run in a fault. -/

namespace MuduoX

abbrev LargeBuffer := FixedBuffer kLargeBuffer

/-- `std::unique_ptr<LargeBuffer>`. -/
abbrev BufferPtr := Option LargeBuffer

def BufferPtr.content (p : BufferPtr) : Bytes := (p.map FixedBuffer.data).getD []

/-- The bytes of a vector of buffers. -/
def contents (ps : List BufferPtr) : Bytes := ps.flatMap BufferPtr.content

/-- Where `threadFunc` is. -/
inductive LogThread where
  | notStarted
  /-- before `while(running_)` -/
  | test
  /-- in the loop, before the locked region -/
  | lock
  /-- in `cond_.wait_for` -/
  | wait
  /-- in the loop over `buffersToWrite` -/
  | write
  /-- behind that loop -/
  | recycle
  | returned
  deriving DecidableEq

structure AsyncLogging where
  running : Bool
  currentBuffer : BufferPtr
  nextBuffer : BufferPtr
  buffers : List BufferPtr
  /-- The locals of `threadFunc`; `written` counts the rounds of its inner loop. -/
  thread : LogThread
  newBuffer1 : BufferPtr
  newBuffer2 : BufferPtr
  buffersToWrite : List BufferPtr
  written : Nat
  /-- ghost: what has been passed to `LogFile::append` -/
  output : Bytes

namespace AsyncLogging

def newBuffer : BufferPtr := some (.new kLargeBuffer)

def new : AsyncLogging where
  running := false
  currentBuffer := newBuffer
  nextBuffer := newBuffer
  buffers := []
  thread := .notStarted
  newBuffer1 := none
  newBuffer2 := none
  buffersToWrite := []
  written := 0
  output := []

/-- `p->append(logline, len)`. -/
def appendTo (p : BufferPtr) (logline : Bytes) : Except Fault BufferPtr :=
  match p with
  | none => .error .nullPointer
  | some b => .ok (some (b.append logline))

def append (logline : Bytes) (s : AsyncLogging) : Except Fault AsyncLogging :=
  match s.currentBuffer with
  | none => .error .nullPointer
  | some current =>
    if current.avail > logline.length then
      .ok { s with currentBuffer := some (current.append logline) }
    else
      let next := if s.nextBuffer.isSome then s.nextBuffer else newBuffer
      (appendTo next logline).map fun p =>
        { s with buffers := s.buffers ++ [s.currentBuffer], currentBuffer := p, nextBuffer := none }

def start (s : AsyncLogging) : AsyncLogging :=
  { s with
    running := true
    thread := .test
    newBuffer1 := newBuffer
    newBuffer2 := newBuffer }

def stop (s : AsyncLogging) : AsyncLogging := { s with running := false }

/-- The locked region behind the wait. -/
def swap (s : AsyncLogging) : AsyncLogging :=
  let full := s.buffers ++ [s.currentBuffer]
  { s with
    currentBuffer := s.newBuffer1
    newBuffer1 := none
    nextBuffer := if s.nextBuffer.isNone then s.newBuffer2 else s.nextBuffer
    newBuffer2 := if s.nextBuffer.isNone then none else s.newBuffer2
    buffersToWrite := full
    buffers := s.buffersToWrite
    written := 0
    thread := .write }

/-- `p = std::move(buffers.back()); buffers.pop_back(); p->reset()`, when `p` is null. -/
def reuse (p : BufferPtr) (buffers : List BufferPtr) : Except Fault (BufferPtr × List BufferPtr) :=
  match p with
  | some b => .ok (some b, buffers)
  | none =>
    match buffers.getLast? with
    | none => .error .outOfBounds
    | some none => .error .nullPointer
    | some (some b) => .ok (some b.reset, buffers.dropLast)

def recycle (s : AsyncLogging) : Except Fault AsyncLogging :=
  let buffersToWrite :=
    if s.buffersToWrite.length > 2 then s.buffersToWrite.take 2 else s.buffersToWrite
  (reuse s.newBuffer1 buffersToWrite).bind fun r₁ =>
  (reuse s.newBuffer2 r₁.2).map fun r₂ =>
    { s with
      newBuffer1 := r₁.1
      newBuffer2 := r₂.1
      buffersToWrite := []
      written := 0
      thread := .test }

/-- One step of `threadFunc`. -/
def threadFunc (s : AsyncLogging) : Option (Except Fault AsyncLogging) :=
  match s.thread with
  | .notStarted | .returned => none
  | .test => some (.ok { s with thread := if s.running then .lock else .returned })
  | .lock => some (.ok (if s.buffers.isEmpty then { s with thread := .wait } else s.swap))
  | .wait => some (.ok s.swap)
  | .write =>
    match s.buffersToWrite[s.written]? with
    | none => some (.ok { s with thread := .recycle })
    | some none => some (.error .nullPointer)
    | some (some b) =>
      some (.ok { s with output := s.output ++ b.data, written := s.written + 1 })
  | .recycle => some s.recycle

end AsyncLogging

inductive LogInput where
  | start
  | append (logline : Bytes)
  | stop
  | threadFunc
  deriving DecidableEq

namespace LogInput

/-- What a step appends. -/
def bytes : LogInput → Bytes
  | .append logline => logline
  | _ => []

def Short (i : LogInput) : Prop := i.bytes.length < kLargeBuffer

instance (i : LogInput) : Decidable i.Short := inferInstanceAs (Decidable (_ < _))

/-- What the buffers take of it: a line that is too long for any of them is dropped. -/
def kept (i : LogInput) : Bytes := if i.Short then i.bytes else []

theorem Short.kept_eq {i : LogInput} (h : i.Short) : i.kept = i.bytes := if_pos h

theorem length_kept_le (i : LogInput) : i.kept.length ≤ i.bytes.length := by
  rw [kept]
  split
  · exact le_refl _
  · exact Nat.zero_le _

end LogInput

namespace AsyncLogging

def step : Except Fault AsyncLogging → LogInput → Option (Except Fault AsyncLogging)
  | .error _, _ => none
  | .ok s, .start => if s.thread = .notStarted then some (.ok s.start) else none
  | .ok s, .append logline => some (s.append logline)
  | .ok s, .stop => some (.ok s.stop)
  | .ok s, .threadFunc => s.threadFunc

/-! ### What is where -/

/-- The bytes of `buffersToWrite` that are still to be written. -/
def toWrite (s : AsyncLogging) : Bytes := contents (s.buffersToWrite.drop s.written)

/-- The bytes on the side of the front end. -/
def buffered (s : AsyncLogging) : Bytes := contents s.buffers ++ s.currentBuffer.content

def content (s : AsyncLogging) : Bytes := s.output ++ s.toWrite ++ s.buffered

@[simp] theorem contents_nil : contents [] = [] := rfl

@[simp] theorem contents_append (ps qs : List BufferPtr) :
    contents (ps ++ qs) = contents ps ++ contents qs := List.flatMap_append ..

@[simp] theorem contents_cons (p : BufferPtr) (ps : List BufferPtr) :
    contents (p :: ps) = p.content ++ contents ps := rfl

/-- A pointer to a buffer with nothing in it. -/
def Empty (p : BufferPtr) : Prop := ∃ b : LargeBuffer, p = some b ∧ b.data = []

theorem empty_newBuffer : Empty newBuffer := ⟨_, rfl, rfl⟩

theorem Empty.appendTo {p : BufferPtr} (h : Empty p) (logline : Bytes) :
    ∃ b : LargeBuffer, AsyncLogging.appendTo p logline = .ok (some b) ∧
      b.data = (LogInput.append logline).kept := by
  obtain ⟨b, rfl, hb⟩ := h
  refine ⟨b.append logline, rfl, ?_⟩
  have havail : b.avail = kLargeBuffer := FixedBuffer.avail_of_data hb
  rw [LogInput.kept]
  split
  · rename_i hshort
    rw [FixedBuffer.data_append (by rw [havail]; exact hshort), hb]
    rfl
  · rename_i hlong
    rw [FixedBuffer.append_of_le (by rw [havail]; exact not_lt.mp hlong), hb]

/-- What the six roles of a buffer hold. The front end has a current buffer, and has used up its
spare one only by filling a buffer since the last swap; that is why `threadFunc` finds a buffer to
reuse for each spare one that it has given away. -/
structure Inv (s : AsyncLogging) : Prop where
  current : s.currentBuffer.isSome
  next : ∀ b, s.nextBuffer = some b → b.data = []
  next_none : s.nextBuffer = none → s.buffers ≠ []
  buffers_some : ∀ p ∈ s.buffers, p.isSome
  toWrite_some : ∀ p ∈ s.buffersToWrite, p.isSome
  looping : s.thread = .test ∨ s.thread = .lock ∨ s.thread = .wait →
    Empty s.newBuffer1 ∧ Empty s.newBuffer2
  writing : s.thread = .write ∨ s.thread = .recycle → s.newBuffer1 = none ∧
    s.buffersToWrite ≠ [] ∧
      (Empty s.newBuffer2 ∨ s.newBuffer2 = none ∧ 2 ≤ s.buffersToWrite.length)
  idle : s.thread ≠ .write → s.thread ≠ .recycle → s.buffersToWrite = []
  written : s.thread = .recycle → s.buffersToWrite.length ≤ s.written

theorem inv_new : Inv new where
  current := rfl
  next := by
    rintro b hb
    cases hb
    rfl
  next_none := nofun
  buffers_some := nofun
  toWrite_some := nofun
  looping := by rintro (h | h | h) <;> cases h
  writing := by rintro (h | h) <;> cases h
  idle _ _ := rfl
  written := nofun

variable {s s' : AsyncLogging} {logline : Bytes}

/-! ### The steps -/

/-- `append` puts what it takes of the line behind everything else. -/
theorem Inv.append (h : Inv s) (logline : Bytes) : ∃ s', s.append logline = .ok s' ∧ Inv s' ∧
    s'.content = s.content ++ (LogInput.append logline).kept := by
  obtain ⟨current, hcurrent⟩ := Option.isSome_iff_exists.mp h.current
  rw [AsyncLogging.append, hcurrent]
  simp only
  split
  · rename_i havail
    refine ⟨_, rfl, ⟨rfl, h.next, h.next_none, h.buffers_some, h.toWrite_some, h.looping,
      h.writing, h.idle, h.written⟩, ?_⟩
    have hshort : (LogInput.append logline).Short :=
      lt_of_lt_of_le havail (Nat.sub_le kLargeBuffer current.length)
    simp only [content, buffered, toWrite, hcurrent, BufferPtr.content, Option.map_some,
      Option.getD_some, FixedBuffer.data_append havail, hshort.kept_eq, LogInput.bytes,
      List.append_assoc]
  · have hnext : Empty (if s.nextBuffer.isSome then s.nextBuffer else newBuffer) := by
      split
      · rename_i hsome
        obtain ⟨b, hb⟩ := Option.isSome_iff_exists.mp hsome
        exact ⟨b, hb, h.next b hb⟩
      · exact empty_newBuffer
    obtain ⟨b, hb, hdata⟩ := hnext.appendTo logline
    rw [hb]
    refine ⟨_, rfl, ⟨rfl, (by rintro _ ⟨⟩), fun _ =>
      List.append_ne_nil_of_right_ne_nil _ (List.cons_ne_nil _ _), ?_, h.toWrite_some, h.looping,
      h.writing, h.idle, h.written⟩, ?_⟩
    · exact List.forall_mem_append.mpr ⟨h.buffers_some, by simp⟩
    · simp only [content, buffered, toWrite, hcurrent, BufferPtr.content, Option.map_some,
        Option.getD_some, hdata, contents_append, contents_cons, contents_nil,
        List.append_nil, List.append_assoc]

theorem Inv.swap (h : Inv s) (hthread : s.thread = .lock ∨ s.thread = .wait) :
    Inv s.swap ∧ s.swap.buffered = [] ∧ s.swap.output ++ s.swap.toWrite = s.content := by
  obtain ⟨h₁, h₂⟩ := h.looping (.inr hthread)
  have hnil : s.buffersToWrite = [] := h.idle
    (by rintro heq; rw [heq] at hthread; rcases hthread with h | h <;> cases h)
    (by rintro heq; rw [heq] at hthread; rcases hthread with h | h <;> cases h)
  obtain ⟨b₁, hb₁, hd₁⟩ := h₁
  obtain ⟨b₂, hb₂, hd₂⟩ := h₂
  refine ⟨⟨?_, fun b hb => ?_, fun hnone => ?_, ?_, ?_, ?_, fun _ => ⟨rfl, ?_, ?_⟩, ?_, nofun⟩,
    ?_, ?_⟩
  · simp only [AsyncLogging.swap, hb₁, Option.isSome_some]
  · simp only [AsyncLogging.swap] at hb
    split at hb
    · cases hb₂.symm.trans hb
      exact hd₂
    · exact h.next b hb
  · simp only [AsyncLogging.swap] at hnone
    split at hnone
    · cases hb₂.symm.trans hnone
    · rename_i hsome
      rw [hnone] at hsome
      exact absurd rfl hsome
  · simp only [AsyncLogging.swap, hnil]
    nofun
  · exact List.forall_mem_append.mpr ⟨h.buffers_some, by simpa using h.current⟩
  · rintro (h | h | h) <;> cases h
  · exact List.append_ne_nil_of_right_ne_nil _ (List.cons_ne_nil _ _)
  · simp only [AsyncLogging.swap]
    split
    · rename_i hnone
      refine .inr ⟨rfl, ?_⟩
      have := List.length_pos_iff.mpr (h.next_none (Option.isNone_iff_eq_none.mp hnone))
      rw [List.length_append, List.length_singleton]
      omega
    · exact .inl ⟨b₂, hb₂, hd₂⟩
  · exact fun hne _ => absurd rfl hne
  · simp only [AsyncLogging.swap, buffered, hnil, hb₁, contents_nil, BufferPtr.content,
      Option.map_some, Option.getD_some, hd₁, List.append_nil]
  · simp only [AsyncLogging.swap, content, buffered, toWrite, hnil, List.drop_zero, List.drop_nil,
      contents_nil, contents_append, contents_cons, List.append_nil]

/-- `buffersToWrite` after the resizing. -/
def resized (s : AsyncLogging) : List BufferPtr :=
  if s.buffersToWrite.length > 2 then s.buffersToWrite.take 2 else s.buffersToWrite

theorem getLast?_of_isSome {buffers : List BufferPtr} (hne : buffers ≠ [])
    (hsome : ∀ p ∈ buffers, p.isSome) : ∃ b, buffers.getLast? = some (some b) := by
  obtain ⟨b, hb⟩ := Option.isSome_iff_exists.mp (hsome _ (List.getLast_mem hne))
  exact ⟨b, by rw [List.getLast?_eq_some_getLast hne, hb]⟩

theorem Inv.resized_isSome (h : Inv s) : ∀ p ∈ s.resized, p.isSome := by
  rw [resized]
  split
  · exact fun p hp => h.toWrite_some p (List.mem_of_mem_take hp)
  · exact h.toWrite_some

theorem length_resized (s : AsyncLogging) :
    s.resized.length = min 2 s.buffersToWrite.length := by
  rw [resized]
  split
  · exact List.length_take ..
  · omega

/-- Reusing the last buffer leaves an empty one. -/
theorem reuse_none {buffers : List BufferPtr} (hne : buffers ≠ [])
    (hsome : ∀ p ∈ buffers, p.isSome) :
    ∃ p, reuse none buffers = .ok (p, buffers.dropLast) ∧ Empty p := by
  obtain ⟨b, hb⟩ := getLast?_of_isSome hne hsome
  rw [reuse, hb]
  exact ⟨_, rfl, b.reset, rfl, rfl⟩

/-- There is a buffer for every spare one that has been given away. -/
theorem Inv.recycle (h : Inv s) (hthread : s.thread = .recycle) :
    ∃ s', s.recycle = .ok s' ∧ Inv s' ∧ s'.thread = .test ∧ s'.output = s.output ∧
      s'.toWrite = s.toWrite ∧ s'.buffered = s.buffered ∧ s'.running = s.running := by
  obtain ⟨h₁, hne, h₂⟩ := h.writing (.inr hthread)
  have hwritten : s.toWrite = [] := by
    rw [AsyncLogging.toWrite, List.drop_eq_nil_of_le (h.written hthread)]
    rfl
  have hkeep {p₁ p₂ : BufferPtr} (hp₁ : Empty p₁) (hp₂ : Empty p₂) : Inv { s with
      newBuffer1 := p₁, newBuffer2 := p₂, buffersToWrite := [], written := 0, thread := .test } :=
    ⟨h.current, h.next, h.next_none, h.buffers_some, nofun, fun _ => ⟨hp₁, hp₂⟩,
      (by rintro (h | h) <;> cases h), fun _ _ => rfl, nofun⟩
  have hlength := length_resized s
  have hpos := List.length_pos_iff.mpr hne
  obtain ⟨p₁, hr₁, hp₁⟩ := reuse_none (List.length_pos_iff.mp (by omega)) h.resized_isSome
  rw [AsyncLogging.recycle, h₁]
  change ∃ s', Except.bind (reuse none s.resized) _ = .ok s' ∧ _
  rw [hr₁]
  obtain h₂ | ⟨h₂, hlen⟩ := h₂
  · obtain ⟨b, hb, hdata⟩ := h₂
    rw [hb]
    exact ⟨_, rfl, hkeep hp₁ ⟨b, rfl, hdata⟩, rfl, rfl, hwritten.symm, rfl, rfl⟩
  · have hne₂ : s.resized.dropLast ≠ [] :=
      List.length_pos_iff.mp (by rw [List.length_dropLast]; omega)
    obtain ⟨p₂, hr₂, hp₂⟩ := reuse_none hne₂ fun p hp =>
      h.resized_isSome p (List.mem_of_mem_dropLast hp)
    rw [h₂]
    simp only [Except.bind, hr₂]
    exact ⟨_, rfl, hkeep hp₁ hp₂, rfl, rfl, hwritten.symm, rfl, rfl⟩

/-- The steps of `threadFunc` move bytes from the front end to the file, and nothing else. -/
theorem Inv.threadFunc {r : Except Fault AsyncLogging} (h : Inv s) (hs : s.threadFunc = some r) :
    ∃ s', r = .ok s' ∧ Inv s' ∧ s'.content = s.content := by
  rw [AsyncLogging.threadFunc] at hs
  split at hs
  · cases hs
  · cases hs
  · -- the test of `running_`
    rename_i hthread
    cases hs
    have hnil := h.idle (by rw [hthread]; nofun) (by rw [hthread]; nofun)
    refine ⟨_, rfl, ⟨h.current, h.next, h.next_none, h.buffers_some, h.toWrite_some,
      fun _ => h.looping (.inl hthread), ?_, fun _ _ => hnil, ?_⟩, rfl⟩
    · simp only
      split <;> rintro (h | h) <;> cases h
    · simp only
      split <;> nofun
  · rename_i hthread
    cases hs
    refine ⟨_, rfl, ?_⟩
    split
    · have hnil := h.idle (by rw [hthread]; nofun) (by rw [hthread]; nofun)
      exact ⟨⟨h.current, h.next, h.next_none, h.buffers_some, h.toWrite_some,
        fun _ => h.looping (.inr (.inl hthread)), (by rintro (h | h) <;> cases h),
        fun _ _ => hnil, nofun⟩, rfl⟩
    · obtain ⟨hinv, hbuffered, hcontent⟩ := h.swap (.inl hthread)
      exact ⟨hinv, by rw [content, hbuffered, List.append_nil, hcontent]⟩
  · rename_i hthread
    cases hs
    obtain ⟨hinv, hbuffered, hcontent⟩ := h.swap (.inr hthread)
    exact ⟨_, rfl, hinv, by rw [content, hbuffered, List.append_nil, hcontent]⟩
  · rename_i hthread
    split at hs
    · rename_i hnone
      cases hs
      refine ⟨_, rfl, ⟨h.current, h.next, h.next_none, h.buffers_some, h.toWrite_some, ?_,
        fun _ => h.writing (.inl hthread), fun _ hne => absurd rfl hne, fun _ => ?_⟩, rfl⟩
      · rintro (h | h | h) <;> cases h
      · exact List.getElem?_eq_none_iff.mp hnone
    · rename_i hnull
      have := h.toWrite_some _ (List.mem_of_getElem? hnull)
      cases this
    · rename_i b hb
      cases hs
      refine ⟨_, rfl, ⟨h.current, h.next, h.next_none, h.buffers_some, h.toWrite_some, h.looping,
        h.writing, h.idle, fun hrecycle => ?_⟩, ?_⟩
      · rw [hthread] at hrecycle
        cases hrecycle
      · obtain ⟨hlt, hb⟩ := List.getElem?_eq_some_iff.mp hb
        simp only [content, toWrite, List.drop_eq_getElem_cons hlt, hb, contents_cons,
          BufferPtr.content, Option.map_some, Option.getD_some, List.append_assoc]
        rfl
  · rename_i hthread
    cases hs
    obtain ⟨s', hs', hinv, -, houtput, hto, hbuffered, -⟩ := h.recycle hthread
    exact ⟨s', hs', hinv, by rw [content, houtput, hto, hbuffered, content]⟩

theorem Inv.step {i : LogInput} {r : Except Fault AsyncLogging} (h : Inv s)
    (hs : step (.ok s) i = some r) :
    ∃ s', r = .ok s' ∧ Inv s' ∧ s'.content = s.content ++ i.kept := by
  cases i with
  | start =>
    obtain ⟨hthread, hs⟩ := Option.ite_none_right_eq_some.mp hs
    cases hs
    have hnil := h.idle (by rw [hthread]; nofun) (by rw [hthread]; nofun)
    refine ⟨_, rfl, ⟨h.current, h.next, h.next_none, h.buffers_some, h.toWrite_some,
      fun _ => ⟨empty_newBuffer, empty_newBuffer⟩, ?_, fun _ _ => hnil, nofun⟩,
      (List.append_nil _).symm⟩
    rintro (h | h) <;> cases h
  | append logline =>
    obtain ⟨s', hs', hinv, hcontent⟩ := h.append logline
    cases hs
    exact ⟨s', hs', hinv, hcontent⟩
  | stop =>
    cases hs
    exact ⟨_, rfl, ⟨h.current, h.next, h.next_none, h.buffers_some, h.toWrite_some, h.looping,
      h.writing, h.idle, h.written⟩, (List.append_nil _).symm⟩
  | threadFunc =>
    obtain ⟨s', rfl, hinv, hcontent⟩ := h.threadFunc hs
    exact ⟨s', rfl, hinv, hcontent.trans (List.append_nil _).symm⟩

/-- The lines of a run, one after the other. -/
def appended (is : List LogInput) : Bytes := is.flatMap LogInput.bytes

theorem appended_eq {is : List LogInput} (his : ∀ i ∈ is, i.Short) :
    is.flatMap LogInput.kept = appended is := by
  rw [appended, List.flatMap_def, List.flatMap_def, List.map_congr_left fun i hi => (his i hi).kept_eq]

theorem Inv.run {is : List LogInput} {r : Except Fault AsyncLogging} (h : Inv s)
    (hr : Run.run AsyncLogging.step (.ok s) is = some r) :
    ∃ s', r = .ok s' ∧ Inv s' ∧ s'.content = s.content ++ is.flatMap LogInput.kept := by
  induction is generalizing s with
  | nil =>
    cases hr
    exact ⟨s, rfl, h, (List.append_nil _).symm⟩
  | cons i is ih =>
    obtain ⟨r₁, h₁, hr⟩ := Run.run_cons.mp hr
    obtain ⟨s₁, rfl, hinv, hcontent⟩ := h.step h₁
    obtain ⟨s', rfl, hinv', hcontent'⟩ := ih hinv hr
    refine ⟨s', rfl, hinv', ?_⟩
    rw [hcontent', hcontent, List.append_assoc, List.flatMap_cons]

/-- **No byte is lost, duplicated or reordered.** In every run no step faults, and what has been
passed to the file, followed by what is on its way and by what the front end holds, is what the
lines appended so far are. -/
theorem conserved (is : List LogInput) (his : ∀ i ∈ is, i.Short) (r : Except Fault AsyncLogging)
    (hr : Run.run step (.ok new) is = some r) :
    ∃ s, r = .ok s ∧
      s.output ++ contents (s.buffersToWrite.drop s.written) ++ contents s.buffers ++
        s.currentBuffer.content = appended is := by
  obtain ⟨s, rfl, -, hcontent⟩ := inv_new.run hr
  refine ⟨s, rfl, ?_⟩
  rw [List.append_assoc, ← appended_eq his]
  exact hcontent

/-- A line on its way to the file, and one behind it. -/
theorem conserved_two : ∃ s, Run.run step (.ok new) [.append (ascii "a"), .start, .threadFunc,
      .threadFunc, .threadFunc, .append (ascii "b")] = some (.ok s) ∧
    s.output ++ contents (s.buffersToWrite.drop s.written) ++ contents s.buffers ++
      s.currentBuffer.content = ascii "ab" := by
  obtain ⟨s, hs, hcontent⟩ := conserved [.append (ascii "a"), .start, .threadFunc, .threadFunc,
    .threadFunc, .append (ascii "b")] (by decide) _ rfl
  exact ⟨s, congrArg some hs, hcontent⟩

/-! ### The pool of buffers -/

/-- There is a buffer wherever the front end and `threadFunc` take one. -/
structure Pooled (s : AsyncLogging) : Prop where
  current : s.currentBuffer.isSome
  next : s.nextBuffer = none → s.buffers ≠ []
  /-- at the start of an iteration, and up to the swap -/
  spare : s.thread = .test ∨ s.thread = .lock ∨ s.thread = .wait →
    Empty s.newBuffer1 ∧ Empty s.newBuffer2
  /-- what `buffersToWrite.back()` gives for `newBuffer1` -/
  back : s.thread = .recycle → s.newBuffer1 = none ∧ ∃ b, s.resized.getLast? = some (some b)
  /-- and then for `newBuffer2` -/
  back₂ : s.thread = .recycle → s.newBuffer2 = none →
    ∃ b, s.resized.dropLast.getLast? = some (some b)

theorem Inv.pooled (h : Inv s) : Pooled s where
  current := h.current
  next := h.next_none
  spare := h.looping
  back hthread := by
    obtain ⟨h₁, hne, -⟩ := h.writing (.inr hthread)
    have hpos := List.length_pos_iff.mpr hne
    have hlength := length_resized s
    exact ⟨h₁, getLast?_of_isSome (List.length_pos_iff.mp (by omega)) h.resized_isSome⟩
  back₂ hthread hnone := by
    obtain ⟨-, -, ⟨b, hb, -⟩ | ⟨-, hlen⟩⟩ := h.writing (.inr hthread)
    · rw [hnone] at hb
      cases hb
    · have hlength := length_resized s
      refine getLast?_of_isSome (List.length_pos_iff.mp ?_) fun p hp =>
        h.resized_isSome p (List.mem_of_mem_dropLast hp)
      rw [List.length_dropLast]
      omega

/-- **The pool never runs dry.** In every run, whatever the lengths of the lines, no step faults
and a buffer is there wherever one is taken. -/
theorem pooled_of_run (is : List LogInput) (r : Except Fault AsyncLogging)
    (hr : Run.run step (.ok new) is = some r) : ∃ s, r = .ok s ∧ Pooled s := by
  obtain ⟨s, rfl, hinv⟩ := Run.run_invariant' (I := fun r => ∃ s, r = .ok s ∧ Inv s)
    (fun _ _ _ ⟨s, hs, hinv⟩ h => by
      subst hs
      obtain ⟨s', hs', hinv', -⟩ := hinv.step h
      exact ⟨s', hs', hinv'⟩) ⟨new, rfl, inv_new⟩ hr
  exact ⟨s, rfl, hinv.pooled⟩

/-- A round of `threadFunc` up to the recycling. -/
theorem pooled_of_run_round : ∃ s, Run.run step (.ok new) [.append (ascii "a"), .start, .threadFunc,
      .threadFunc, .threadFunc, .threadFunc, .threadFunc] = some (.ok s) ∧ s.thread = .recycle ∧
    Pooled s := by
  obtain ⟨s, hs, hpooled⟩ := pooled_of_run [.append (ascii "a"), .start, .threadFunc, .threadFunc,
    .threadFunc, .threadFunc, .threadFunc] _ rfl
  cases hs
  exact ⟨_, rfl, rfl, hpooled⟩

end AsyncLogging

end MuduoX
