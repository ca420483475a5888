import MuduoX.Log.Draining
import MuduoX.Log.LogFile
import MuduoX.Theory.Pieces

/-! # From `append` to the files

`AsyncLogging` together with the `LogFile` that `threadFunc` has on its stack. A step of the logger
is one of `AsyncLogging`; where it passes a buffer to `output`, the file sees a call of `append`. A
buffer, and so a file, holds lines as a whole. -/

namespace MuduoX

structure LogBackend where
  basename : Bytes
  localtime : Int → LocalTime
  rollSize : Int
  flushInterval : Int
  front : AsyncLogging
  /-- the local `output` of `threadFunc` -/
  output : Option LogFile

/-- A step, with what the clock says to `output` and how its writes go. -/
inductive BackendInput where
  | start (now : Int)
  | append (logline : Bytes)
  | stop
  | threadFunc (now rollNow : Int) (calls : List Fwrite)

namespace BackendInput

/-- What the step is for `AsyncLogging`. -/
def front : BackendInput → LogInput
  | start _ => .start
  | append logline => .append logline
  | stop => .stop
  | threadFunc _ _ _ => .threadFunc

/-- The line that a step appends. -/
def line : BackendInput → List Bytes
  | append logline => [logline]
  | _ => []

/-- Lines fit into a buffer, the epoch has begun, and writes succeed. -/
def Regular : BackendInput → Prop
  | start now => 0 < now
  | append logline => logline.length < kLargeBuffer
  | stop => True
  | threadFunc _ _ calls => ∀ c ∈ calls, c.error = false

instance : DecidablePred Regular
  | start _ => inferInstanceAs (Decidable (_ < _))
  | append _ => inferInstanceAs (Decidable (_ < _))
  | stop => isTrue trivial
  | threadFunc _ _ _ => inferInstanceAs (Decidable (∀ _ ∈ _, _))

end BackendInput

namespace LogBackend

/-- The default of `LogFile` for its last parameter. -/
def checkEveryN : Int := 1024

def new (basename : Bytes) (localtime : Int → LocalTime) (rollSize flushInterval : Int) :
    LogBackend where
  basename := basename
  localtime := localtime
  rollSize := rollSize
  flushInterval := flushInterval
  front := .new
  output := none

/-- What a step does to `output`. -/
def fileStep (s : LogBackend) : BackendInput → Option (Except Fault (Option LogFile))
  | .start now =>
    some (.ok (some (.new s.basename s.localtime s.rollSize s.flushInterval checkEveryN now)))
  | .threadFunc now rollNow calls =>
    match s.front.thread, s.front.buffersToWrite[s.front.written]? with
    | .write, some (some b) =>
      match s.output with
      | none => some (.error .nullPointer)
      | some file =>
        if file.clock ≤ now ∧ now ≤ rollNow then
          (file.append b.data now rollNow calls).map (Except.map some)
        else none
    | _, _ => some (.ok s.output)
  | _ => some (.ok s.output)

def step : Except Fault LogBackend → BackendInput → Option (Except Fault LogBackend)
  | .error _, _ => none
  | .ok s, i =>
    (AsyncLogging.step (.ok s.front) i.front).bind fun front =>
    (s.fileStep i).map fun output =>
      front.bind fun front => output.map fun output => { s with front, output }

/-- The buffer that `threadFunc` is about to pass to `output`. -/
def writing (s : LogBackend) : Option LargeBuffer :=
  if s.front.thread = .write then s.front.buffersToWrite[s.front.written]?.join else none

/-- No write opens a file that is there already. -/
def NewName : Except Fault LogBackend → BackendInput → Prop
  | .ok s, .threadFunc now rollNow _ =>
    ∀ file ∈ s.output, ∀ b ∈ s.writing, file.NewName b.data.length now rollNow
  | _, _ => True

instance : ∀ r i, Decidable (NewName r i)
  | .ok s, .threadFunc now rollNow _ => inferInstanceAs
    (Decidable (∀ file ∈ s.output, ∀ b ∈ s.writing, file.NewName b.data.length now rollNow))
  | .ok _, .start _ | .ok _, .append _ | .ok _, .stop | .error _, _ => isTrue trivial

end LogBackend

/-! ### Whole lines -/

namespace AsyncLogging

variable {s s' : AsyncLogging} {ps items : List Bytes} {logline : Bytes}

/-- What the buffers hold on the way to the file. -/
def pieces (s : AsyncLogging) : List Bytes :=
  (s.buffersToWrite.drop s.written).map BufferPtr.content ++ s.buffers.map BufferPtr.content ++
    [s.currentBuffer.content]

theorem Inv.cut_append (h : Inv s) (hshort : logline.length < kLargeBuffer)
    (hs : s.append logline = .ok s') (hcut : Cut (ps ++ s.pieces) items) :
    Cut (ps ++ s'.pieces) (items ++ [logline]) := by
  obtain ⟨current, hcurrent⟩ := Option.isSome_iff_exists.mp h.current
  rw [AsyncLogging.append, hcurrent] at hs
  simp only at hs
  split at hs
  · rename_i havail
    cases hs
    rw [pieces, ← List.append_assoc, hcurrent] at hcut
    have hextend := hcut.extend logline
    simp only [pieces, BufferPtr.content, Option.map_some, Option.getD_some,
      FixedBuffer.data_append havail]
    rwa [← List.append_assoc]
  · have hnext : Empty (if s.nextBuffer.isSome then s.nextBuffer else newBuffer) := by
      split
      · rename_i hsome
        obtain ⟨b, hb⟩ := Option.isSome_iff_exists.mp hsome
        exact ⟨b, hb, h.next b hb⟩
      · exact empty_newBuffer
    obtain ⟨b, hb, hdata⟩ := hnext.appendTo logline
    rw [hb] at hs
    cases hs
    have hconcat := hcut.concat logline
    have hkept : (LogInput.append logline).kept = logline := LogInput.Short.kept_eq hshort
    simp only [pieces, List.map_append, List.map_singleton, hcurrent, BufferPtr.content,
      Option.map_some, Option.getD_some, hdata, hkept, List.append_assoc] at hconcat ⊢
    exact hconcat

theorem Inv.cut_swap (h : Inv s) (hthread : s.thread = .lock ∨ s.thread = .wait)
    (hcut : Cut (ps ++ s.pieces) items) : Cut (ps ++ s.swap.pieces) items := by
  obtain ⟨⟨b, hb, hdata⟩, -⟩ := h.looping (.inr hthread)
  have hnil : s.buffersToWrite = [] := by
    apply h.idle
    · rcases hthread with heq | heq <;> simp [heq]
    · rcases hthread with heq | heq <;> simp [heq]
  have hconcat := hcut.concat_nil
  simp only [pieces, AsyncLogging.swap, hnil, hb, List.drop_nil, List.drop_zero, List.map_nil, List.nil_append,
    List.map_append, List.map_singleton, List.append_nil, BufferPtr.content, Option.map_some,
    Option.getD_some, hdata, List.append_assoc] at hconcat ⊢
  exact hconcat

theorem recycle_pieces (hwritten : s.buffersToWrite.length ≤ s.written)
    (hs : s.recycle = .ok s') : s'.pieces = s.pieces := by
  rw [recycle] at hs
  cases h₁ : reuse s.newBuffer1
    (if s.buffersToWrite.length > 2 then s.buffersToWrite.take 2 else s.buffersToWrite) with
  | error f =>
    simp only [h₁, Except.bind] at hs
    cases hs
  | ok r₁ =>
    cases h₂ : reuse s.newBuffer2 r₁.2 with
    | error f =>
      simp only [h₁, h₂, Except.bind, Except.map] at hs
      cases hs
    | ok r₂ =>
      simp only [h₁, h₂, Except.bind, Except.map] at hs
      cases hs
      rw [pieces, pieces, List.drop_eq_nil_of_le hwritten]
      rfl

/-- A step of `threadFunc` passes the first piece to the file, or keeps all of them. -/
theorem Inv.cut_threadFunc (h : Inv s) (hs : s.threadFunc = some (.ok s')) :
    (∃ b : LargeBuffer, s.thread = .write ∧ s'.thread = .write ∧
      s.buffersToWrite[s.written]? = some (some b) ∧ s.pieces = b.data :: s'.pieces) ∨
    (s.thread ≠ .notStarted ∧ s'.thread ≠ .notStarted ∧
      (s.thread = .write → ∀ b : LargeBuffer, s.buffersToWrite[s.written]? ≠ some (some b)) ∧
      ∀ ps items, Cut (ps ++ s.pieces) items → Cut (ps ++ s'.pieces) items) := by
  rw [AsyncLogging.threadFunc] at hs
  split at hs
  · cases hs
  · cases hs
  · rename_i hthread
    cases hs
    refine .inr ⟨by simp [hthread], ?_, by simp [hthread], fun _ _ hcut => hcut⟩
    simp only
    split <;> simp
  · rename_i hthread
    cases hs
    refine .inr ⟨by simp [hthread], ?_, by simp [hthread], fun ps items hcut => ?_⟩
    · split <;> simp [AsyncLogging.swap]
    · split
      · exact hcut
      · exact h.cut_swap (.inl hthread) hcut
  · rename_i hthread
    cases hs
    exact .inr ⟨by simp [hthread], by simp [AsyncLogging.swap], by simp [hthread],
      fun ps items => h.cut_swap (.inr hthread)⟩
  · rename_i hthread
    split at hs
    · rename_i hnone
      cases hs
      refine .inr ⟨by simp [hthread], by simp, fun _ b hb => ?_, fun _ _ hcut => hcut⟩
      rw [hnone] at hb
      cases hb
    · cases hs
    · rename_i b hb
      cases hs
      refine .inl ⟨b, hthread, hthread, hb, ?_⟩
      obtain ⟨hlt, hb⟩ := List.getElem?_eq_some_iff.mp hb
      simp only [pieces, List.drop_eq_getElem_cons hlt, hb, List.map_cons, List.cons_append,
        BufferPtr.content, Option.map_some, Option.getD_some]
  · rename_i hthread
    obtain ⟨_, hrecycle, -, htest, -⟩ := h.recycle hthread
    have hs := Option.some.inj hs
    cases hrecycle.symm.trans hs
    refine .inr ⟨by simp [hthread], by simp [htest], by simp [hthread],
      fun ps items hcut => ?_⟩
    rwa [recycle_pieces (h.written hthread) hs]

end AsyncLogging

namespace LogFile

variable {s s' : LogFile} {data : Bytes} {now rollNow : Int} {calls : List Fwrite}

theorem count_rollFile (s : LogFile) : (s.rollFile now).2.count = s.count := by
  rw [rollFile]
  split <;> rfl

theorem count_checkRoll (n : Nat) (now rollNow : Int) (s : LogFile) (h : 0 ≤ s.count) :
    (s.checkRoll n now rollNow).count ≤ s.count := by
  rw [checkRoll]
  split
  · exact (count_rollFile s).le
  split
  · simp only
    split
    · exact (count_rollFile _).le.trans h
    · exact h
  · exact le_refl _

/-- A call counts once. -/
theorem count_append (h : 0 ≤ s.count) (hs : s.append data now rollNow calls = some (.ok s')) :
    s'.count ≤ s.count + 1 := by
  rw [append, appendInlock] at hs
  cases hfile : s.file with
  | none =>
    simp only [hfile] at hs
    cases hs
  | some file =>
    simp only [hfile] at hs
    split at hs
    case isFalse => cases hs
    obtain ⟨util, -, hs⟩ := Option.map_eq_some_iff.mp hs
    split at hs
    case isTrue => cases hs
    cases hs
    have hle := count_checkRoll util.writtenbytes now rollNow
      { s with
        file := some { file with util, records := file.records ++ [⟨data, now⟩] }
        count := s.count + 1
        clock := now } (Int.le_add_one h)
    split <;> exact hle

end LogFile

namespace LogBackend

variable {s s' : LogBackend} {lines : List Bytes} {rollSize flushInterval : Int} {n : Nat}

/-- What is in the files. -/
def logged (s : LogBackend) : List Bytes := (s.output.map LogFile.logged).getD []

/-- The lines are cut into what is in the files and what the buffers hold; `count_` has been
increased at most once in a step. -/
structure Inv (rollSize : Int) (n : Nat) (lines : List Bytes) (s : LogBackend) : Prop where
  rollSize_eq : s.rollSize = rollSize
  front : s.front.Inv
  idle : s.front.thread = .notStarted → s.output = none
  output : s.front.thread ≠ .notStarted → ∃ file f, s.output = some file ∧
    file.Settled rollSize checkEveryN f ∧ file.count ≤ n
  cut : Cut (s.logged ++ s.front.pieces) lines

theorem inv_new (basename : Bytes) (localtime : Int → LocalTime) (rollSize flushInterval : Int) :
    Inv rollSize 0 [] (new basename localtime rollSize flushInterval) where
  rollSize_eq := rfl
  front := AsyncLogging.inv_new
  idle _ := rfl
  output h := absurd rfl h
  cut := Cut.nil.concat_nil

theorem step_eq {i : BackendInput} {r : Except Fault LogBackend} (hs : step (.ok s) i = some r) :
    ∃ front output, AsyncLogging.step (.ok s.front) i.front = some front ∧
      s.fileStep i = some output ∧
      r = front.bind fun front => output.map fun output => { s with front, output } := by
  obtain ⟨front, hfront, hs⟩ := Option.bind_eq_some_iff.mp hs
  obtain ⟨output, houtput, rfl⟩ := Option.map_eq_some_iff.mp hs
  exact ⟨front, output, hfront, houtput, rfl⟩

theorem logged_some {file : LogFile} (h : s.output = some file) :
    s.logged = file.logged := by
  rw [logged, h]
  rfl

/-- A step that leaves `output` alone. -/
theorem Inv.of_front {front : AsyncLogging} {l : List Bytes} (h : Inv rollSize n lines s)
    (hinv : front.Inv) (hthread : front.thread = .notStarted ↔ s.front.thread = .notStarted)
    (hcut : Cut (s.logged ++ front.pieces) (lines ++ l)) :
    Inv rollSize (n + 1) (lines ++ l) { s with front } := by
  refine ⟨h.rollSize_eq, hinv, fun heq => h.idle (hthread.mp heq), fun hne => ?_, hcut⟩
  obtain ⟨file, f, houtput, hsettled, hcount⟩ := h.output (mt hthread.mpr hne)
  exact ⟨file, f, houtput, hsettled, by omega⟩

theorem Inv.start {now : Int} (h : Inv rollSize n lines s) (hnow : 0 < now)
    (hinv : s.front.start.Inv) (hthread : s.front.thread = .notStarted) :
    Inv rollSize (n + 1) lines { s with
      front := s.front.start
      output := some
        (.new s.basename s.localtime s.rollSize s.flushInterval checkEveryN now) } := by
  obtain rfl := h.rollSize_eq
  obtain ⟨hnew, hlogged⟩ := LogFile.settled_new s.basename s.localtime s.rollSize s.flushInterval
    checkEveryN hnow
  refine ⟨rfl, hinv, fun heq => (by cases heq), fun _ => ⟨_, _, rfl, hnew, ?_⟩, ?_⟩
  · rw [LogFile.new, LogFile.count_rollFile]
    exact Int.natCast_nonneg _
  · have hcut := h.cut
    rw [logged, h.idle hthread] at hcut
    rw [logged_some rfl, hlogged]
    exact hcut

/-- `output.append` of a buffer -/
theorem Inv.write {front : AsyncLogging} {b : LargeBuffer} {now rollNow : Int}
    {calls : List Fwrite} {output : Except Fault (Option LogFile)} (h : Inv rollSize n lines s)
    (hinv : front.Inv) (hthread : s.front.thread = .write) (hthread' : front.thread = .write)
    (hb : s.front.buffersToWrite[s.front.written]? = some (some b))
    (hpieces : s.front.pieces = b.data :: front.pieces)
    (hcalls : ∀ c ∈ calls, c.error = false)
    (hname : NewName (.ok s) (.threadFunc now rollNow calls)) (hn : n < 2 ^ 31 - 1)
    (hs : s.fileStep (.threadFunc now rollNow calls) = some output) :
    ∃ file, output = .ok file ∧ Inv rollSize (n + 1) lines { s with front, output := file } := by
  obtain ⟨file, f, hfile, hsettled, hcount⟩ := h.output (by simp [hthread])
  simp only [fileStep, hthread, hb, hfile] at hs
  obtain ⟨⟨hnow, hrollNow⟩, hs⟩ := Option.ite_none_right_eq_some.mp hs
  obtain ⟨r, hr, rfl⟩ := Option.map_eq_some_iff.mp hs
  have hwriting : s.writing = some b := by
    rw [writing, if_pos hthread, hb]
    rfl
  have hlen : b.data.length < 2 ^ 31 := lt_of_le_of_lt b.fits (by decide)
  have hmax : file.count < INT_MAX := by
    rw [INT_MAX]
    omega
  obtain ⟨g, file', rfl, hsettled', hlogged⟩ :=
    hsettled.append hlen hmax hcalls hnow hrollNow (hname file hfile b hwriting) hr
  have hcount' := LogFile.count_append hsettled.count_nonneg hr
  refine ⟨some file', rfl, h.rollSize_eq, hinv, fun heq => (by rw [hthread'] at heq; cases heq),
    fun _ => ⟨file', g, rfl, hsettled', by push_cast; omega⟩, ?_⟩
  have hcut := h.cut
  rw [logged_some hfile, hpieces] at hcut
  rw [logged_some rfl, hlogged, List.append_assoc]
  exact hcut

theorem Inv.step {i : BackendInput} {r : Except Fault LogBackend} (h : Inv rollSize n lines s)
    (hi : i.Regular) (hname : NewName (.ok s) i) (hn : n < 2 ^ 31 - 1) (hs : step (.ok s) i = some r) :
    ∃ s', r = .ok s' ∧ Inv rollSize (n + 1) (lines ++ i.line) s' := by
  obtain ⟨front, output, hfront, houtput, rfl⟩ := step_eq hs
  obtain ⟨front, rfl, hinv, -⟩ := h.front.step hfront
  cases i with
  | start now =>
    obtain ⟨hthread, hfront⟩ := Option.ite_none_right_eq_some.mp hfront
    cases hfront
    cases houtput
    refine ⟨_, rfl, ?_⟩
    rw [show (BackendInput.start now).line = [] from rfl, List.append_nil]
    exact h.start hi hinv hthread
  | append logline =>
    have happend := Option.some.inj hfront
    obtain ⟨hthread, -⟩ := AsyncLogging.append_thread happend
    cases houtput
    exact ⟨_, rfl, h.of_front hinv (by rw [hthread]) (h.front.cut_append hi happend h.cut)⟩
  | stop =>
    cases hfront
    cases houtput
    refine ⟨_, rfl, h.of_front hinv Iff.rfl ?_⟩
    rw [show BackendInput.stop.line = [] from rfl, List.append_nil]
    exact h.cut
  | threadFunc now rollNow calls =>
    rw [show (BackendInput.threadFunc now rollNow calls).line = [] from rfl, List.append_nil]
    obtain ⟨b, hwrite, hwrite', hb, hpieces⟩ | ⟨hne, hne', hno, hcut⟩ :=
      h.front.cut_threadFunc hfront
    · obtain ⟨file, rfl, hinv'⟩ := h.write hinv hwrite hwrite' hb hpieces hi hname hn houtput
      exact ⟨_, rfl, hinv'⟩
    · have hsame : s.fileStep (.threadFunc now rollNow calls) = some (.ok s.output) := by
        rw [fileStep]
        split
        · rename_i b hwrite hb
          exact absurd hb (hno hwrite b)
        · rfl
      cases hsame.symm.trans houtput
      have hkept := h.of_front (l := []) hinv (iff_of_false hne' hne)
        (by rw [List.append_nil]; exact hcut _ _ h.cut)
      rw [List.append_nil] at hkept
      exact ⟨_, rfl, hkept⟩

theorem Inv.run {is : List BackendInput} {r : Except Fault LogBackend}
    (h : Inv rollSize n lines s) (his : ∀ i ∈ is, i.Regular)
    (hnames : Run.Along LogBackend.step NewName (.ok s) is) (hn : n + is.length < 2 ^ 31)
    (hr : Run.run LogBackend.step (.ok s) is = some r) :
    ∃ s', r = .ok s' ∧ Inv rollSize (n + is.length) (lines ++ is.flatMap BackendInput.line) s' := by
  induction is generalizing s n lines with
  | nil =>
    cases hr
    exact ⟨s, rfl, by rwa [List.flatMap_nil, List.append_nil]⟩
  | cons i is ih =>
    obtain ⟨hi, his⟩ := List.forall_mem_cons.mp his
    obtain ⟨r₁, h₁, hr⟩ := Run.run_cons.mp hr
    rw [List.length_cons] at hn
    obtain ⟨s₁, rfl, hinv⟩ := h.step hi hnames.1 (by omega) h₁
    obtain ⟨s', rfl, hinv'⟩ := ih hinv his (hnames.2 _ h₁) (by omega) hr
    refine ⟨s', rfl, ?_⟩
    rw [List.length_cons, Nat.add_comm is.length, ← Nat.add_assoc, List.flatMap_cons,
      ← List.append_assoc]
    exact hinv'

/-- The files that have been opened. -/
def files (s : LogBackend) : List RolledFile := (s.output.map LogFile.files).getD []

/-- A file has its records as a whole, so it has lines as a whole. -/
theorem Inv.cut_files {first : List Bytes} (h : Inv rollSize n lines s)
    (hcut : Cut s.logged first) : Cut (s.files.map fun f => f.util.content) first := by
  by_cases hthread : s.front.thread = .notStarted
  · rw [logged, h.idle hthread] at hcut
    rw [files, h.idle hthread]
    exact hcut
  obtain ⟨file, f, houtput, hsettled, -⟩ := h.output hthread
  have hfiles : s.files = file.files := by
    rw [files, houtput]
    rfl
  have hgood : ∀ g ∈ file.files, g.Good rollSize checkEveryN := by
    rw [LogFile.files_eq hsettled.names, LogFile.openings, hsettled.file]
    exact List.forall_mem_append.mpr
      ⟨hsettled.closed, List.forall_mem_singleton.mpr hsettled.good⟩
  rw [logged_some houtput, LogFile.logged, List.flatMap_def, List.map_flatten,
    List.map_map] at hcut
  have hjoin := hcut.join
  rw [List.map_map] at hjoin
  rw [hfiles, LogFile.files_eq hsettled.names] at *
  rw [List.map_congr_left fun g hg => (hgood g hg).whole.content]
  exact hjoin

/-- **Every line is in one file, as a whole and in order.** In every run in which the lines fit into
a buffer, the writes succeed and no file is opened twice, no step faults, and the contents of the
files, one file after the other, are the lines that have been appended first; the buffers hold the
others. Neither the swaps of the buffers nor the rolling of the files splits, loses, repeats or moves
a line. -/
theorem lines_whole (basename : Bytes) (localtime : Int → LocalTime) (rollSize flushInterval : Int)
    (is : List BackendInput) (r : Except Fault LogBackend) (his : ∀ i ∈ is, i.Regular)
    (hlen : is.length < 2 ^ 31)
    (hr : Run.run step (.ok (new basename localtime rollSize flushInterval)) is = some r)
    (hnames : Run.Along step NewName (.ok (new basename localtime rollSize flushInterval)) is) :
    ∃ (s : LogBackend) (groups : List (List Bytes)) (rest : List Bytes), r = .ok s ∧
      s.files.map (fun f => f.util.content) = groups.map List.flatten ∧
      groups.flatten ++ rest = is.flatMap BackendInput.line ∧
      rest.flatten = s.front.toWrite ++ s.front.buffered := by
  obtain ⟨s, rfl, hinv⟩ :=
    (inv_new basename localtime rollSize flushInterval).run his hnames (by omega) hr
  obtain ⟨first, rest, hlines, hfiles, hrest⟩ := hinv.cut.of_append
  rw [List.nil_append] at hlines
  obtain ⟨groups, hgroups, rfl⟩ := hinv.cut_files hfiles
  refine ⟨s, groups, rest, rfl, hgroups.symm, hlines.symm, ?_⟩
  rw [← hrest.flatten]
  simp only [AsyncLogging.pieces, AsyncLogging.toWrite, AsyncLogging.buffered, contents,
    List.flatMap_def, List.flatten_append, List.flatten_singleton, List.append_assoc]

/-- A line that is written, and one behind it. -/
theorem lines_whole_two : ∃ (s : LogBackend) (groups : List (List Bytes)) (rest : List Bytes),
    Run.run step (.ok (new (ascii "m") LogFile.january 1000 3)) [.append (ascii "a"), .start 1,
      .threadFunc 1 1 [], .threadFunc 1 1 [], .threadFunc 1 1 [], .threadFunc 1 1 [⟨1, false⟩],
      .append (ascii "b")] = some (.ok s) ∧
    s.files.map (fun f => f.util.content) = [ascii "a"] ∧
    s.files.map (fun f => f.util.content) = groups.map List.flatten ∧
    groups.flatten ++ rest = [ascii "a", ascii "b"] := by
  obtain ⟨r, hr, hfiles⟩ : ∃ r, Run.run step (.ok (new (ascii "m") LogFile.january 1000 3))
      [.append (ascii "a"), .start 1,
      .threadFunc 1 1 [], .threadFunc 1 1 [], .threadFunc 1 1 [], .threadFunc 1 1 [⟨1, false⟩],
      .append (ascii "b")] = some r ∧
    ∀ s, r = .ok s → s.files.map (fun f => f.util.content) = [ascii "a"] :=
      ⟨_, rfl, fun s hs => by cases hs; rfl⟩
  obtain ⟨s, groups, rest, rfl, hgroups, hlines, -⟩ := lines_whole (ascii "m") LogFile.january 1000 3
    _ r (by decide) (by decide) hr (by decide)
  exact ⟨s, groups, rest, hr, hfiles s rfl, hgroups, hlines⟩

end LogBackend

end MuduoX
