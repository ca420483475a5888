import MuduoX.Log.LogStream

/-! `Logger` (`include/Logger.h`, `src/Logger.cpp`): one record, from the constructor to the text
that the destructor hands to `g_output`.

What the clock and `strerror_r` give are arguments. -/

namespace MuduoX

/-- `SourceFile`; its length is cast to `int`. -/
structure SourceFile where
  data : Bytes
  size : Int
  size_eq : size = intOfSize data.length

namespace SourceFile

/-- What follows the last slash. -/
def new (filename : Bytes) : SourceFile :=
  let data := (filename.reverse.takeWhile (· ≠ slash)).reverse
  ⟨data, intOfSize data.length, rfl⟩

theorem size_bounds (f : SourceFile) :
    (-2 ^ 31 ≤ f.size ∧ f.size < 2 ^ 31) ∧ f.size ≤ f.data.length := by
  obtain ⟨data, size, rfl⟩ := f
  simp only [intOfSize]
  split <;> omega

/-- `GeneralTemplate(basename_.data_, basename_.size_)`. -/
def template (f : SourceFile) : GeneralTemplate :=
  ⟨f.data, f.size, f.size_bounds.1, f.size_bounds.2⟩

/-- The bytes of it that are logged. -/
def name (f : SourceFile) : Bytes := f.data.take f.size.toNat

end SourceFile

inductive LogLevel where
  | trace | debug | info | warn | error | fatal
  deriving DecidableEq

def LogLevelName : LogLevel → Bytes
  | .trace => ascii " [TRACE] "
  | .debug => ascii " [DEBUG] "
  | .info => ascii " [INFO ] "
  | .warn => ascii " [WARN ] "
  | .error => ascii " [ERROR] "
  | .fatal => ascii " [FATAL] "

/-- What `formatTime` makes of the current time: `now.toString()`, and the microseconds. -/
structure LogTime where
  timeStr : Bytes
  microseconds : Nat
  lt : microseconds < 1000 * 1000

namespace LogTime

/-- `t_time`, which `strncpy` fills up with zeros. -/
def t_time (t : LogTime) : Bytes := (t.timeStr ++ List.replicate 31 0).take 31 ++ [0]

/-- `sprintf(buf, ".%06d ", microseconds)` into 32 zeros. -/
def buf (t : LogTime) : Bytes :=
  let ds := digits t.microseconds
  let text := dot :: (List.replicate (6 - ds.length) 48 ++ ds) ++ [space]
  text ++ List.replicate (32 - text.length) 0

theorem length_t_time (t : LogTime) : t.t_time.length = 32 := by
  rw [t_time, List.length_append, List.length_take, List.length_append, List.length_replicate,
    List.length_singleton]
  omega

theorem length_buf (t : LogTime) : 32 ≤ t.buf.length := by
  rw [buf, List.length_append, List.length_replicate]
  omega

def formatTime (t : LogTime) : List LogArg :=
  have htime := t.length_t_time
  have hbuf := t.length_buf
  [.general ⟨t.t_time, 19, by decide, by omega⟩, .general ⟨t.buf, 7, by decide, by omega⟩]

end LogTime

structure Logger where
  stream : LogStream
  level : LogLevel
  line : IntType.int.Value
  basename : SourceFile

namespace Logger

/-- `stream << a << b << ...`. -/
def insertAll (args : List LogArg) (s : LogStream) : Except Fault LogStream :=
  args.foldlM LogStream.insert s

/-- `Impl(level, savedErrno, filename, line)`. -/
def Impl.new (level : LogLevel) (savedErrno : IntType.int.Value) (filename : Bytes)
    (line : IntType.int.Value) (time : LogTime) (getErrnoMsg : IntType.int.Value → Bytes) :
    Except Fault Logger :=
  let errno : List LogArg :=
    if savedErrno.val ≠ 0 then
      [.string (getErrnoMsg savedErrno), .string (ascii " (errno="), .integer savedErrno,
        .string (ascii ") ")]
    else []
  (insertAll (time.formatTime ++ .string (LogLevelName level) :: errno) (.new kSmallBuffer)).map
    fun stream => ⟨stream, level, line, .new filename⟩

/-- `Logger(filename, line, level)`. -/
def new (filename : Bytes) (line : IntType.int.Value) (level : LogLevel) (time : LogTime)
    (getErrnoMsg : IntType.int.Value → Bytes) : Except Fault Logger :=
  Impl.new level ⟨0, by decide, by decide⟩ filename line time getErrnoMsg

def finish (l : Logger) : Except Fault Logger :=
  (insertAll [.string (ascii " - "), .general l.basename.template, .string (ascii ":"),
    .integer l.line, .string [LF]] l.stream).map fun stream => { l with stream }

/-- `~Logger`: the text for `g_output`. A fatal record then ends the process. -/
def destroy (l : Logger) : Except Fault Bytes := l.finish.map fun l => l.stream.data

/-- The logger after the insertions of its statement. -/
def logged (args : List LogArg) (l : Logger) : Except Fault Logger :=
  (insertAll args l.stream).map fun stream => { l with stream }

/-- One record: the constructor, the insertions, the destructor. -/
def record (filename : Bytes) (line : IntType.int.Value) (level : LogLevel) (time : LogTime)
    (getErrnoMsg : IntType.int.Value → Bytes) (args : List LogArg) : Except Fault Bytes :=
  ((new filename line level time getErrnoMsg).bind (logged args)).bind destroy

/-! ### The end of the line -/

/-- There is a text, and a newline is its last byte. -/
def EndsLine (r : Except Fault Bytes) : Prop := ∃ text, r = .ok text ∧ text.getLast? = some LF

/-- What the fill level before `finish` has to be, for the length of the file name. Usually the
whole suffix has room, or the name is left out and the rest of the suffix has; a buffer that is full
to the last byte but one takes nothing any more. -/
structure Room (l : Logger) : Prop where
  size_nonneg : 0 ≤ l.basename.size
  fill : l.stream.length + l.basename.size ≤ 3994 ∨
    l.stream.length ≤ 3994 ∧ 3997 ≤ l.stream.length + l.basename.size ∨
    l.stream.length = 3997 ∧ (l.basename.size = 0 ∨ 3 ≤ l.basename.size) ∨
    l.basename.name.getLast? = some LF ∧ (l.stream.length + l.basename.size = 3996 ∨
      3997 ≤ l.stream.length ∧ l.stream.length + l.basename.size = 3999) ∨
    3999 ≤ l.stream.length ∧ l.stream.data.getLast? = some LF

variable {s : LogStream} {l : Logger}

theorem insertAll_cons (arg : LogArg) (args : List LogArg) (s : LogStream) :
    insertAll (arg :: args) s = (s.insert arg).bind (insertAll args) := List.foldlM_cons ..

theorem insert_string {str : Bytes} (h : str.length < 2 ^ 31) :
    s.insert (.string str) = .ok (s.append str) := by
  rw [LogStream.insert, FixedBuffer.appendSize_of_lt h (le_refl _), List.take_length]

theorem insert_template (f : SourceFile) (h : 0 ≤ f.size) :
    s.insert (.general f.template) = .ok (s.append f.name) := by
  obtain ⟨⟨-, hlt⟩, hle⟩ := f.size_bounds
  change s.appendSize f.data (sizeOfInt f.size) = _
  rw [sizeOfInt_of_nonneg h hlt, FixedBuffer.appendSize_of_lt (by omega) (by omega),
    SourceFile.name]

/-- The line number goes in whole, or not at all. -/
theorem formatInteger_cases {T : IntType} (num : T.Value) (s : LogStream) :
    ∃ s', LogStream.formatInteger num s = .ok s' ∧
      (s' = s ∨ s.length ≤ 3968 ∧ s'.length ≤ s.length + 21) := by
  have hsize : s.length + s.avail = 4000 := s.length_add_avail
  obtain hlt | hle := lt_or_ge s.avail LogStream.kMaxNumberSize
  · exact ⟨s, LogStream.formatInteger_of_lt num hlt, .inl rfl⟩
  · obtain ⟨s', hs', hdata⟩ := LogStream.formatInteger_eq_ok num hle
    have hlength := LogStream.length_integerText num
    rw [LogStream.kMaxNumberSize] at hle
    refine ⟨s', hs', .inr ⟨by omega, ?_⟩⟩
    rw [FixedBuffer.length, hdata, List.length_append]
    exact Nat.add_le_add_left hlength _

/-- The stream once `finish` has inserted the file name. -/
def named (l : Logger) : LogStream := (l.stream.append (ascii " - ")).append l.basename.name

theorem destroy_eq (h : 0 ≤ l.basename.size) :
    ∃ s', LogStream.formatInteger l.line (l.named.append (ascii ":")) = .ok s' ∧
      l.destroy = .ok (s'.append [LF]).data := by
  obtain ⟨s', hs', -⟩ := formatInteger_cases l.line (l.named.append (ascii ":"))
  refine ⟨s', hs', ?_⟩
  have hfinish : insertAll [.string (ascii " - "), .general l.basename.template,
      .string (ascii ":"), .integer l.line, .string [LF]] l.stream = .ok (s'.append [LF]) := by
    rw [insertAll_cons, insert_string (by decide), Except.bind, insertAll_cons,
      insert_template _ h, Except.bind, insertAll_cons, insert_string (by decide), Except.bind,
      insertAll_cons, LogStream.insert]
    change (LogStream.formatInteger l.line (l.named.append (ascii ":"))).bind _ = _
    rw [hs', Except.bind, insertAll_cons, insert_string (by decide)]
    rfl
  rw [destroy, finish, hfinish]
  rfl

/-- What the end of the suffix does after the file name. -/
theorem getLast?_append_newline {s' : LogStream} {num : IntType.int.Value}
    (h : LogStream.formatInteger num (s.append (ascii ":")) = .ok s') :
    (s'.append [LF]).data.getLast? = some LF ↔
      s.length ≤ 3997 ∨ 3999 ≤ s.length ∧ s.data.getLast? = some LF := by
  obtain ⟨_, hs', hline⟩ := formatInteger_cases num (s.append (ascii ":"))
  cases h.symm.trans hs'
  obtain ⟨hcolon, hdata⟩ | ⟨hcolon, heq⟩ := s.append_cases (ascii ":")
  · have hlength : (s.append (ascii ":")).length = s.length + 1 := by
      rw [FixedBuffer.length, hdata, List.length_append]
      rfl
    have hcolon : s.length + 1 < 4000 := hcolon
    obtain ⟨hnewline, hdata'⟩ | ⟨hnewline, heq'⟩ := s'.append_cases [LF]
    · have hnewline : s'.length + 1 < 4000 := hnewline
      rw [hdata', List.getLast?_concat]
      refine iff_of_true rfl (.inl ?_)
      obtain rfl | ⟨hle, -⟩ := hline
      · omega
      · omega
    · -- the colon has taken the last byte but one
      have hnewline : 4000 ≤ s'.length + 1 := hnewline
      obtain rfl | ⟨hle, hlength'⟩ := hline
      · rw [heq', hdata]
        refine iff_of_false ?_ (by omega)
        rw [show ascii ":" = [58] from rfl, List.getLast?_concat]
        decide
      · omega
  · have hcolon : 4000 ≤ s.length + 1 := hcolon
    rw [heq] at hline
    obtain rfl | ⟨hle, -⟩ := hline
    · obtain ⟨hnewline, -⟩ | ⟨-, heq'⟩ := s'.append_cases [LF]
      · have hnewline : s'.length + 1 < 4000 := hnewline
        omega
      · rw [heq']
        refine ⟨fun hlast => .inr ⟨by omega, hlast⟩, ?_⟩
        rintro (hle | ⟨-, hlast⟩)
        · omega
        · exact hlast
    · omega

theorem length_append_of_data {b : LogStream} {buf : Bytes}
    (h : (b.append buf).data = b.data ++ buf) : (b.append buf).length = b.length + buf.length := by
  rw [FixedBuffer.length, h, List.length_append]
  rfl

theorem room_iff (h : 0 ≤ l.basename.size) :
    l.named.length ≤ 3997 ∨ 3999 ≤ l.named.length ∧ l.named.data.getLast? = some LF ↔ l.Room := by
  have hname : (l.basename.name.length : Int) = l.basename.size := by
    have hle := l.basename.size_bounds.2
    rw [SourceFile.name, List.length_take]
    omega
  have hlast (data : Bytes) : (data ++ l.basename.name).getLast? = some LF ↔
      l.basename.name.getLast? = some LF ∨ l.basename.size = 0 ∧ data.getLast? = some LF := by
    obtain hnil | hne := eq_or_ne l.basename.name []
    · have hzero : l.basename.size = 0 := by rw [← hname, hnil]; rfl
      rw [hnil, List.append_nil, List.getLast?_nil, hzero]
      exact ⟨fun h => .inr ⟨rfl, h⟩, fun h => (h.resolve_left (by simp)).2⟩
    · have hpos := List.length_pos_iff.mpr hne
      rw [List.getLast?_append_of_ne_nil _ hne]
      exact ⟨.inl, fun h => h.resolve_right fun hzero => by omega⟩
  have hnonempty (h : l.basename.name.getLast? = some LF) : 0 < l.basename.size := by
    have hpos := List.length_pos_of_mem (List.mem_of_getLast? h)
    omega
  have hroom : l.Room ↔ _ := ⟨Room.fill, Room.mk h⟩
  rw [hroom, named]
  obtain ⟨hsep, hdata⟩ | ⟨hsep, heq⟩ := l.stream.append_cases (ascii " - ")
  · have hsep : l.stream.length + 3 < 4000 := hsep
    have hlength : (l.stream.append (ascii " - ")).length = l.stream.length + 3 :=
      length_append_of_data hdata
    have hspace : (l.stream.append (ascii " - ")).data.getLast? ≠ some LF := by
      rw [hdata, List.getLast?_append_of_ne_nil _ (by decide)]
      decide
    have hlow : ¬(3999 ≤ l.stream.length ∧ l.stream.data.getLast? = some LF) :=
      fun h => absurd h.1 (by omega)
    obtain ⟨hfits, hdata'⟩ | ⟨hfits, heq'⟩ :=
      (l.stream.append (ascii " - ")).append_cases l.basename.name
    · have hfits : l.stream.length + 3 + l.basename.name.length < 4000 := hlength ▸ hfits
      have hends : ((l.stream.append (ascii " - ")).data ++ l.basename.name).getLast? = some LF ↔
          l.basename.name.getLast? = some LF :=
        (hlast _).trans (or_iff_left fun h => hspace h.2)
      rw [length_append_of_data hdata', hlength, hdata', hends]
      by_cases hlf : l.basename.name.getLast? = some LF
      · have hpos := hnonempty hlf
        simp only [hlf, hlow, true_and, and_true, or_false]
        omega
      · simp only [hlf, hlow, false_and, and_false, or_false]
        omega
    · have hfits : 4000 ≤ l.stream.length + 3 + l.basename.name.length := hlength ▸ hfits
      have hshort : ¬(l.stream.length + l.basename.size = 3996 ∨
          3997 ≤ l.stream.length ∧ l.stream.length + l.basename.size = 3999) := by omega
      rw [heq', hlength]
      simp only [hspace, hlow, hshort, and_false, or_false]
      omega
  · have hsep : 4000 ≤ l.stream.length + 3 := hsep
    rw [heq]
    obtain ⟨hfits, hdata'⟩ | ⟨hfits, heq'⟩ := l.stream.append_cases l.basename.name
    · have hfits : l.stream.length + l.basename.name.length < 4000 := hfits
      rw [length_append_of_data hdata', hdata', hlast]
      by_cases hlf : l.basename.name.getLast? = some LF
      · have hpos := hnonempty hlf
        have hlow : ¬(3999 ≤ l.stream.length ∧ l.stream.data.getLast? = some LF) :=
          fun h => absurd h.1 (by omega)
        simp only [hlf, hlow, true_and, and_true, true_or, or_false]
        omega
      · by_cases hfull : l.stream.data.getLast? = some LF
        · simp only [hlf, hfull, false_and, and_true, false_or]
          omega
        · simp only [hlf, hfull, false_and, and_false, or_false]
          omega
    · have hfits : 4000 ≤ l.stream.length + l.basename.name.length := hfits
      have hshort : ¬(l.stream.length + l.basename.size = 3996 ∨
          3997 ≤ l.stream.length ∧ l.stream.length + l.basename.size = 3999) := by omega
      rw [heq']
      by_cases hfull : l.stream.data.getLast? = some LF
      · simp only [hfull, hshort, and_true, and_false, false_or]
        omega
      · simp only [hfull, hshort, and_false, or_false]
        omega

theorem destroy_endsLine_iff (l : Logger) : EndsLine l.destroy ↔ l.Room := by
  by_cases h : 0 ≤ l.basename.size
  · obtain ⟨s', hs', hdestroy⟩ := destroy_eq h
    rw [EndsLine, hdestroy, ← room_iff h, ← getLast?_append_newline hs']
    simp only [Except.ok.injEq, exists_eq_left']
  · -- the cast of the length has made it negative
    refine iff_of_false ?_ fun hroom => h hroom.size_nonneg
    rintro ⟨text, htext, -⟩
    rw [destroy, finish, insertAll_cons, insert_string (by decide), Except.bind,
      insertAll_cons] at htext
    cases hins : LogStream.insert (l.stream.append (ascii " - ")) (.general l.basename.template) with
    | error e =>
      rw [hins] at htext
      cases htext
    | ok s' => exact h (LogStream.castKeeps_general.mp (LogStream.insert_isOk_iff.mp ⟨s', hins⟩))

/-- **The record is a line.** The text that the destructor hands over ends with a newline if and
only if no insertion has gone wrong and what they have left is room for the suffix. -/
theorem endsLine_iff (filename : Bytes) (line : IntType.int.Value) (level : LogLevel)
    (time : LogTime) (getErrnoMsg : IntType.int.Value → Bytes) (args : List LogArg) :
    EndsLine (record filename line level time getErrnoMsg args) ↔
      ∃ l, (new filename line level time getErrnoMsg).bind (logged args) = .ok l ∧ l.Room := by
  rw [record]
  cases (new filename line level time getErrnoMsg).bind (logged args) with
  | error e => exact iff_of_false (by rintro ⟨_, ⟨⟩, -⟩) (by rintro ⟨_, ⟨⟩, -⟩)
  | ok l =>
    simp only [Except.ok.injEq, exists_eq_left']
    exact destroy_endsLine_iff l

/-- After a string of 3952 bytes the colon behind `main.cpp` takes the last byte but one. -/
theorem not_endsLine : ¬∀ filename line level time getErrnoMsg args,
    EndsLine (record filename line level time getErrnoMsg args) := by
  intro hall
  obtain ⟨str, hstr⟩ : ∃ str : Bytes, str.length = 3952 :=
    ⟨List.replicate 3952 120, List.length_replicate⟩
  have hends := hall (ascii "src/main.cpp") ⟨1, by decide, by decide⟩ .info
    ⟨ascii "2025-01-01 00:00:00", 0, by decide⟩ (fun _ => []) [.string str]
  have hnew : ∃ l, new (ascii "src/main.cpp") ⟨1, by decide, by decide⟩ .info
      ⟨ascii "2025-01-01 00:00:00", 0, by decide⟩ (fun _ => []) = .ok l ∧
        l.stream.length = 35 ∧ l.basename.size = 8 := ⟨_, rfl, by decide, by decide⟩
  obtain ⟨l, hl, hlength, hsize⟩ := hnew
  have hlogged : logged [.string str] l = .ok { l with stream := l.stream.append str } := by
    rw [logged, insertAll_cons, insert_string (by omega)]
    rfl
  rw [record, hl, Except.bind, hlogged] at hends
  obtain ⟨-, hfill⟩ := (destroy_endsLine_iff _).mp hends
  have hstream : (l.stream.append str).length = 3987 := by
    obtain ⟨-, hdata⟩ | ⟨hle, -⟩ := l.stream.append_cases str
    · rw [length_append_of_data hdata, hlength, hstr]
    · have hle : 4000 ≤ l.stream.length + str.length := hle
      omega
  simp only [hstream, hsize] at hfill
  omega

end Logger

end MuduoX
