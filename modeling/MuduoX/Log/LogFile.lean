import MuduoX.Log.FileUtil
import MuduoX.Log.LogStream

/-! `LogFile` (`include/LogFile.h`, `log/LogFile.cpp`).

`time(NULL)` is read once by `appendInlock` and once more by `rollFile`; the readings are chosen from
outside and never go back. The name of a file is made of the local time of its opening, and a
`FileUtil` appends to a file that is there already: when the clocks are set back, two openings may
share one file. At the start no file is there. `flush` moves bytes from the stream to the system and
changes nothing here.

A fault is a null `file_`, a read past the end of a record, or a `count_` that overflows. -/

namespace MuduoX

def INT_MAX : Int := 2 ^ 31 - 1

def kRollPerSeconds : Int := 60 * 60 * 24

/-- `now / kRollPerSeconds_ * kRollPerSeconds_`. -/
def startOf (now : Int) : Int := now.tdiv kRollPerSeconds * kRollPerSeconds

theorem startOf_mono {a b : Int} (ha : 0 ≤ a) (h : a ≤ b) : startOf a ≤ startOf b := by
  rw [startOf, startOf, Int.tdiv_eq_ediv_of_nonneg ha, Int.tdiv_eq_ediv_of_nonneg (ha.trans h)]
  exact Int.mul_le_mul_of_nonneg_right (Int.ediv_le_ediv (by decide) h) (by decide)

/-- ghost: a call of `append`, with the second that it reads. -/
structure LogRecord where
  data : Bytes
  now : Int

/-- What `localtime_r` says of a second. -/
structure LocalTime where
  year : Nat
  mon : Nat
  mday : Nat
  hour : Nat
  min : Nat
  sec : Nat

namespace LocalTime

def twoDigits (n : Nat) : Bytes := if n < 10 then 48 :: digits n else digits n

/-- `strftime` with `.%Y%m%d-%H%M%S.log`. -/
def timebuf (tm : LocalTime) : Bytes :=
  dot :: digits tm.year ++ twoDigits tm.mon ++ twoDigits tm.mday ++ ascii "-" ++ twoDigits tm.hour ++
    twoDigits tm.min ++ twoDigits tm.sec ++ ascii ".log"

end LocalTime

/-- What a `FileUtil` has been opened for and has been given, or, in `LogFile.files`, a file with all
that the `FileUtil`s of its name have been given. -/
structure RolledFile where
  name : Bytes
  util : FileUtil
  /-- the second of its opening -/
  opened : Int
  /-- ghost: the calls of `append` at which it was the current file -/
  records : List LogRecord

structure LogFile where
  basename : Bytes
  /-- `localtime_r`, in the time zone of the process -/
  localtime : Int → LocalTime
  rollsize : Int
  flushInterval : Int
  checkEveryN : Int
  count : Int
  startOfPeriod : Int
  lastRoll : Int
  lastFlush : Int
  file : Option RolledFile
  /-- ghost: the openings before this one, and the latest reading of the clock -/
  closed : List RolledFile
  clock : Int

namespace LogFile

def getLogFileName (now : Int) (s : LogFile) : Bytes :=
  s.basename ++ (s.localtime now).timebuf ++ ascii ".log"

/-- `rollFile()`, which reads `now`. -/
def rollFile (now : Int) (s : LogFile) : Bool × LogFile :=
  let filename := s.getLogFileName now
  let start := startOf now
  if now > s.lastRoll then
    (true, { s with
      lastRoll := now
      lastFlush := now
      startOfPeriod := start
      file := some ⟨filename, .new, now, []⟩
      closed := s.closed ++ s.file.toList
      clock := now })
  else (false, { s with clock := now })

/-- `LogFile(basename, rollsize, flushInterval, checkEveryN)`. -/
def new (basename : Bytes) (localtime : Int → LocalTime)
    (rollsize flushInterval checkEveryN now : Int) : LogFile :=
  (rollFile now
    { basename, localtime, rollsize, flushInterval, checkEveryN, count := 0, startOfPeriod := 0, lastRoll := 0
      lastFlush := 0, file := none, closed := [], clock := now }).2

/-- The roll triggers of `appendInlock`. -/
def checkRoll (written : Nat) (now rollNow : Int) (s : LogFile) : LogFile :=
  if written > s.rollsize then (s.rollFile rollNow).2
  else if s.count ≥ s.checkEveryN then
    let s := { s with count := 0 }
    let thisPeriod := startOf now
    if thisPeriod ≠ s.startOfPeriod then (s.rollFile rollNow).2 else s
  else s

def appendInlock (data : Bytes) (len now rollNow : Int) (calls : List Fwrite) (s : LogFile) :
    Option (Except Fault LogFile) :=
  match s.file with
  | none => some (.error .nullPointer)
  | some file =>
    if sizeOfInt len ≤ data.length then
      (file.util.append (data.take (sizeOfInt len)) calls).map fun util =>
        let file := { file with util, records := file.records ++ [⟨data, now⟩] }
        if s.count = INT_MAX then .error .outOfRange
        else
          let s := { s with file := some file, count := s.count + 1, clock := now }
          let s := s.checkRoll util.writtenbytes now rollNow
          .ok (if now - s.lastFlush > s.flushInterval then { s with lastFlush := now } else s)
    else some (.error .outOfBounds)

/-- `append(data, len)`: the length becomes an `int`. -/
def append (data : Bytes) (now rollNow : Int) (calls : List Fwrite) (s : LogFile) :
    Option (Except Fault LogFile) :=
  s.appendInlock data (intOfSize data.length) now rollNow calls

end LogFile

/-- A call of `append`, what the clock says during it, and how its writes go. -/
structure LogFileInput where
  data : Bytes
  now : Int
  rollNow : Int
  calls : List Fwrite

namespace LogFile

def step : Except Fault LogFile → LogFileInput → Option (Except Fault LogFile)
  | .error _, _ => none
  | .ok s, i =>
    if s.clock ≤ i.now ∧ i.now ≤ i.rollNow then s.append i.data i.now i.rollNow i.calls else none

end LogFile

/-! ### Files -/

namespace RolledFile

/-- A later `FileUtil` of the same name appends to the file. -/
def reopened (f g : RolledFile) : RolledFile :=
  { f with
    util := { g.util with content := f.util.content ++ g.util.content }
    records := f.records ++ g.records }

/-- The files of a directory, in the order of their creation, after another `fopen(name, "ae")` and
what is written behind it. -/
def opens (dir : List RolledFile) (g : RolledFile) : List RolledFile :=
  if ∃ f ∈ dir, f.name = g.name then
    dir.map fun f => if f.name = g.name then f.reopened g else f
  else dir ++ [g]

end RolledFile

namespace LogFile

/-- What has been opened, one after the other. -/
def openings (s : LogFile) : List RolledFile := s.closed ++ s.file.toList

def files (s : LogFile) : List RolledFile := s.openings.foldl RolledFile.opens []

/-- A record of `len` bytes makes `append` open a file: the current one is too large behind it, or
the period has changed when `count_` is due. -/
def Opens (len : Nat) (now rollNow : Int) (s : LogFile) : Prop :=
  rollNow > s.lastRoll ∧
    ((((s.file.map fun f => f.util.writtenbytes).getD 0 + len : Nat) : Int) > s.rollsize ∨
      s.count + 1 ≥ s.checkEveryN ∧ startOf now ≠ s.startOfPeriod)

instance (len : Nat) (now rollNow : Int) (s : LogFile) : Decidable (s.Opens len now rollNow) :=
  inferInstanceAs (Decidable (_ ∧ _))

/-- The file that is opened is a new one. -/
def NewName (len : Nat) (now rollNow : Int) (s : LogFile) : Prop :=
  s.Opens len now rollNow → s.getLogFileName rollNow ∉ s.files.map RolledFile.name

instance (len : Nat) (now rollNow : Int) (s : LogFile) : Decidable (s.NewName len now rollNow) :=
  inferInstanceAs (Decidable (_ → _))

/-- The length of the record is an `int`, and so is the count after it; and no file is opened
twice. -/
def Within : Except Fault LogFile → LogFileInput → Prop
  | .ok s, i => i.data.length < 2 ^ 31 ∧ s.count < INT_MAX ∧ s.NewName i.data.length i.now i.rollNow
  | .error _, _ => True

instance : ∀ r i, Decidable (Within r i)
  | .ok s, i => inferInstanceAs
    (Decidable (i.data.length < 2 ^ 31 ∧ s.count < INT_MAX ∧ s.NewName i.data.length i.now i.rollNow))
  | .error _, _ => isTrue trivial

end LogFile

namespace RolledFile

/-- The bytes of records. -/
def bytes (records : List LogRecord) : Bytes := records.flatMap LogRecord.data

/-- Each record is in the file as a whole, and counted. -/
structure Whole (f : RolledFile) : Prop where
  content : f.util.content = bytes f.records
  written : f.util.writtenbytes = (bytes f.records).length
  ferror : f.util.ferror = false

/-- A record that leaves the file too large in a later second than that of its opening is the
last. -/
def SizeBounded (rollsize : Int) (f : RolledFile) : Prop :=
  ∀ before r after, f.records = before ++ r :: after →
    (bytes (before ++ [r])).length > rollsize → r.now > f.opened → after = []

/-- The records whose calls read the clock in a later period than that of the opening. -/
def late (f : RolledFile) : List LogRecord :=
  f.records.filter fun r => startOf r.now > startOf f.opened

end RolledFile

namespace LogFile

/-- The records of all files, in the order of the files. -/
def recorded (s : LogFile) : List Bytes :=
  (s.files.flatMap RolledFile.records).map LogRecord.data

/-- The log that is to come of a run. -/
structure Rolls (rollsize checkEveryN : Int) (is : List LogFileInput) (s : LogFile) : Prop where
  whole : ∀ f ∈ s.files, f.util.content = RolledFile.bytes f.records
  recorded : s.recorded = is.map LogFileInput.data
  size : ∀ f ∈ s.files, f.SizeBounded rollsize
  period : 1 ≤ checkEveryN → ∀ f ∈ s.files, f.late.length ≤ checkEveryN

end LogFile

namespace RolledFile

variable {f : RolledFile} {r : LogRecord} {rollsize checkEveryN : Int} {util : FileUtil}

/-- What there is to say of a file that is not the current one any more. -/
structure Good (rollsize checkEveryN : Int) (f : RolledFile) : Prop where
  whole : f.Whole
  size : f.SizeBounded rollsize
  period : 1 ≤ checkEveryN → f.late.length ≤ checkEveryN

theorem good_new (rollsize checkEveryN now : Int) (name : Bytes) :
    Good rollsize checkEveryN ⟨name, .new, now, []⟩ where
  whole := ⟨rfl, rfl, rfl⟩
  size before r after h := by cases before <;> cases h
  period h := by
    change ((0 : Nat) : Int) ≤ checkEveryN
    omega

/-- Files of different names are opened one after the other. -/
theorem foldl_opens {dir gs : List RolledFile} (h : ((dir ++ gs).map name).Nodup) :
    gs.foldl opens dir = dir ++ gs := by
  induction gs generalizing dir with
  | nil => exact (List.append_nil dir).symm
  | cons g gs ih =>
    rw [← List.singleton_append, ← List.append_assoc] at h
    have hnew : ¬∃ f ∈ dir, f.name = g.name := by
      rintro ⟨f, hf, hname⟩
      rw [List.map_append, List.map_append] at h
      have hdir := List.Nodup.of_append_left h
      exact (List.nodup_append.mp hdir).2.2 _ (List.mem_map_of_mem hf) _
        (List.mem_singleton_self _) hname
    rw [List.foldl_cons, opens, if_neg hnew, ih h, List.append_assoc, List.singleton_append]

/-- The file with one record more. -/
def add (f : RolledFile) (r : LogRecord) (util : FileUtil) : RolledFile :=
  { f with util, records := f.records ++ [r] }

theorem Whole.add (h : f.Whole) (hutil : util = { f.util with
    content := f.util.content ++ r.data
    writtenbytes := f.util.writtenbytes + r.data.length }) : (f.add r util).Whole := by
  have hbytes : bytes (f.records ++ [r]) = bytes f.records ++ r.data := by
    rw [bytes, List.flatMap_append, List.flatMap_singleton]
    rfl
  subst hutil
  refine ⟨?_, ?_, h.ferror⟩
  · exact (congrArg (· ++ r.data) h.content).trans hbytes.symm
  · change f.util.writtenbytes + r.data.length = (bytes (f.records ++ [r])).length
    rw [hbytes, List.length_append, h.written]

theorem length_late_add (f : RolledFile) (r : LogRecord) (util : FileUtil) :
    (f.add r util).late.length ≤ f.late.length + 1 := by
  rw [late, late, add, List.filter_append, List.length_append]
  exact Nat.add_le_add_left (List.length_filter_le ..) _

/-- Nothing is late in a file before its period is over. -/
theorem late_eq_nil (h : ∀ r ∈ f.records, startOf r.now ≤ startOf f.opened) : f.late = [] := by
  rw [late, List.filter_eq_nil_iff]
  intro r hr
  rw [decide_eq_true_eq, not_lt]
  exact h r hr

/-- Its last record may leave a file too large; the records before it did not. -/
theorem sizeBounded_add (h : ∀ before r after, f.records = before ++ r :: after →
      (bytes (before ++ [r])).length > rollsize → r.now ≤ f.opened) :
    (f.add r util).SizeBounded rollsize := by
  intro before r' after hrecords hsize hlate
  obtain rfl | ⟨after, last, rfl⟩ := List.eq_nil_or_concat' after
  · rfl
  · have hrecords : f.records ++ [r] = before ++ r' :: (after ++ [last]) := hrecords
    rw [← List.cons_append, ← List.append_assoc] at hrecords
    obtain ⟨hrecords, -⟩ := List.append_inj' hrecords rfl
    exact absurd hlate (not_lt.mpr (h before r' after hrecords hsize))

end RolledFile

namespace LogFile

variable {s s' : LogFile} {f : RolledFile} {rollsize checkEveryN now rollNow : Int} {data : Bytes}
  {calls : List Fwrite}

/-- `f` is the current file, and all is well but for the roll triggers. -/
structure Inv (rollsize checkEveryN : Int) (s : LogFile) (f : RolledFile) : Prop where
  rollsize_eq : s.rollsize = rollsize
  checkEveryN_eq : s.checkEveryN = checkEveryN
  file : s.file = some f
  closed : ∀ g ∈ s.closed, g.Good rollsize checkEveryN
  names : (s.openings.map RolledFile.name).Nodup
  good : f.Good rollsize checkEveryN
  opened : f.opened = s.lastRoll
  startOfPeriod : s.startOfPeriod = startOf f.opened
  opened_pos : 0 < f.opened
  opened_le : f.opened ≤ s.clock
  past : ∀ r ∈ f.records, 0 ≤ r.now ∧ r.now ≤ s.clock
  count_nonneg : 0 ≤ s.count

/-- Between two calls the triggers have had their effect: the file is not too large, unless it was
opened within the second, and `count_` covers the late records in it. -/
structure Settled (rollsize checkEveryN : Int) (s : LogFile) (f : RolledFile) : Prop extends
    Inv rollsize checkEveryN s f where
  size : ∀ before r after, f.records = before ++ r :: after →
    (RolledFile.bytes (before ++ [r])).length > rollsize → r.now ≤ f.opened
  late : 1 ≤ checkEveryN → f.late.length ≤ s.count ∧ f.late.length < checkEveryN

theorem files_eq (h : (s.openings.map RolledFile.name).Nodup) : s.files = s.openings :=
  RolledFile.foldl_opens (by rwa [List.nil_append])

/-- The records in the order of the openings. -/
def logged (s : LogFile) : List Bytes :=
  (s.openings.flatMap RolledFile.records).map LogRecord.data

theorem Inv.recorded_eq (h : Inv rollsize checkEveryN s f) : s.recorded = s.logged := by
  rw [recorded, logged, files_eq h.names]

theorem logged_of_file (h : s.file = some f) : s.logged =
    (s.closed.flatMap RolledFile.records ++ f.records).map LogRecord.data := by
  rw [logged, openings, h, List.flatMap_append]
  simp

theorem Inv.late_eq_nil (h : Inv rollsize checkEveryN s f)
    (hclock : startOf s.clock ≤ startOf f.opened) : f.late = [] :=
  RolledFile.late_eq_nil fun r hr =>
    (startOf_mono (h.past r hr).1 (h.past r hr).2).trans hclock

theorem Inv.congr (h : Inv rollsize checkEveryN s f) {count clock : Int} (hcount : 0 ≤ count)
    (hclock : s.clock ≤ clock) : Inv rollsize checkEveryN { s with count, clock } f :=
  ⟨h.rollsize_eq, h.checkEveryN_eq, h.file, h.closed, h.names, h.good, h.opened, h.startOfPeriod,
    h.opened_pos, h.opened_le.trans hclock,
    fun r hr => ⟨(h.past r hr).1, (h.past r hr).2.trans hclock⟩, hcount⟩

/-- A file is settled without a roll if it is not too large, or was opened in this second. -/
theorem Inv.settled (h : Inv rollsize checkEveryN s f)
    (hsize : (RolledFile.bytes f.records).length ≤ rollsize ∨ s.clock ≤ f.opened)
    (hlate : 1 ≤ checkEveryN → f.late.length ≤ s.count ∧ f.late.length < checkEveryN) :
    Settled rollsize checkEveryN s f := by
  refine ⟨h, fun before r after hrecords hlarge => ?_, hlate⟩
  by_contra hnow
  cases h.good.size before r after hrecords hlarge (not_le.mp hnow)
  rw [← hrecords] at hlarge
  have hr : r ∈ f.records := hrecords ▸ List.mem_append_right _ (List.mem_singleton_self r)
  have hpast := (h.past r hr).2
  omega

/-- A roll that is not refused closes the file and opens another one. -/
theorem Inv.rollFile (h : Inv rollsize checkEveryN s f) (hroll : rollNow > s.lastRoll)
    (hname : s.getLogFileName rollNow ∉ s.openings.map RolledFile.name) :
    Settled rollsize checkEveryN (s.rollFile rollNow).2
        ⟨s.getLogFileName rollNow, .new, rollNow, []⟩ ∧
      (s.rollFile rollNow).2.logged = s.logged := by
  have hpos := h.opened_pos
  have hopened := h.opened
  rw [LogFile.rollFile, if_pos hroll]
  refine ⟨⟨⟨h.rollsize_eq, h.checkEveryN_eq, rfl, ?_, ?_, RolledFile.good_new .., rfl, rfl,
    by simp only; omega, le_refl _, fun r hr => absurd hr List.not_mem_nil, h.count_nonneg⟩, ?_,
    fun hN => ⟨h.count_nonneg, hN⟩⟩, ?_⟩
  · rw [h.file]
    exact List.forall_mem_append.mpr ⟨h.closed, List.forall_mem_singleton.mpr h.good⟩
  · change ((s.openings ++ [_]).map RolledFile.name).Nodup
    rw [List.map_append, List.map_singleton, ← List.concat_eq_append, List.nodup_concat]
    exact ⟨hname, h.names⟩
  · intro before r after hrecords
    cases before <;> cases hrecords
  · rw [logged_of_file h.file, logged_of_file rfl, h.file]
    simp

/-- A roll that is refused leaves all but the reading of the clock. -/
theorem rollFile_of_le (hroll : rollNow ≤ s.lastRoll) :
    (s.rollFile rollNow).2 = { s with clock := rollNow } := by
  rw [LogFile.rollFile, if_neg (not_lt.mpr hroll)]

/-- What the write of a record does, before the triggers are tested. -/
def written (f : RolledFile) (now : Int) (s : LogFile) : LogFile :=
  { s with file := some f, count := s.count + 1, clock := now }

/-- The file keeps its name. -/
theorem map_name_written (h : s.file = some f) (r : LogRecord) (util : FileUtil) (now : Int) :
    (s.written (f.add r util) now).openings.map RolledFile.name =
      s.openings.map RolledFile.name := by
  rw [openings, openings, h, List.map_append, List.map_append]
  rfl

/-- What the triggers open behind a write is a new file, as `NewName` has said before it. -/
theorem new_name_written (h : s.file = some f) {util : FileUtil} (hutil : util = { f.util with
      content := f.util.content ++ data, writtenbytes := f.util.writtenbytes + data.length })
    (r : LogRecord) (hname : s.Opens data.length now rollNow →
      s.getLogFileName rollNow ∉ s.openings.map RolledFile.name)
    (hroll : rollNow > (s.written (f.add r util) now).lastRoll)
    (hdue : util.writtenbytes > (s.written (f.add r util) now).rollsize ∨
      (s.written (f.add r util) now).count ≥ (s.written (f.add r util) now).checkEveryN ∧
        startOf now ≠ (s.written (f.add r util) now).startOfPeriod) :
    (s.written (f.add r util) now).getLogFileName rollNow ∉
      (s.written (f.add r util) now).openings.map RolledFile.name := by
  have hopens : s.Opens data.length now rollNow := by
    rw [hutil] at hdue
    rw [Opens, h]
    exact ⟨hroll, hdue⟩
  rw [map_name_written h]
  exact hname hopens

theorem Settled.written (h : Settled rollsize checkEveryN s f) (hnow : s.clock ≤ now)
    {util : FileUtil} (hutil : util = { f.util with
      content := f.util.content ++ data, writtenbytes := f.util.writtenbytes + data.length }) :
    Inv rollsize checkEveryN (s.written (f.add ⟨data, now⟩ util) now) (f.add ⟨data, now⟩ util) := by
  have hopened := h.opened_le.trans hnow
  have hpos := h.opened_pos
  refine ⟨h.rollsize_eq, h.checkEveryN_eq, rfl, h.closed, (map_name_written h.file ..).symm ▸ h.names,
    ⟨h.good.whole.add hutil, RolledFile.sizeBounded_add h.size, fun hN => ?_⟩, h.opened,
    h.startOfPeriod, hpos, hopened, ?_, Int.le_add_one h.count_nonneg⟩
  · have hlate := (h.late hN).2
    have hadd := f.length_late_add ⟨data, now⟩ util
    omega
  · refine List.forall_mem_append.mpr ⟨fun r hr => ?_, List.forall_mem_singleton.mpr ⟨?_, le_refl _⟩⟩
    · exact ⟨(h.past r hr).1, (h.past r hr).2.trans hnow⟩
    · exact hpos.le.trans hopened

theorem Settled.logged_written (h : Settled rollsize checkEveryN s f) (data : Bytes) (now : Int)
    (util : FileUtil) :
    (s.written (f.add ⟨data, now⟩ util) now).logged = s.logged ++ [data] := by
  rw [logged_of_file rfl, logged_of_file h.file, List.map_append, List.map_append, RolledFile.add,
    List.map_append, ← List.append_assoc]
  rfl

/-- **The triggers** settle what a write has left: a file that is too large is rolled unless it was
opened in this second, and one of an earlier period when `count_` is due. -/
theorem Settled.checkRoll (h : Settled rollsize checkEveryN s f) (hnow : s.clock ≤ now)
    (hrollNow : now ≤ rollNow)
    (hname : s.Opens data.length now rollNow →
      s.getLogFileName rollNow ∉ s.openings.map RolledFile.name)
    {util : FileUtil} (hutil : util = { f.util with
      content := f.util.content ++ data, writtenbytes := f.util.writtenbytes + data.length }) :
    ∃ g s', (s.written (f.add ⟨data, now⟩ util) now).checkRoll util.writtenbytes now rollNow = s' ∧
      Settled rollsize checkEveryN s' g ∧ s'.logged = s.logged ++ [data] := by
  have hinv := h.written hnow hutil
  have hlogged := h.logged_written data now util
  have hcount : 1 ≤ checkEveryN →
      (f.add ⟨data, now⟩ util).late.length ≤ (s.written (f.add ⟨data, now⟩ util) now).count := by
    intro hN
    have hlate := (h.late hN).1
    have hadd := f.length_late_add ⟨data, now⟩ util
    change _ ≤ s.count + 1
    omega
  have hbytes := hinv.good.whole.written
  have hlast : (s.written (f.add ⟨data, now⟩ util) now).clock = now := rfl
  have hnew := new_name_written h.file hutil ⟨data, now⟩ hname
  have hutil' : util.writtenbytes = (f.add ⟨data, now⟩ util).util.writtenbytes := rfl
  rw [hutil', hbytes] at hnew ⊢
  generalize s.written (f.add ⟨data, now⟩ util) now = s₁ at *
  generalize f.add ⟨data, now⟩ util = g at *
  have hrollsize := hinv.rollsize_eq
  have hopened := hinv.opened
  rw [LogFile.checkRoll]
  by_cases hsize : (RolledFile.bytes g.records).length > s₁.rollsize
  · rw [if_pos hsize]
    obtain hroll | hroll := lt_or_ge s₁.lastRoll rollNow
    · obtain ⟨hsettled, heq⟩ := hinv.rollFile hroll (hnew hroll (.inl hsize))
      exact ⟨_, _, rfl, hsettled, heq.trans hlogged⟩
    · rw [rollFile_of_le hroll]
      have hclock : Inv rollsize checkEveryN { s₁ with clock := rollNow } g :=
        hinv.congr hinv.count_nonneg (by omega)
      have hlate : g.late = [] :=
        hinv.late_eq_nil (startOf_mono (hinv.opened_pos.le.trans hinv.opened_le) (by omega))
      refine ⟨g, _, rfl, hclock.settled (.inr (by simp only; omega)) fun hN => ?_, hlogged⟩
      rw [hlate]
      exact ⟨hinv.count_nonneg, hN⟩
  · rw [if_neg hsize]
    by_cases hdue : s₁.count ≥ s₁.checkEveryN
    · rw [if_pos hdue]
      have hreset : Inv rollsize checkEveryN { s₁ with count := 0 } g :=
        hinv.congr (le_refl _) (le_refl _)
      by_cases hperiod : startOf now ≠ s₁.startOfPeriod
      · -- the period has changed since the opening, and so has the second
        have hroll : rollNow > s₁.lastRoll := by
          by_contra hle
          have hopened_le := hinv.opened_le
          refine hperiod ?_
          rw [hinv.startOfPeriod, show now = g.opened by omega]
        simp only
        rw [if_pos hperiod]
        obtain ⟨hsettled, heq⟩ := hreset.rollFile hroll (hnew hroll (.inr ⟨hdue, hperiod⟩))
        exact ⟨_, _, rfl, hsettled, heq.trans hlogged⟩
      · have hlate : g.late = [] := by
          refine hinv.late_eq_nil ?_
          rw [hlast, ← hinv.startOfPeriod, not_not.mp hperiod]
        simp only
        rw [if_neg hperiod]
        refine ⟨g, _, rfl, hreset.settled (.inl (by omega)) fun hN => ?_, hlogged⟩
        rw [hlate]
        exact ⟨le_refl _, hN⟩
    · rw [if_neg hdue]
      have hcheck := hinv.checkEveryN_eq
      refine ⟨g, _, rfl, hinv.settled (.inl (by omega)) fun hN => ⟨hcount hN, ?_⟩, hlogged⟩
      have := hcount hN
      omega

theorem Settled.flushed (h : Settled rollsize checkEveryN s f) :
    Settled rollsize checkEveryN { s with lastFlush := now } f :=
  ⟨⟨h.rollsize_eq, h.checkEveryN_eq, h.file, h.closed, h.names, h.good, h.opened, h.startOfPeriod,
    h.opened_pos, h.opened_le, h.past, h.count_nonneg⟩, h.size, h.late⟩

theorem Settled.append (h : Settled rollsize checkEveryN s f) (hdata : data.length < 2 ^ 31)
    (hcount : s.count < INT_MAX) (hcalls : ∀ c ∈ calls, c.error = false) (hnow : s.clock ≤ now)
    (hrollNow : now ≤ rollNow) (hname : s.NewName data.length now rollNow)
    {r : Except Fault LogFile}
    (hs : s.append data now rollNow calls = some r) :
    ∃ g s', r = .ok s' ∧ Settled rollsize checkEveryN s' g ∧
      s'.logged = s.logged ++ [data] := by
  rw [NewName, files_eq h.names] at hname
  have hlen : sizeOfInt (intOfSize data.length) = data.length := by
    rw [intOfSize_of_lt hdata, sizeOfInt_of_nonneg (by omega) (by omega), Int.toNat_natCast]
  rw [LogFile.append, appendInlock, h.file] at hs
  simp only [hlen, le_refl, if_true, List.take_length] at hs
  obtain ⟨util, hutil, rfl⟩ := Option.map_eq_some_iff.mp hs
  rw [if_neg hcount.ne]
  obtain ⟨g, s', hs', hsettled, hlogged⟩ := h.checkRoll hnow hrollNow hname
    (FileUtil.append_of_succeeds h.good.whole.ferror hcalls hutil)
  change (s.written (f.add ⟨data, now⟩ util) now).checkRoll util.writtenbytes now rollNow = s' at hs'
  refine ⟨g, if now - s'.lastFlush > s'.flushInterval then { s' with lastFlush := now } else s',
    ?_, ?_, ?_⟩
  · rw [← hs']
    rfl
  · split
    · exact hsettled.flushed
    · exact hsettled
  · split
    · exact hlogged
    · exact hlogged

theorem settled_new (basename : Bytes) (localtime : Int → LocalTime)
    (rollsize flushInterval checkEveryN : Int) {clock : Int} (h : 0 < clock) :
    Settled rollsize checkEveryN
        (new basename localtime rollsize flushInterval checkEveryN clock)
        ⟨basename ++ (localtime clock).timebuf ++ ascii ".log", .new, clock, []⟩ ∧
      (new basename localtime rollsize flushInterval checkEveryN clock).logged = [] := by
  rw [new, rollFile, if_pos h]
  refine ⟨⟨⟨rfl, rfl, rfl, fun g hg => absurd hg List.not_mem_nil, List.nodup_singleton _,
    RolledFile.good_new .., rfl, rfl, h, le_refl _, fun r hr => absurd hr List.not_mem_nil, le_refl _⟩, ?_, fun hN => ⟨le_refl _, hN⟩⟩,
    rfl⟩
  intro before r after hrecords
  cases before <;> cases hrecords

theorem Settled.run {is : List LogFileInput} {r : Except Fault LogFile}
    (h : Settled rollsize checkEveryN s f) (hcalls : ∀ i ∈ is, ∀ c ∈ i.calls, c.error = false)
    (hwithin : Run.Along step Within (.ok s) is) (hr : Run.run step (.ok s) is = some r) :
    ∃ g s', r = .ok s' ∧ Settled rollsize checkEveryN s' g ∧
      s'.logged = s.logged ++ is.map LogFileInput.data := by
  induction is generalizing s f with
  | nil =>
    cases hr
    exact ⟨f, s, rfl, h, (List.append_nil _).symm⟩
  | cons i is ih =>
    obtain ⟨hi, his⟩ := List.forall_mem_cons.mp hcalls
    obtain ⟨r₁, h₁, hr⟩ := Run.run_cons.mp hr
    obtain ⟨⟨hnow, hrollNow⟩, hs⟩ := Option.ite_none_right_eq_some.mp h₁
    obtain ⟨hdata, hcount, hname⟩ := hwithin.1
    obtain ⟨g, s₁, rfl, hsettled, hlogged⟩ := h.append hdata hcount hi hnow hrollNow hname hs
    obtain ⟨g', s', rfl, hsettled', hlogged'⟩ := ih hsettled his (hwithin.2 _ h₁) hr
    refine ⟨g', s', rfl, hsettled', ?_⟩
    rw [hlogged', hlogged, List.append_assoc, List.map_cons, List.singleton_append]

theorem Settled.rolls {is : List LogFileInput} (h : Settled rollsize checkEveryN s f)
    (hlogged : s.logged = is.map LogFileInput.data) : Rolls rollsize checkEveryN is s := by
  have hgood : ∀ g ∈ s.files, g.Good rollsize checkEveryN := by
    rw [files_eq h.names, openings, h.file]
    exact List.forall_mem_append.mpr ⟨h.closed, List.forall_mem_singleton.mpr h.good⟩
  exact ⟨fun g hg => (hgood g hg).whole.content, h.recorded_eq.trans hlogged, fun g hg => (hgood g hg).size,
    fun hN g hg => (hgood g hg).period hN⟩

/-- **Rolling.** In every run in which the writes succeed, no number outgrows an `int` and no file is
opened twice, each record is in one file as a whole and the files have the records in order; a record
that leaves a file too large in a later second than that of its opening is its last one; and no more
than `checkEveryN` records are written to a file after the period of its opening. -/
theorem rolls_of_run (basename : Bytes) (localtime : Int → LocalTime)
    (rollsize flushInterval checkEveryN clock : Int) (is : List LogFileInput)
    (r : Except Fault LogFile) (hclock : 0 < clock)
    (hcalls : ∀ i ∈ is, ∀ c ∈ i.calls, c.error = false)
    (hr : Run.run step
      (.ok (new basename localtime rollsize flushInterval checkEveryN clock)) is = some r)
    (hwithin : Run.Along step Within
      (.ok (new basename localtime rollsize flushInterval checkEveryN clock)) is) :
    ∃ s, r = .ok s ∧ Rolls rollsize checkEveryN is s := by
  obtain ⟨hnew, hnil⟩ :=
    settled_new basename localtime rollsize flushInterval checkEveryN hclock
  obtain ⟨g, s, rfl, hsettled, hlogged⟩ := hnew.run hcalls hwithin hr
  rw [hnil, List.nil_append] at hlogged
  exact ⟨s, rfl, hsettled.rolls hlogged⟩

/-- `localtime_r` in January 1970, in the time zone UTC. -/
def january (now : Int) : LocalTime :=
  ⟨1970, 1, now.toNat / 86400 + 1, now.toNat / 3600 % 24, now.toNat / 60 % 60, now.toNat % 60⟩

/-- A file that grows too large within the second of its opening is rolled a second later; the next
one is used for one record of the following day. -/
theorem rolls_of_run_day : ∃ s, Run.run step (.ok (new (ascii "m") january 3 3 2 100))
    [⟨ascii "ab", 100, 100, [⟨2, false⟩]⟩, ⟨ascii "cd", 100, 100, [⟨1, false⟩, ⟨1, false⟩]⟩,
      ⟨ascii "e", 101, 101, [⟨1, false⟩]⟩, ⟨ascii "f", 86400, 86400, [⟨1, false⟩]⟩] = some (.ok s) ∧
    s.files.length = 3 ∧ Rolls 3 2 [⟨ascii "ab", 100, 100, [⟨2, false⟩]⟩,
      ⟨ascii "cd", 100, 100, [⟨1, false⟩, ⟨1, false⟩]⟩, ⟨ascii "e", 101, 101, [⟨1, false⟩]⟩,
      ⟨ascii "f", 86400, 86400, [⟨1, false⟩]⟩] s := by
  obtain ⟨s, hs, hrolls⟩ := rolls_of_run (ascii "m") january 3 3 2 100
      [⟨ascii "ab", 100, 100, [⟨2, false⟩]⟩,
      ⟨ascii "cd", 100, 100, [⟨1, false⟩, ⟨1, false⟩]⟩, ⟨ascii "e", 101, 101, [⟨1, false⟩]⟩,
      ⟨ascii "f", 86400, 86400, [⟨1, false⟩]⟩] _ (by decide) (by decide) rfl (by decide)
  cases hs
  exact ⟨_, rfl, rfl, hrolls⟩

/-- A record of `2 ^ 32` bytes has length 0 as an `int`. -/
theorem not_rolls_of_run : ¬∀ (basename : Bytes) (localtime : Int → LocalTime)
    (rollsize flushInterval checkEveryN clock : Int) (is : List LogFileInput)
    (r : Except Fault LogFile),
    (∀ i ∈ is, ∀ c ∈ i.calls, c.error = false) →
    Run.run step
      (.ok (new basename localtime rollsize flushInterval checkEveryN clock)) is = some r →
      ∃ s, r = .ok s ∧ Rolls rollsize checkEveryN is s := by
  intro hall
  obtain ⟨data, hdata⟩ : ∃ data : Bytes, data.length = 2 ^ 32 :=
    ⟨List.replicate (2 ^ 32) 120, List.length_replicate⟩
  have hlen : sizeOfInt (intOfSize data.length) = 0 := by
    rw [hdata, (intOfSize_eq_iff (y := 0) (by decide)).mpr (by decide)]
    decide
  have hstep : ∃ s f, Run.run step (.ok (new (ascii "m") january 1000 3 1024 1))
      [⟨data, 1, 1, []⟩] = some (.ok s) ∧ s.files = [f] ∧ f.util.content = [] ∧
        f.records = [⟨data, 1⟩] := by
    have happend : ∃ s f, (new (ascii "m") january 1000 3 1024 1).append data 1 1 [] = some (.ok s) ∧
        s.files = [f] ∧ f.util.content = [] ∧ f.records = [⟨data, 1⟩] := by
      rw [LogFile.append, appendInlock, hlen]
      exact ⟨_, _, rfl, rfl, rfl, rfl⟩
    obtain ⟨s, f, hs, hfile⟩ := happend
    refine ⟨s, f, Run.run_cons.mpr ⟨.ok s, ?_, rfl⟩, hfile⟩
    rw [step, if_pos ⟨le_refl (1 : Int), le_refl (1 : Int)⟩]
    exact hs
  obtain ⟨s, f, hs, hfiles, hcontent, hrecords⟩ := hstep
  obtain ⟨_, heq, hrolls⟩ := hall (ascii "m") january 1000 3 1024 1 _ _ (by simp) hs
  cases heq
  have hwhole := hrolls.whole f (hfiles ▸ List.mem_singleton_self _)
  have hlength := congrArg List.length hwhole
  rw [hcontent, hrecords, RolledFile.bytes, List.flatMap_singleton, hdata] at hlength
  cases hlength

/-- Short records are not enough: an hour after the first file is opened, the clocks go back an hour,
and the third opening finds it. -/
theorem not_rolls_of_run_clocks_back : ¬∀ (basename : Bytes) (localtime : Int → LocalTime)
    (rollsize flushInterval checkEveryN clock : Int) (is : List LogFileInput)
    (r : Except Fault LogFile), (∀ i ∈ is, i.data.length < 2 ^ 31) →
    (∀ i ∈ is, ∀ c ∈ i.calls, c.error = false) →
    Run.run step
      (.ok (new basename localtime rollsize flushInterval checkEveryN clock)) is = some r →
      ∃ s, r = .ok s ∧ Rolls rollsize checkEveryN is s := by
  intro hall
  obtain ⟨s, hs, hrolls⟩ := hall (ascii "m")
    (fun now => january (if now < 3600 then now + 3600 else now)) 0 3 1024 1
    [⟨ascii "a", 2, 2, [⟨1, false⟩]⟩, ⟨ascii "b", 3601, 3601, [⟨1, false⟩]⟩,
      ⟨ascii "c", 3601, 3601, [⟨1, false⟩]⟩] _ (by decide) (by decide) rfl
  cases hs
  have hrecorded := hrolls.recorded
  revert hrecorded
  decide

end LogFile

end MuduoX
