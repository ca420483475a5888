import MuduoX.Buffer
import MuduoX.Theory.Run

/-! The buffer as it lies in memory (`include/Buffer.h`, `src/Buffer.cpp`).

`RawBuffer` is the vector with its two indices and nothing that relates them. Every access to the
vector is checked, and ends the call in a fault where it leaves the vector; `size_t` wraps. A run
calls the operations one after the other, as their callers may: a pointer or a length that is passed
to `retrieveUntil` and `retrieveAsString` lies in the readable range, and the vector and the bytes of
one call lie in one address space. A `Buffer` is a `RawBuffer` that keeps the layout; `ByteQueue` is
what the class is for. -/

namespace MuduoX

/-- `std::vector<char>::max_size()`, the largest `ptrdiff_t`. -/
def maxSize : Nat := 2 ^ 63 - 1

/-- The sum and the difference of two `size_t`. -/
def sizeAdd (m n : Nat) : Nat := (m + n) % 2 ^ 64
def sizeSub (m n : Nat) : Nat := (m + 2 ^ 64 - n) % 2 ^ 64

theorem sizeAdd_eq {m n : Nat} (h : m + n ≤ maxSize + kCheapPrepend) : sizeAdd m n = m + n := by
  simp only [maxSize, kCheapPrepend] at h
  simp only [sizeAdd]
  omega

theorem sizeSub_eq {m n : Nat} (h : n ≤ m) (hm : m ≤ maxSize) : sizeSub m n = m - n := by
  simp only [maxSize] at hm
  simp only [sizeSub]
  omega

/-- `sizeof(extrabuf)` in `readFd`. -/
def extrabufSize : Nat := 66536

structure RawBuffer where
  buffer : Bytes
  readerIndex : Nat
  writerIndex : Nat
  deriving DecidableEq

/-- What a call returns. -/
inductive BufferResult where
  | void
  | string (result : Bytes)
  /-- `readFd`: the result of `readv`, and what is stored to `*saveErrno` -/
  | read (n : Int) (saveErrno : Option Int)
  deriving DecidableEq

namespace RawBuffer

def new (initSize : Nat) : RawBuffer where
  buffer := List.replicate (sizeAdd kCheapPrepend initSize) 0
  readerIndex := kCheapPrepend
  writerIndex := kCheapPrepend

def readableBytes (b : RawBuffer) : Nat := sizeSub b.writerIndex b.readerIndex
def writableBytes (b : RawBuffer) : Nat := sizeSub b.buffer.length b.writerIndex
def prependableBytes (b : RawBuffer) : Nat := b.readerIndex

/-- The bytes in `[peek(), peek() + readableBytes())`. -/
def readable (b : RawBuffer) : Bytes := slice b.buffer b.readerIndex b.writerIndex

/-- The bytes of the vector in `[i, i + len)`. -/
def load (bs : Bytes) (i len : Nat) : Except Fault Bytes :=
  if i + len ≤ bs.length then .ok (slice bs i (i + len)) else .error .outOfBounds

/-- Writing `data` to the vector at `i`. -/
def store (bs : Bytes) (i : Nat) (data : Bytes) : Except Fault Bytes :=
  if i + data.length ≤ bs.length then .ok (Buffer.overwrite bs i data) else .error .outOfBounds

/-- The loop of `std::copy` over `n` bytes of the vector itself. -/
def copyLoop (bs : Bytes) (first dest : Nat) : Nat → Except Fault Bytes
  | 0 => .ok bs
  | n + 1 =>
    match bs[first]? with
    | none => .error .outOfBounds
    | some c =>
      if dest < bs.length then copyLoop (bs.set dest c) (first + 1) (dest + 1) n
      else .error .outOfBounds

/-- `std::copy(first, last, dest)`, which must not be called with `dest` in `[first, last)`. -/
def copy (bs : Bytes) (first last dest : Nat) : Except Fault Bytes :=
  if first ≤ dest ∧ dest < last then .error .invalidArgument
  else copyLoop bs first dest (last - first)

def retrieveAll (b : RawBuffer) : RawBuffer :=
  { b with readerIndex := kCheapPrepend, writerIndex := kCheapPrepend }

def retrieve (b : RawBuffer) (len : Nat) : RawBuffer :=
  if len < b.readableBytes then { b with readerIndex := sizeAdd b.readerIndex len }
  else b.retrieveAll

/-- `retrieveUntil(end)`, where `end` is the offset of the pointer from `peek()`. -/
def retrieveUntil (b : RawBuffer) (last : Nat) : RawBuffer := b.retrieve last

def retrieveAsString (b : RawBuffer) (len : Nat) : Except Fault (RawBuffer × Bytes) :=
  (load b.buffer b.readerIndex len).map fun result => (b.retrieve len, result)

def retrieveAllAsString (b : RawBuffer) : Except Fault (RawBuffer × Bytes) :=
  b.retrieveAsString b.readableBytes

def makeSpace (b : RawBuffer) (len : Nat) : Except Fault RawBuffer :=
  if sizeAdd b.writableBytes b.prependableBytes < sizeAdd len kCheapPrepend then
    .ok { b with buffer := Buffer.resize b.buffer (sizeAdd b.writerIndex len) }
  else
    let readable := b.readableBytes
    (copy b.buffer b.readerIndex b.writerIndex kCheapPrepend).map fun buffer =>
      { buffer := buffer
        readerIndex := kCheapPrepend
        writerIndex := sizeAdd kCheapPrepend readable }

def ensureWritableBytes (b : RawBuffer) (len : Nat) : Except Fault RawBuffer :=
  if b.writableBytes < len then b.makeSpace len else .ok b

def append (b : RawBuffer) (data : Bytes) : Except Fault RawBuffer :=
  (b.ensureWritableBytes data.length).bind fun b =>
  (store b.buffer b.writerIndex data).map fun buffer =>
    { b with buffer := buffer, writerIndex := sizeAdd b.writerIndex data.length }

/-- What `readv` is offered. -/
def capacity (b : RawBuffer) : Nat :=
  b.writableBytes + if b.writableBytes < extrabufSize then extrabufSize else 0

/-- `readFd`, when `readv` delivers `data`: its first bytes go to the vector, the others to
`extrabuf`. -/
def readFd (b : RawBuffer) (data : Bytes) : Except Fault RawBuffer :=
  let writable := b.writableBytes
  (store b.buffer b.writerIndex (data.take writable)).bind fun buffer =>
  let b := { b with buffer := buffer }
  if data.length ≤ writable then
    .ok { b with writerIndex := sizeAdd b.writerIndex data.length }
  else
    append { b with writerIndex := sizeAdd b.writerIndex writable } (data.drop writable)

end RawBuffer

inductive BufferInput where
  | append (data : Bytes)
  | ensureWritableBytes (len : Nat)
  | retrieve (len : Nat)
  | retrieveUntil (last : Nat)
  | retrieveAsString (len : Nat)
  | retrieveAll
  | retrieveAllAsString
  | readFd (data : Bytes)
  /-- `readv` fails with this `errno` -/
  | readFdError (errno : Int)
  deriving DecidableEq

namespace BufferInput

/-- The bytes that a call may need room for. -/
def length : BufferInput → Nat
  | append data | readFd data => data.length
  | ensureWritableBytes len => len
  | _ => 0

/-- The pointers, lengths and answers of `readv` that a call can meet. -/
def InRange (b : RawBuffer) : BufferInput → Prop
  | retrieveUntil len | retrieveAsString len => len ≤ b.readableBytes
  | readFd data => data.length ≤ b.capacity
  | _ => True

instance (b : RawBuffer) : DecidablePred (InRange b)
  | retrieveUntil _ | retrieveAsString _ | readFd _ => inferInstanceAs (Decidable (_ ≤ _))
  | append _ | ensureWritableBytes _ | retrieve _ | retrieveAll | retrieveAllAsString
  | readFdError _ => inferInstanceAs (Decidable True)

end BufferInput

namespace RawBuffer

def call (b : RawBuffer) : BufferInput → Except Fault (RawBuffer × BufferResult)
  | .append data => (b.append data).map (·, .void)
  | .ensureWritableBytes len => (b.ensureWritableBytes len).map (·, .void)
  | .retrieve len => .ok (b.retrieve len, .void)
  | .retrieveUntil last => .ok (b.retrieveUntil last, .void)
  | .retrieveAsString len => (b.retrieveAsString len).map fun r => (r.1, .string r.2)
  | .retrieveAll => .ok (b.retrieveAll, .void)
  | .retrieveAllAsString => b.retrieveAllAsString.map fun r => (r.1, .string r.2)
  | .readFd data => (b.readFd data).map (·, .read data.length none)
  | .readFdError errno => .ok (b, .read (-1) (some errno))

/-- A call, with the results of the calls so far. -/
def step : Except Fault (RawBuffer × List BufferResult) → BufferInput →
    Option (Except Fault (RawBuffer × List BufferResult))
  | .error _, _ => none
  | .ok (b, rs), i =>
    if i.InRange b ∧ b.buffer.length + i.length ≤ maxSize then
      some ((b.call i).map fun r => (r.1, rs ++ [r.2]))
    else none

end RawBuffer

/-! ### The queue -/

/-- A queue of bytes: what has been put into it, and how much of that has been taken out. -/
structure ByteQueue where
  appended : Bytes
  retrieved : Nat
  retrieved_le : retrieved ≤ appended.length

namespace ByteQueue

def empty : ByteQueue := ⟨[], 0, Nat.le_refl _⟩

def content (q : ByteQueue) : Bytes := q.appended.drop q.retrieved

def push (q : ByteQueue) (data : Bytes) : ByteQueue where
  appended := q.appended ++ data
  retrieved := q.retrieved
  retrieved_le := by
    rw [List.length_append]
    exact Nat.le_add_right_of_le q.retrieved_le

/-- The first `n` bytes are taken out, or all where there are fewer. -/
def pop (q : ByteQueue) (n : Nat) : ByteQueue where
  appended := q.appended
  retrieved := min (q.retrieved + n) q.appended.length
  retrieved_le := Nat.min_le_right _ _

@[simp] theorem content_empty : empty.content = [] := rfl

@[simp] theorem content_push (q : ByteQueue) (data : Bytes) :
    (q.push data).content = q.content ++ data :=
  List.drop_append_of_le_length q.retrieved_le

@[simp] theorem content_pop (q : ByteQueue) (n : Nat) :
    (q.pop n).content = q.content.drop n := by
  rw [content, content, List.drop_drop]
  change q.appended.drop (min (q.retrieved + n) q.appended.length) = _
  obtain h | h := Nat.le_total (q.retrieved + n) q.appended.length
  · rw [Nat.min_eq_left h]
  · rw [Nat.min_eq_right h, List.drop_length, List.drop_eq_nil_of_le h]

def call (q : ByteQueue) : BufferInput → ByteQueue × BufferResult
  | .append data => (q.push data, .void)
  | .ensureWritableBytes _ => (q, .void)
  | .retrieve len | .retrieveUntil len => (q.pop len, .void)
  | .retrieveAsString len => (q.pop len, .string (q.content.take len))
  | .retrieveAll => (q.pop q.content.length, .void)
  | .retrieveAllAsString => (q.pop q.content.length, .string q.content)
  | .readFd data => (q.push data, .read data.length none)
  | .readFdError errno => (q, .read (-1) (some errno))

/-- The queue after a list of calls, and their results. -/
def calls (q : ByteQueue) : List BufferInput → ByteQueue × List BufferResult
  | [] => (q, [])
  | i :: is => (((q.call i).1.calls is).1, (q.call i).2 :: ((q.call i).1.calls is).2)

end ByteQueue

/-! ### A buffer with its layout -/

namespace Buffer

/-- The memory of a buffer. -/
def raw (b : Buffer) : RawBuffer := ⟨b.buffer, b.readerIndex, b.writerIndex⟩

variable {b : Buffer} {len : Nat} {data : Bytes}

theorem raw_new {initSize : Nat} (h : kCheapPrepend + initSize ≤ maxSize) :
    RawBuffer.new initSize = (new initSize).raw := by
  rw [RawBuffer.new, sizeAdd_eq (by omega)]
  rfl

theorem raw_readableBytes (h : b.buffer.length ≤ maxSize) :
    b.raw.readableBytes = b.readableBytes :=
  sizeSub_eq b.reader_le (Nat.le_trans b.writer_le h)

theorem raw_writableBytes (h : b.buffer.length ≤ maxSize) :
    b.raw.writableBytes = b.writableBytes := sizeSub_eq b.writer_le h

theorem raw_retrieve (h : b.buffer.length ≤ maxSize) :
    b.raw.retrieve len = (b.retrieve len).raw := by
  rw [RawBuffer.retrieve, retrieve, raw_readableBytes h]
  split
  · rename_i hlt
    have := b.writer_le
    rw [readableBytes] at hlt
    rw [sizeAdd_eq (show b.raw.readerIndex + len ≤ _ by simp only [raw]; omega)]
    rfl
  · rfl

theorem raw_retrieveAsString (h : b.buffer.length ≤ maxSize) (hlen : len ≤ b.readableBytes) :
    b.raw.retrieveAsString len = .ok ((b.retrieve len).raw, b.readable.take len) := by
  have hw := b.writer_le
  have hr := b.reader_le
  rw [readableBytes] at hlen
  rw [RawBuffer.retrieveAsString, raw_retrieve h, RawBuffer.load,
    if_pos (show b.raw.readerIndex + len ≤ b.raw.buffer.length by simp only [raw]; omega)]
  refine congrArg (fun s => Except.ok ((b.retrieve len).raw, s)) ?_
  simp only [raw, readable, slice, List.take_drop, List.take_take]
  rw [Nat.min_eq_left (by omega)]

/-! ### Sliding the readable bytes -/

theorem overwrite_set {bs : Bytes} {dest : Nat} {c : Byte} (h : dest < bs.length) :
    overwrite (bs.set dest c) (dest + 1) data = overwrite bs dest (c :: data) := by
  rw [overwrite, overwrite, List.drop_set_of_lt (by omega), List.take_add_one, List.take_set_of_le
    (Nat.le_refl _), List.getElem?_set_self h, List.length_cons, Nat.add_assoc,
    Nat.add_comm 1]
  simp only [Option.toList_some, List.append_assoc, List.singleton_append]

/-- A forward copy to a lower address is right although the ranges overlap: what it overwrites has
been read before. -/
theorem copyLoop_eq {bs : Bytes} {first dest n : Nat} (h : dest < first)
    (hlen : first + n ≤ bs.length) : RawBuffer.copyLoop bs first dest n =
      .ok (overwrite bs dest (slice bs first (first + n))) := by
  induction n generalizing bs first dest with
  | zero => simp [RawBuffer.copyLoop, overwrite, slice]
  | succ n ih =>
    have hfirst : first < bs.length := by omega
    have hslice : slice bs first (first + (n + 1)) =
        bs[first] :: slice bs (first + 1) (first + 1 + n) := by
      rw [slice, slice, List.drop_eq_getElem_cons (by rw [List.length_take]; omega),
        List.getElem_take, Nat.add_right_comm, Nat.add_assoc]
    have hset : slice (bs.set dest bs[first]) (first + 1) (first + 1 + n) =
        slice bs (first + 1) (first + 1 + n) := by
      rw [slice, slice, List.take_set, List.drop_set_of_lt (by omega)]
    rw [RawBuffer.copyLoop, List.getElem?_eq_getElem hfirst]
    simp only [if_pos (show dest < bs.length by omega)]
    rw [ih (by omega) (by rw [List.length_set]; omega), hset, overwrite_set (by omega), hslice]

theorem raw_makeSpace (h : b.buffer.length + len ≤ maxSize) (hlen : b.writableBytes < len) :
    b.raw.makeSpace len = .ok (b.makeSpace len).raw := by
  have h₁ := b.prepend_le
  have h₂ := b.reader_le
  have h₃ := b.writer_le
  rw [RawBuffer.makeSpace, makeSpace, raw_writableBytes (by omega), raw_readableBytes (by omega),
    sizeAdd_eq (by simp only [writableBytes, RawBuffer.prependableBytes, raw]; omega),
    sizeAdd_eq (by omega)]
  change (if b.writableBytes + b.prependableBytes < _ then _ else _) = _
  split
  · rw [sizeAdd_eq (by simp only [raw]; omega)]
    rfl
  · rename_i hroom
    simp only [writableBytes, prependableBytes] at hroom hlen
    have hcopy : RawBuffer.copy b.buffer b.readerIndex b.writerIndex kCheapPrepend =
        .ok (overwrite b.buffer kCheapPrepend b.readable) := by
      rw [RawBuffer.copy, if_neg (by omega), copyLoop_eq (by omega) (by omega),
        Nat.add_sub_cancel' h₂]
      rfl
    simp only [raw, hcopy, readableBytes]
    rw [sizeAdd_eq (by omega)]
    rfl

theorem raw_ensureWritableBytes (h : b.buffer.length + len ≤ maxSize) :
    b.raw.ensureWritableBytes len = .ok (b.ensureWritableBytes len).raw := by
  rw [RawBuffer.ensureWritableBytes, ensureWritableBytes, raw_writableBytes (by omega)]
  split
  · exact raw_makeSpace h (by assumption)
  · rfl

theorem length_makeSpace_le : (b.makeSpace len).buffer.length ≤ b.buffer.length + len := by
  have := b.reader_le
  have := b.writer_le
  have := b.prepend_le
  rw [makeSpace]
  split
  · simp only [resize_length]
    omega
  · rw [overwrite_length (by rw [readable_length, readableBytes]; omega)]
    omega

theorem length_ensureWritableBytes_le :
    (b.ensureWritableBytes len).buffer.length ≤ b.buffer.length + len := by
  rw [ensureWritableBytes]
  split
  · exact length_makeSpace_le
  · omega

theorem length_append_le : (b.append data).buffer.length ≤ b.buffer.length + data.length := by
  rw [append]
  simp only [overwrite_length (append_fits b data.length)]
  exact length_ensureWritableBytes_le

theorem length_retrieve : (b.retrieve len).buffer.length = b.buffer.length := by
  rw [retrieve]
  split <;> rfl

theorem raw_append (h : b.buffer.length + data.length ≤ maxSize) :
    b.raw.append data = .ok (b.append data).raw := by
  have hfits := append_fits b data.length
  have hlen : (b.ensureWritableBytes data.length).buffer.length ≤ b.buffer.length + data.length :=
    length_ensureWritableBytes_le
  rw [RawBuffer.append, raw_ensureWritableBytes h]
  have hstore : RawBuffer.store (b.ensureWritableBytes data.length).raw.buffer
      (b.ensureWritableBytes data.length).raw.writerIndex data =
        .ok (overwrite (b.ensureWritableBytes data.length).buffer
          (b.ensureWritableBytes data.length).writerIndex data) := if_pos hfits
  simp only [Except.bind, hstore, Except.map]
  rw [sizeAdd_eq (by simp only [raw]; omega)]
  rfl

theorem append_of_le (h : data.length ≤ b.writableBytes) : (b.append data).raw =
    ⟨overwrite b.buffer b.writerIndex data, b.readerIndex, b.writerIndex + data.length⟩ := by
  have hroom : b.ensureWritableBytes data.length = b := by
    rw [ensureWritableBytes, if_neg (by omega)]
  simp only [append, hroom, raw]

/-- `readFd` appends what has been read, in two pieces where the vector has been too small. -/
theorem raw_readFd (h : b.buffer.length + data.length ≤ maxSize) :
    ∃ b' : Buffer, b.raw.readFd data = .ok b'.raw ∧ b'.readable = b.readable ++ data ∧
      b'.buffer.length ≤ b.buffer.length + data.length := by
  have hw := b.writer_le
  have hfits : b.writerIndex + (data.take b.writableBytes).length ≤ b.buffer.length := by
    rw [List.length_take, writableBytes]
    omega
  have hstore : RawBuffer.store b.raw.buffer b.raw.writerIndex (data.take b.writableBytes) =
      .ok (overwrite b.buffer b.writerIndex (data.take b.writableBytes)) := if_pos hfits
  rw [RawBuffer.readFd, raw_writableBytes (by omega)]
  simp only [hstore, Except.bind]
  split
  · rename_i hle
    refine ⟨b.append data, ?_, readable_append b data, length_append_le⟩
    rw [append_of_le hle, List.take_of_length_le hle, sizeAdd_eq (by simp only [raw]; omega)]
    rfl
  · rename_i hlt
    -- `extrabuf` holds the rest
    have htake : (data.take b.writableBytes).length = b.writableBytes := by
      rw [List.length_take]
      omega
    have hsame : (b.append (data.take b.writableBytes)).buffer.length = b.buffer.length := by
      have hraw : (b.append (data.take b.writableBytes)).raw = _ := append_of_le (by omega)
      exact (congrArg (List.length ∘ RawBuffer.buffer) hraw).trans (overwrite_length hfits)
    have hdrop := List.length_drop (l := data) (i := b.writableBytes)
    refine ⟨(b.append (data.take b.writableBytes)).append (data.drop b.writableBytes), ?_, ?_,
      Nat.le_trans length_append_le (by omega)⟩
    · rw [← raw_append (by omega), append_of_le (by omega), htake,
        sizeAdd_eq (by simp only [raw, writableBytes]; omega)]
      rfl
    · rw [readable_append, readable_append, List.append_assoc, List.take_append_drop]

/-! ### Runs -/

variable {q : ByteQueue} {i : BufferInput} {is : List BufferInput} {rs : List BufferResult}
  {r : Except Fault (RawBuffer × List BufferResult)}

/-- A call on a buffer is a call on its queue. -/
theorem call_sim (hq : b.readable = q.content) (hi : i.InRange b.raw)
    (hlen : b.buffer.length + i.length ≤ maxSize) :
    ∃ b' : Buffer, b.raw.call i = .ok (b'.raw, (q.call i).2) ∧
      b'.readable = (q.call i).1.content ∧ b'.buffer.length ≤ b.buffer.length + i.length := by
  have hb : b.buffer.length ≤ maxSize := by omega
  cases i with
  | append data =>
    refine ⟨b.append data, ?_, by rw [readable_append, hq]; exact (q.content_push data).symm,
      length_append_le⟩
    rw [RawBuffer.call, raw_append hlen]
    rfl
  | ensureWritableBytes len =>
    refine ⟨b.ensureWritableBytes len, ?_, by rwa [readable_ensureWritableBytes],
      length_ensureWritableBytes_le⟩
    change b.buffer.length + len ≤ maxSize at hlen
    rw [RawBuffer.call, raw_ensureWritableBytes hlen]
    rfl
  | retrieve len =>
    refine ⟨b.retrieve len, ?_, by rw [readable_retrieve, hq]; exact (q.content_pop len).symm,
      Nat.le_of_eq length_retrieve⟩
    rw [RawBuffer.call, raw_retrieve hb]
    rfl
  | retrieveUntil last =>
    refine ⟨b.retrieve last, ?_, by rw [readable_retrieve, hq]; exact (q.content_pop last).symm,
      Nat.le_of_eq length_retrieve⟩
    rw [RawBuffer.call, RawBuffer.retrieveUntil, raw_retrieve hb]
    rfl
  | retrieveAsString len =>
    refine ⟨b.retrieve len, ?_, by rw [readable_retrieve, hq]; exact (q.content_pop len).symm,
      Nat.le_of_eq length_retrieve⟩
    rw [RawBuffer.call, raw_retrieveAsString hb (raw_readableBytes hb ▸ hi), hq]
    rfl
  | retrieveAll =>
    refine ⟨b.retrieveAll, rfl, ?_, Nat.le_refl _⟩
    rw [readable_retrieveAll, ByteQueue.call, q.content_pop, List.drop_length]
  | retrieveAllAsString =>
    refine ⟨b.retrieve b.readableBytes, ?_, ?_, Nat.le_of_eq length_retrieve⟩
    · rw [RawBuffer.call, RawBuffer.retrieveAllAsString, raw_readableBytes hb,
        raw_retrieveAsString hb (Nat.le_refl _), ← readable_length, List.take_length, hq]
      rfl
    · rw [readable_retrieve, ByteQueue.call, q.content_pop, ← hq, readable_length]
  | readFd data =>
    obtain ⟨b', hb', hreadable, hlen'⟩ := raw_readFd hlen
    refine ⟨b', ?_, by rw [hreadable, hq]; exact (q.content_push data).symm, hlen'⟩
    rw [RawBuffer.call, hb']
    rfl
  | readFdError errno => exact ⟨b, rfl, hq, Nat.le_refl _⟩

theorem step_sim (hq : b.readable = q.content)
    (hs : RawBuffer.step (.ok (b.raw, rs)) i = some r) :
    ∃ b' : Buffer, r = .ok (b'.raw, rs ++ [(q.call i).2]) ∧ b.raw.call i =
      .ok (b'.raw, (q.call i).2) ∧ b'.readable = (q.call i).1.content := by
  obtain ⟨⟨hi, hlen⟩, hs⟩ := Option.ite_none_right_eq_some.mp hs
  obtain ⟨b', hb', hreadable, -⟩ := call_sim hq hi hlen
  rw [hb'] at hs
  exact ⟨b', (Option.some.inj hs).symm, hb', hreadable⟩

theorem run_sim (hq : b.readable = q.content)
    (hr : Run.run RawBuffer.step (.ok (b.raw, rs)) is = some r) :
    ∃ b' : Buffer, r = .ok (b'.raw, rs ++ (q.calls is).2) ∧
      b'.readable = (q.calls is).1.content := by
  induction is generalizing b q rs with
  | nil =>
    cases hr
    exact ⟨b, by rw [ByteQueue.calls, List.append_nil], hq⟩
  | cons i is ih =>
    obtain ⟨r₁, h₁, hr⟩ := Run.run_cons.mp hr
    obtain ⟨b₁, rfl, -, hq₁⟩ := step_sim hq h₁
    obtain ⟨b', rfl, hq'⟩ := ih hq₁ hr
    exact ⟨b', by rw [ByteQueue.calls, List.append_assoc, List.singleton_append], hq'⟩

end Buffer

namespace RawBuffer

/-- **The buffer is a FIFO queue of bytes.** In every run, from every initial size, no call leaves
the vector; the indices stay in order, the readable bytes are what the queue holds, the calls return
what it returns, and `ensureWritableBytes(len)` leaves room for `len` bytes. -/
theorem refines_queue (initSize : Nat) (hsize : kCheapPrepend + initSize ≤ maxSize)
    (is : List BufferInput) (r : Except Fault (RawBuffer × List BufferResult))
    (hr : Run.run step (.ok (new initSize, [])) is = some r) :
    ∃ b : RawBuffer, r = .ok (b, (ByteQueue.empty.calls is).2) ∧
      kCheapPrepend ≤ b.readerIndex ∧ b.readerIndex ≤ b.writerIndex ∧
      b.writerIndex ≤ b.buffer.length ∧ b.readable = (ByteQueue.empty.calls is).1.content ∧
      ∀ js len, is = js ++ [.ensureWritableBytes len] → len ≤ b.buffer.length - b.writerIndex := by
  rw [Buffer.raw_new hsize] at hr
  obtain ⟨b, rfl, hreadable⟩ := Buffer.run_sim (q := .empty) (Buffer.readable_new _) hr
  refine ⟨b.raw, rfl, b.prepend_le, b.reader_le, b.writer_le, hreadable, fun js len his => ?_⟩
  subst his
  obtain ⟨r₁, h₁, hlast⟩ := Run.run_append.mp hr
  obtain ⟨b₁, rfl, hq₁⟩ := Buffer.run_sim (q := .empty) (Buffer.readable_new _) h₁
  obtain ⟨_, hs, hnil⟩ := Run.run_cons.mp hlast
  cases hnil
  obtain ⟨⟨-, hlen⟩, hs⟩ := Option.ite_none_right_eq_some.mp hs
  change b₁.buffer.length + len ≤ maxSize at hlen
  rw [call, Buffer.raw_ensureWritableBytes hlen] at hs
  have hb : (b₁.ensureWritableBytes len).raw = b.raw :=
    congrArg Prod.fst (Except.ok.inj (Option.some.inj hs))
  rw [← hb]
  exact b₁.le_writableBytes_ensure len

/-- Two bytes are appended to a buffer of one byte, and one of them is taken out. -/
theorem refines_queue_two : ∃ b : RawBuffer,
    Run.run step (.ok (new 1, [])) [.append [1, 2], .retrieveAsString 1] =
      some (.ok (b, [.void, .string [1]])) ∧ b.readable = [2] := by
  obtain ⟨r, hr⟩ := Option.isSome_iff_exists.mp (show (Run.run step (.ok (new 1, []))
    [.append [1, 2], .retrieveAsString 1]).isSome by decide)
  obtain ⟨b, rfl, -, -, -, hreadable, -⟩ := refines_queue 1 (by decide) _ r hr
  exact ⟨b, hr, hreadable⟩

end RawBuffer

end MuduoX
