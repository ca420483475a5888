import MuduoX.Bytes

/-! The input and output buffer of a connection (`include/Buffer.h`).

`Buffer` is the vector together with its two indices, and carries the layout invariant of the
class comment, `kCheapPrepend ≤ readerIndex ≤ writerIndex ≤ size()`. The bytes behind
`writerIndex` are kept as they are: `retrieve` does not erase them and the parser looks one byte
past the readable range, so what an earlier message left there can be read again.

The lemmas at the end say what each operation does to the readable bytes, which is how the rest
of the development uses a buffer. -/

namespace MuduoX

def kCheapPrepend : Nat := 8
def kInitialSize : Nat := 1024

structure Buffer where
  buffer : Bytes
  readerIndex : Nat
  writerIndex : Nat
  prepend_le : kCheapPrepend ≤ readerIndex
  reader_le : readerIndex ≤ writerIndex
  writer_le : writerIndex ≤ buffer.length
  deriving DecidableEq

namespace Buffer

/-- `Buffer(initSize)`: the vector is value-initialised, so it holds zeros. -/
def new (initSize : Nat) : Buffer where
  buffer := List.replicate (kCheapPrepend + initSize) 0
  readerIndex := kCheapPrepend
  writerIndex := kCheapPrepend
  prepend_le := Nat.le_refl _
  reader_le := Nat.le_refl _
  writer_le := by simp

def readableBytes (b : Buffer) : Nat := b.writerIndex - b.readerIndex
def writableBytes (b : Buffer) : Nat := b.buffer.length - b.writerIndex
def prependableBytes (b : Buffer) : Nat := b.readerIndex

/-- The bytes in `[peek(), peek() + readableBytes())`. -/
def readable (b : Buffer) : Bytes := slice b.buffer b.readerIndex b.writerIndex

/-- `*(peek() + i)`, with nothing where the vector has ended. -/
def byteAt (b : Buffer) (i : Nat) : Option Byte := b.buffer[b.readerIndex + i]?

def retrieveAll (b : Buffer) : Buffer where
  buffer := b.buffer
  readerIndex := kCheapPrepend
  writerIndex := kCheapPrepend
  prepend_le := Nat.le_refl _
  reader_le := Nat.le_refl _
  writer_le := Nat.le_trans b.prepend_le (Nat.le_trans b.reader_le b.writer_le)

def retrieve (b : Buffer) (len : Nat) : Buffer :=
  if h : len < b.readableBytes then
    { buffer := b.buffer
      readerIndex := b.readerIndex + len
      writerIndex := b.writerIndex
      prepend_le := Nat.le_add_right_of_le b.prepend_le
      reader_le := by have := b.reader_le; unfold readableBytes at h; omega
      writer_le := b.writer_le }
  else b.retrieveAll

/-- `retrieveUntil(end)`, where `end` is the offset of the pointer from `peek()`. -/
def retrieveUntil (b : Buffer) (last : Nat) : Buffer := b.retrieve last

def retrieveAsString (b : Buffer) (len : Nat) : Bytes × Buffer :=
  (slice b.readable 0 len, b.retrieve len)

def retrieveAllAsString (b : Buffer) : Bytes × Buffer := b.retrieveAsString b.readableBytes

/-- `vector::resize`. New elements are zero. -/
def resize (bs : Bytes) (n : Nat) : Bytes := bs.take n ++ List.replicate (n - bs.length) 0

/-- `std::copy` of a string onto the vector at offset `i`. -/
def overwrite (bs : Bytes) (i : Nat) (data : Bytes) : Bytes :=
  bs.take i ++ data ++ bs.drop (i + data.length)

@[simp] theorem resize_length (bs : Bytes) (n : Nat) : (resize bs n).length = n := by
  simp [resize]; omega

theorem overwrite_length {bs data : Bytes} {i : Nat} (h : i + data.length ≤ bs.length) :
    (overwrite bs i data).length = bs.length := by
  simp [overwrite]; omega

@[simp] theorem readable_length (b : Buffer) : b.readable.length = b.readableBytes := by
  simp [readable, readableBytes, Nat.min_eq_left b.writer_le]

def makeSpace (b : Buffer) (len : Nat) : Buffer :=
  if h : b.writableBytes + b.prependableBytes < len + kCheapPrepend then
    { buffer := resize b.buffer (b.writerIndex + len)
      readerIndex := b.readerIndex
      writerIndex := b.writerIndex
      prepend_le := b.prepend_le
      reader_le := b.reader_le
      writer_le := by simp }
  else
    -- the unread bytes slide down to the front of the vector
    { buffer := overwrite b.buffer kCheapPrepend b.readable
      readerIndex := kCheapPrepend
      writerIndex := kCheapPrepend + b.readableBytes
      prepend_le := Nat.le_refl _
      reader_le := Nat.le_add_right _ _
      writer_le := by
        have := b.prepend_le; have := b.reader_le; have := b.writer_le
        rw [overwrite_length] <;> simp only [readable_length, readableBytes] <;> omega }

def ensureWritableBytes (b : Buffer) (len : Nat) : Buffer :=
  if b.writableBytes < len then b.makeSpace len else b

/-- After `ensureWritableBytes(len)` at least `len` bytes are writable. -/
theorem le_writableBytes_ensure (b : Buffer) (len : Nat) :
    len ≤ (b.ensureWritableBytes len).writableBytes := by
  unfold ensureWritableBytes
  split
  · unfold makeSpace
    split
    · simp [writableBytes]
    · rename_i h
      have := b.prepend_le; have := b.reader_le; have := b.writer_le
      have hlen : (overwrite b.buffer kCheapPrepend b.readable).length = b.buffer.length := by
        rw [overwrite_length]
        simp only [readable_length, readableBytes]; omega
      simp only [writableBytes, prependableBytes, readableBytes, hlen] at h ⊢
      omega
  · omega

theorem append_fits (b : Buffer) (len : Nat) : (b.ensureWritableBytes len).writerIndex + len ≤
    (b.ensureWritableBytes len).buffer.length := by
  have h₁ := le_writableBytes_ensure b len
  have h₂ := (b.ensureWritableBytes len).writer_le
  unfold writableBytes at h₁
  omega

def append (b : Buffer) (data : Bytes) : Buffer :=
  let b' := b.ensureWritableBytes data.length
  { buffer := overwrite b'.buffer b'.writerIndex data
    readerIndex := b'.readerIndex
    writerIndex := b'.writerIndex + data.length
    prepend_le := b'.prepend_le
    reader_le := Nat.le_add_right_of_le b'.reader_le
    writer_le := by rw [overwrite_length (append_fits b _)]; exact append_fits b _ }

/-! ### What the operations do to the readable bytes -/

@[simp] theorem readable_new (n : Nat) : (new n).readable = [] := by
  simp [new, readable, slice]

theorem readable_eq_nil {b : Buffer} : b.readable = [] ↔ b.readableBytes = 0 := by
  rw [← readable_length, List.length_eq_zero_iff]

@[simp] theorem readable_retrieveAll (b : Buffer) : b.retrieveAll.readable = [] := by
  simp [retrieveAll, readable, slice]

@[simp] theorem readable_retrieve (b : Buffer) (n : Nat) :
    (b.retrieve n).readable = b.readable.drop n := by
  unfold retrieve
  split
  · simp [readable, slice, List.drop_drop]
  · rename_i h
    rw [readable_retrieveAll, List.drop_eq_nil_of_le (by rw [readable_length]; omega)]

@[simp] theorem readable_retrieveUntil (b : Buffer) (n : Nat) :
    (b.retrieveUntil n).readable = b.readable.drop n := readable_retrieve b n

theorem readable_makeSpace (b : Buffer) (len : Nat) : (b.makeSpace len).readable = b.readable := by
  have h₁ := b.prepend_le; have h₂ := b.reader_le; have h₃ := b.writer_le
  unfold makeSpace
  split
  · simp only [readable, slice, resize, List.take_append, List.take_take]
    have hnone : b.writerIndex - (b.buffer.take (b.writerIndex + len)).length = 0 := by simp; omega
    rw [Nat.min_eq_left (by omega), hnone]
    simp
  · have hk : (b.buffer.take kCheapPrepend).length = kCheapPrepend := by simp; omega
    have := slice_mid (b.buffer.take kCheapPrepend) b.readable
      (b.buffer.drop (kCheapPrepend + b.readable.length))
    rw [hk, readable_length] at this
    rw [readable]
    simpa only [overwrite, readable_length, List.append_assoc] using this

@[simp] theorem readable_ensureWritableBytes (b : Buffer) (len : Nat) :
    (b.ensureWritableBytes len).readable = b.readable := by
  unfold ensureWritableBytes
  split
  · exact readable_makeSpace b len
  · rfl

@[simp] theorem readable_append (b : Buffer) (data : Bytes) :
    (b.append data).readable = b.readable ++ data := by
  rw [← readable_ensureWritableBytes b data.length]
  have h₁ := append_fits b data.length
  have h₂ := (b.ensureWritableBytes data.length).reader_le
  simp only [append, readable, slice, overwrite]
  generalize b.ensureWritableBytes data.length = b' at h₁ h₂
  have h₃ : (b'.buffer.take b'.writerIndex).length = b'.writerIndex := by simp; omega
  rw [List.take_left' (by simp [h₃]), List.drop_append_of_le_length (by omega)]

/-- A byte of the readable range is where `byteAt` finds it. -/
theorem byteAt_of_lt {b : Buffer} {i : Nat} (h : i < b.readableBytes) :
    b.byteAt i = b.readable[i]? := by
  unfold readableBytes at h
  simp only [byteAt, readable, slice, List.getElem?_drop]
  rw [List.getElem?_take_of_lt (by omega)]

end Buffer

end MuduoX
