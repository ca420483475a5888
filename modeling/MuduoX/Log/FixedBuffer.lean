import MuduoX.Bytes

/-! `FixedBuffer` (`include/FixedBuffer.h`): the bytes between `data_` and `cur_` of an array of
`size` bytes. -/

namespace MuduoX

def kSmallBuffer : Nat := 4000
def kLargeBuffer : Nat := 4000 * 1000

structure FixedBuffer (size : Nat) where
  data : Bytes
  fits : data.length ≤ size
  deriving DecidableEq

namespace FixedBuffer

variable {size : Nat}

/-- `FixedBuffer()`. -/
def new (size : Nat) : FixedBuffer size := ⟨[], Nat.zero_le _⟩

def length (b : FixedBuffer size) : Nat := b.data.length
def avail (b : FixedBuffer size) : Nat := size - b.length

/-- What does not fit is dropped, and so is what would fill the buffer to the last byte. -/
def append (b : FixedBuffer size) (buf : Bytes) : FixedBuffer size :=
  if h : b.avail > buf.length then
    ⟨b.data ++ buf, by
      have := b.fits
      unfold avail length at h
      rw [List.length_append]
      omega⟩
  else b

def reset (_ : FixedBuffer size) : FixedBuffer size := new size

@[simp] theorem data_new : (new size).data = [] := rfl

@[simp] theorem data_reset (b : FixedBuffer size) : b.reset.data = [] := rfl

theorem data_append {b : FixedBuffer size} {buf : Bytes} (h : buf.length < b.avail) :
    (b.append buf).data = b.data ++ buf := by
  rw [append, dif_pos h]

theorem append_of_le {b : FixedBuffer size} {buf : Bytes} (h : b.avail ≤ buf.length) :
    b.append buf = b := by
  rw [append, dif_neg (not_lt.mpr h)]

theorem avail_of_data {b : FixedBuffer size} (h : b.data = []) : b.avail = size := by
  rw [avail, length, h]
  rfl

end FixedBuffer

end MuduoX
