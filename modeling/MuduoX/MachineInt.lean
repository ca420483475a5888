import MuduoX.Bytes

/-! # `int` and `size_t`

`int` has 32 bits and `size_t` has 64. Between the two there is always a conversion; an operation on
`int`s that overflows is undefined. -/

namespace MuduoX

/-- The result of an operation on `int`, which is undefined when it overflows. -/
def int32 (x : Int) : Except Fault Int :=
  if -2 ^ 31 ≤ x ∧ x < 2 ^ 31 then .ok x else .error .outOfRange

theorem int32_eq {x : Int} (hlow : -2 ^ 31 ≤ x) (hhigh : x < 2 ^ 31) : int32 x = .ok x :=
  if_pos ⟨hlow, hhigh⟩

/-- `static_cast<int>(len)` of a `size_t`: the number modulo `2 ^ 32` that an `int` holds. -/
def intOfSize (len : Nat) : Int :=
  if len % 2 ^ 32 < 2 ^ 31 then len % 2 ^ 32 else len % 2 ^ 32 - 2 ^ 32

/-- A `size_t` that is initialised with an `int`. -/
def sizeOfInt (len : Int) : Nat := (len % 2 ^ 64).toNat

theorem intOfSize_eq_iff {len : Nat} {y : Int} (h : -2 ^ 31 ≤ y ∧ y < 2 ^ 31) :
    intOfSize len = y ↔ (len : Int) % 2 ^ 32 = y % 2 ^ 32 := by
  rw [intOfSize]
  split <;> omega

theorem intOfSize_of_lt {len : Nat} (h : len < 2 ^ 31) : intOfSize len = len :=
  (intOfSize_eq_iff (by omega)).mpr rfl

theorem sizeOfInt_of_nonneg {len : Int} (h : 0 ≤ len) (hlt : len < 2 ^ 31) :
    sizeOfInt len = len.toNat := by
  rw [sizeOfInt, Int.emod_eq_of_lt h (by omega)]

/-- A negative `int` comes back from the round trip, and is enormous in between. -/
theorem sizeOfInt_of_neg {len : Int} (h : len < 0) (hle : -2 ^ 31 ≤ len) :
    2 ^ 63 ≤ sizeOfInt len ∧ intOfSize (sizeOfInt len) = len := by
  have hsize : (sizeOfInt len : Int) = len + 2 ^ 64 := by
    rw [sizeOfInt]
    omega
  exact ⟨by omega, (intOfSize_eq_iff (by omega)).mpr (by omega)⟩

end MuduoX
