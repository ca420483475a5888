import Mathlib

/-! Byte strings and the C and C++ library routines that the parser calls on them:
`std::find`, the iterator-range constructor of `std::string`, `isspace` in the "C" locale and
`std::stoul`. A pointer into the readable part of a buffer is its offset from `peek()`, so a
range `[first, last)` of pointers is a pair of offsets. -/

namespace MuduoX

abbrev Byte := UInt8
abbrev Bytes := List Byte

/-- The bytes of a literal of the source. All of them are ASCII. -/
def ascii (s : String) : Bytes := s.toList.map fun c => UInt8.ofNat c.toNat

abbrev LF : Byte := 10
abbrev CR : Byte := 13
abbrev space : Byte := 32
abbrev dot : Byte := 46
abbrev slash : Byte := 47
abbrev colon : Byte := 58
abbrev question : Byte := 63

/-- What ends a call of the source other than a return: an exception that nothing catches, an
access the language leaves undefined, or a loop that never ends. -/
inductive Fault where
  | nullPointer
  | outOfBounds
  | invalidArgument
  | outOfRange
  | diverge
  deriving DecidableEq, Repr

/-- `isspace` in the "C" locale: space, `\t`, `\n`, `\v`, `\f`, `\r`. -/
def isspace (b : Byte) : Bool := b == space || (9 ≤ b && b ≤ 13)

/-! ### Ranges of a byte string -/

/-- The string `std::string(first, last)` for `first ≤ last`. -/
def slice (bs : Bytes) (first last : Nat) : Bytes := (bs.take last).drop first

/-- `std::find(first, last, c)`: the first occurrence of `c`, or `last`. -/
def find (bs : Bytes) (first last : Nat) (c : Byte) : Nat := first + (slice bs first last).idxOf c

@[simp] theorem slice_length (bs : Bytes) (i j : Nat) :
    (slice bs i j).length = min j bs.length - i := by
  simp [slice]

theorem slice_append_left {bs : Bytes} {j : Nat} (h : j ≤ bs.length) (i : Nat) (u : Bytes) :
    slice (bs ++ u) i j = slice bs i j := by
  rw [slice, slice, List.take_append_of_le_length h]

theorem find_append_left {bs : Bytes} {j : Nat} (h : j ≤ bs.length) (i : Nat) (c : Byte)
    (u : Bytes) : find (bs ++ u) i j c = find bs i j c := by
  rw [find, find, slice_append_left h]

theorem find_le (bs : Bytes) {i j : Nat} (h : i ≤ j) (c : Byte) : find bs i j c ≤ j := by
  have h₁ := List.idxOf_le_length (a := c) (l := slice bs i j)
  rw [slice_length] at h₁
  unfold find
  omega

/-- The middle part of a string cut in three. -/
theorem slice_mid (a b c : Bytes) :
    slice (a ++ (b ++ c)) a.length (a.length + b.length) = b := by
  rw [slice, List.take_append, List.drop_append]
  simp

theorem slice_eq {bs : Bytes} {i j : Nat} (a b c : Bytes) (h : bs = a ++ (b ++ c))
    (hi : i = a.length) (hj : j = a.length + b.length) : slice bs i j = b := by
  rw [h, hi, hj, slice_mid]

theorem slice_append (a b : Bytes) : slice (a ++ b) 0 a.length = a := by
  simp [slice]

/-- `find` stops at the first occurrence: nothing of `b` is `c`, and the byte after it is. -/
theorem find_hit (a rest : Bytes) {b : Bytes} {c : Byte} (last : Nat) (hb : c ∉ b)
    (hlast : a.length + b.length < last) :
    find (a ++ (b ++ c :: rest)) a.length last c = a.length + b.length := by
  obtain ⟨k, rfl⟩ := Nat.exists_eq_add_of_lt hlast
  have hs : slice (a ++ (b ++ c :: rest)) a.length (a.length + b.length + k + 1) =
      b ++ c :: rest.take k := by
    rw [slice, List.take_append, List.take_of_length_le (by omega), List.drop_append,
      List.take_append, List.take_of_length_le (l := b) (by omega),
      show a.length + b.length + k + 1 - a.length - b.length = k + 1 by omega]
    simp
  rw [find, hs, List.idxOf_append_of_notMem hb]
  simp

/-- `find` returns the end of the range when the byte does not occur. -/
theorem find_miss (a rest : Bytes) {b : Bytes} {c : Byte} (hb : c ∉ b) :
    find (a ++ (b ++ rest)) a.length (a.length + b.length) c = a.length + b.length := by
  rw [find, slice_mid, List.idxOf_eq_length hb]

/-! ### Decimal numbers -/

def isDigit (b : Byte) : Bool := 48 ≤ b && b ≤ 57

/-- The value of a string of decimal digits. -/
def decimal (ds : Bytes) : Nat := ds.foldl (fun n d => 10 * n + (d.toNat - 48)) 0

/-- `std::stoul(s)` in base 10: white space, an optional sign, the longest run of digits; what
follows is ignored. A negative number wraps modulo `2 ^ 64`. -/
def stoul (s : Bytes) : Except Fault Nat :=
  let s := s.dropWhile isspace
  let neg := s.head? = some 45
  let s := if s.head? = some 43 ∨ s.head? = some 45 then s.tail else s
  let digits := s.takeWhile isDigit
  if digits = [] then .error .invalidArgument
  else if 2 ^ 64 ≤ decimal digits then .error .outOfRange
  else .ok (if neg then (2 ^ 64 - decimal digits) % 2 ^ 64 else decimal digits)

theorem isspace_of_isDigit {b : Byte} (h : isDigit b) : isspace b = false := by
  simp only [isDigit, Bool.and_eq_true, decide_eq_true_eq] at h
  simp only [isspace, space, Bool.or_eq_false_iff, Bool.and_eq_false_iff, beq_eq_false_iff_ne,
    decide_eq_false_iff_not]
  grind

/-- `stoul` reads back a plain decimal number. -/
theorem stoul_digits {ds : Bytes} (hne : ds ≠ []) (hd : ∀ d ∈ ds, isDigit d)
    (hlt : decimal ds < 2 ^ 64) : stoul ds = .ok (decimal ds) := by
  obtain ⟨d, ds', rfl⟩ := List.exists_cons_of_ne_nil hne
  have h0 := hd d List.mem_cons_self
  have hp : d ≠ 43 := by rintro rfl; simp [isDigit] at h0
  have hm : d ≠ 45 := by rintro rfl; simp [isDigit] at h0
  have htake : (d :: ds').takeWhile isDigit = d :: ds' := List.takeWhile_eq_self_iff.mpr hd
  have hspace : (d :: ds').dropWhile isspace = d :: ds' :=
    List.dropWhile_cons_of_neg (by simp [isspace_of_isDigit h0])
  simp only [stoul, hspace, List.head?_cons, Option.some.injEq, hp, hm, or_self, if_false,
    htake]
  rw [if_neg (List.cons_ne_nil d ds'), if_neg (Nat.not_le.mpr hlt)]

end MuduoX
