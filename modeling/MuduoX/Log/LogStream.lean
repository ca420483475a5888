import MuduoX.Decimal
import MuduoX.Log.FixedBuffer
import MuduoX.MachineInt
import MuduoX.Theory.Run

/-! `LogStream` (`include/LogSream.h`, `log/LogStream.cpp`) and the stores that it makes into its
`FixedBuffer`.

A `size_t` length is cast to `int` for the comparison with the space that is left, and goes to
`memcpy` as it is. A store outside of `data_` ends the run in a fault. -/

namespace MuduoX

/-! ### Stores into the buffer -/

namespace FixedBuffer

variable {size : Nat} {b : FixedBuffer size} {buf text rest : Bytes} {len : Nat}

/-- Stores `text` and then `rest` at `cur_`, which goes behind `text`. -/
def store (text rest : Bytes) (b : FixedBuffer size) : Except Fault (FixedBuffer size) :=
  if h : b.length + (text.length + rest.length) ≤ size then
    .ok ⟨b.data ++ text, by
      rw [List.length_append]
      exact (Nat.add_le_add_left (Nat.le_add_right ..) _).trans h⟩
  else .error .outOfBounds

/-- `append(buf, len)` for any `len`; `append` is this for the lengths that an `int` holds. -/
def appendSize (buf : Bytes) (len : Nat) (b : FixedBuffer size) : Except Fault (FixedBuffer size) :=
  if intOfSize len < b.avail then
    if len ≤ buf.length then b.store (buf.take len) [] else .error .outOfBounds
  else .ok b

theorem length_add_avail (b : FixedBuffer size) : b.length + b.avail = size :=
  Nat.add_sub_cancel' b.fits

theorem store_eq_ok (h : text.length + rest.length ≤ b.avail) :
    ∃ b', b.store text rest = .ok b' ∧ b'.data = b.data ++ text := by
  have hsize := b.length_add_avail
  rw [store, dif_pos (by omega)]
  exact ⟨_, rfl, rfl⟩

theorem store_eq_error (h : b.avail < text.length + rest.length) :
    b.store text rest = .error .outOfBounds := by
  have hsize := b.length_add_avail
  rw [store, dif_neg (by omega)]

theorem appendSize_of_lt (h : len < 2 ^ 31) (hread : len ≤ buf.length) :
    b.appendSize buf len = .ok (b.append (buf.take len)) := by
  have hsize := b.length_add_avail
  have hlength : (buf.take len).length = len := by rw [List.length_take, Nat.min_eq_left hread]
  rw [appendSize, append, intOfSize_of_lt h, if_pos hread]
  by_cases hfits : len < b.avail
  · rw [if_pos (by omega), dif_pos (by rwa [hlength]), store,
      dif_pos (by rw [hlength, List.length_nil]; omega)]
  · rw [if_neg (by omega), dif_neg (by rwa [hlength])]

theorem append_cases (b : FixedBuffer size) (buf : Bytes) :
    b.length + buf.length < size ∧ (b.append buf).data = b.data ++ buf ∨
      size ≤ b.length + buf.length ∧ b.append buf = b := by
  have hsize := b.length_add_avail
  by_cases hfits : buf.length < b.avail
  · exact .inl ⟨by omega, data_append hfits⟩
  · exact .inr ⟨by omega, dif_neg hfits⟩

/-- Where the cast is right, what does not fit is dropped. -/
theorem appendSize_eq_ok (hread : len ≤ buf.length)
    (hcast : (b.avail : Int) ≤ intOfSize len ∨ len < b.avail) :
    ∃ b', b.appendSize buf len = .ok b' ∧
      b'.data = if intOfSize len < b.avail then b.data ++ buf.take len else b.data := by
  rw [appendSize]
  split
  · rename_i hlt
    refine store_eq_ok ?_
    rw [List.length_take, List.length_nil]
    omega
  · exact ⟨b, rfl, rfl⟩

/-- Where it is not, the bytes are stored past the end of the array. -/
theorem appendSize_eq_error (hcast : intOfSize len < b.avail) (hlen : b.avail < len) :
    b.appendSize buf len = .error .outOfBounds := by
  rw [appendSize, if_pos hcast]
  split
  · refine store_eq_error ?_
    rw [List.length_take, List.length_nil]
    omega
  · rfl

end FixedBuffer

/-! ### What is printed -/

/-- The integer types that `operator<<` takes. -/
inductive IntType where
  | short | unsignedShort | int | unsignedInt | long | unsignedLong | longLong | unsignedLongLong
  deriving DecidableEq

namespace IntType

def bits : IntType → Nat
  | short | unsignedShort => 16
  | int | unsignedInt => 32
  | long | unsignedLong | longLong | unsignedLongLong => 64

def signed : IntType → Bool
  | short | int | long | longLong => true
  | unsignedShort | unsignedInt | unsignedLong | unsignedLongLong => false

def min (T : IntType) : Int := if T.signed then -2 ^ (T.bits - 1) else 0
def max (T : IntType) : Int := if T.signed then 2 ^ (T.bits - 1) - 1 else 2 ^ T.bits - 1

/-- A value of the type. -/
structure Value (T : IntType) where
  val : Int
  min_le : T.min ≤ val
  le_max : val ≤ T.max

theorem natAbs_lt {T : IntType} (n : T.Value) : n.val.natAbs < 10 ^ 20 := by
  obtain ⟨n, hmin, hmax⟩ := n
  cases T <;> norm_num [min, max, signed, bits] at hmin hmax ⊢ <;> omega

end IntType

/-- `GeneralTemplate`, with the bytes that `data_` points to. -/
structure GeneralTemplate where
  data : Bytes
  len : Int
  int : -2 ^ 31 ≤ len ∧ len < 2 ^ 31
  len_le : len ≤ data.length

/-- What `operator<<` is called with. -/
inductive LogArg where
  | bool (express : Bool)
  | integer {T : IntType} (number : T.Value)
  /-- a `float` or a `double`, as `sprintf` puts it into `char buffer[32]` -/
  | double (buffer : Bytes) (h : buffer.length < 32)
  | char (c : Byte)
  /-- a `const char*`, a `const unsigned char*` or a `std::string` -/
  | string (str : Bytes)
  | general (g : GeneralTemplate)

abbrev LogStream := FixedBuffer kSmallBuffer

namespace LogStream

def kMaxNumberSize : Nat := 32

/-- The quotient and the remainder round towards zero. -/
theorem tdiv_tmod_ten (num : Int) : 10 * num.tdiv 10 + num.tmod 10 = num ∧
    -10 < num.tmod 10 ∧ num.tmod 10 < 10 ∧ (0 ≤ num → 0 ≤ num.tmod 10) ∧
      (num ≤ 0 → num.tmod 10 ≤ 0) := by
  refine ⟨Int.mul_tdiv_add_tmod .., Int.lt_tmod_of_pos _ (by decide),
    Int.tmod_lt_of_pos _ (by decide), Int.tmod_nonneg _, fun h => ?_⟩
  have hneg := Int.tmod_nonneg (a := -num) 10 (by omega)
  rw [Int.neg_tmod] at hneg
  omega

/-- The loop of `formatInteger`: the last digit first. -/
def formatDigits (num : Int) : Bytes :=
  let digit := num.tmod 10
  let rest := num.tdiv 10
  UInt8.ofNat (48 + digit).toNat :: if rest ≠ 0 then formatDigits rest else []
termination_by num.natAbs
decreasing_by
  have := tdiv_tmod_ten num
  omega

def formatInteger {T : IntType} (num : T.Value) (s : LogStream) : Except Fault LogStream :=
  if s.avail ≥ kMaxNumberSize then
    let negative := num.val < 0
    let digits := formatDigits num.val
    let text := if negative then digits ++ [45] else digits
    -- the NUL behind the text is stored too
    s.store text.reverse [0]
  else .ok s

/-- `operator<<`. -/
def insert (s : LogStream) : LogArg → Except Fault LogStream
  | .bool express =>
    s.appendSize (ascii (if express then "true" else "false")) (if express then 4 else 5)
  | .integer number => s.formatInteger number
  | .double buffer _ => s.appendSize buffer buffer.length
  | .char c => s.appendSize [c] 1
  | .string str => s.appendSize str str.length
  | .general g => s.appendSize g.data (sizeOfInt g.len)

end LogStream

inductive LogStreamInput where
  | insert (arg : LogArg)
  | resetBuffer

namespace LogStream

def step : Except Fault LogStream → LogStreamInput → Option (Except Fault LogStream)
  | .error _, _ => none
  | .ok s, .insert arg => some (s.insert arg)
  | .ok s, .resetBuffer => some (.ok s.reset)

/-! ### Integers -/

variable {s : LogStream} {T : IntType}

theorem formatDigits_eq (num : Int) : formatDigits num =
    UInt8.ofNat (48 + num.tmod 10).toNat ::
      if num.tdiv 10 ≠ 0 then formatDigits (num.tdiv 10) else [] := by
  rw [formatDigits]

/-- The digits of a number that is not negative, backwards. -/
theorem formatDigits_natCast (n : Nat) : formatDigits n = (digits n).reverse := by
  induction n using Nat.strong_induction_on with
  | _ n ih =>
    have hnum := tdiv_tmod_ten n
    have hdigit : (48 + (n : Int).tmod 10).toNat = 48 + n % 10 := by omega
    have hrest : (n : Int).tdiv 10 = (n / 10 : Nat) := by omega
    rw [formatDigits_eq, digits_eq_if, hdigit, hrest]
    obtain hlt | hle := lt_or_ge n 10
    · rw [if_neg (by omega), if_pos hlt, List.reverse_singleton, Nat.mod_eq_of_lt hlt]
    · rw [if_pos (by omega), if_neg (by omega), ih (n / 10) (by omega), List.reverse_append,
        List.reverse_singleton, List.singleton_append]

/-- `num % 10` is negative where `num` is, and `'0'` plus it is no digit. -/
theorem exists_not_isDigit {num : Int} (h : num < 0) : ∃ c ∈ formatDigits num, ¬isDigit c := by
  induction num using formatDigits.induct with
  | case1 num rest ih =>
    have hnum := tdiv_tmod_ten num
    rw [formatDigits_eq]
    obtain hrest | hrest := eq_or_ne (num.tdiv 10) 0
    · refine ⟨_, List.mem_cons_self .., ?_⟩
      have hlow : 39 ≤ (48 + num.tmod 10).toNat := by omega
      have hhigh : (48 + num.tmod 10).toNat < 48 := by omega
      generalize (48 + num.tmod 10).toNat = c at hlow hhigh
      interval_cases c <;> decide
    · obtain ⟨c, hc, hnot⟩ := ih hrest (by omega)
      exact ⟨c, List.mem_cons_of_mem _ (by rwa [if_pos hrest]), hnot⟩

theorem length_formatDigits_le {num : Int} {k : Nat} (h : num.natAbs < 10 ^ (k + 1)) :
    (formatDigits num).length ≤ k + 1 := by
  have hnum := tdiv_tmod_ten num
  induction k generalizing num with
  | zero =>
    rw [formatDigits_eq, if_neg (by omega)]
    exact le_refl _
  | succ k ih =>
    rw [formatDigits_eq, List.length_cons]
    split
    · exact Nat.succ_le_succ (ih (by omega) (tdiv_tmod_ten _))
    · exact Nat.succ_le_succ (Nat.zero_le _)

/-- What `formatInteger` appends. -/
def integerText (num : Int) : Bytes :=
  (if num < 0 then formatDigits num ++ [45] else formatDigits num).reverse

theorem integerText_of_nonneg {num : Int} (h : 0 ≤ num) : integerText num = signedDigits num := by
  rw [integerText, signedDigits, if_neg (not_lt.mpr h), if_neg (not_lt.mpr h)]
  conv_lhs => rw [Int.eq_natAbs_of_nonneg h, formatDigits_natCast]
  exact List.reverse_reverse _

theorem integerText_eq_iff {num : Int} : integerText num = signedDigits num ↔ 0 ≤ num := by
  refine ⟨fun heq => ?_, integerText_of_nonneg⟩
  by_contra h
  obtain ⟨c, hc, hnot⟩ := exists_not_isDigit (not_le.mp h)
  rw [integerText, signedDigits, if_pos (not_le.mp h), if_pos (not_le.mp h), List.reverse_append,
    List.reverse_singleton, List.singleton_append, List.cons.injEq] at heq
  exact hnot (isDigit_of_mem_digits (heq.2 ▸ List.mem_reverse.mpr hc))

theorem length_integerText (num : T.Value) : (integerText num.val).length ≤ 21 := by
  have hdigits : (formatDigits num.val).length ≤ 20 := length_formatDigits_le (IntType.natAbs_lt num)
  rw [integerText, List.length_reverse]
  split
  · rw [List.length_append, List.length_singleton]
    omega
  · omega

/-- The reserve is enough for a sign, 20 digits and a NUL. -/
theorem formatInteger_eq_ok (num : T.Value) (h : kMaxNumberSize ≤ s.avail) :
    ∃ s', s.formatInteger num = .ok s' ∧ s'.data = s.data ++ integerText num.val := by
  have hlength := length_integerText num
  rw [formatInteger, if_pos h]
  refine FixedBuffer.store_eq_ok ?_
  change (integerText num.val).length + _ ≤ _
  rw [kMaxNumberSize] at h
  rw [List.length_singleton]
  omega

theorem formatInteger_of_lt (num : T.Value) (h : s.avail < kMaxNumberSize) :
    s.formatInteger num = .ok s := by
  rw [formatInteger, if_neg (not_le.mpr h)]

/-- **Integers read back**, of any type, if they are not negative. -/
theorem formatInteger_readsBack_iff (num : T.Value) (s : LogStream)
    (h : kMaxNumberSize ≤ s.avail) :
    (∃ s' text, s.formatInteger num = .ok s' ∧ s'.data = s.data ++ text ∧
      text = signedDigits num.val ∧ parseInteger text = some num.val) ↔ 0 ≤ num.val := by
  obtain ⟨s₁, hs₁, hdata⟩ := formatInteger_eq_ok num h
  rw [← integerText_eq_iff]
  constructor
  · rintro ⟨s', text, hs', hdata', htext, -⟩
    cases hs₁.symm.trans hs'
    exact (List.append_cancel_left (hdata.symm.trans hdata')).trans htext
  · intro htext
    exact ⟨s₁, integerText num.val, hs₁, hdata, htext, by rw [htext, parseInteger_signedDigits]⟩

/-- The greatest `unsigned long long`, into an empty buffer. -/
theorem formatInteger_readsBack_iff_max :
    (∃ s' text, formatInteger (T := .unsignedLongLong) ⟨18446744073709551615, by decide, by decide⟩
        (.new kSmallBuffer) = .ok s' ∧
      s'.data = (FixedBuffer.new kSmallBuffer).data ++ text ∧
      text = signedDigits 18446744073709551615 ∧
      parseInteger text = some 18446744073709551615) ↔ (0 : Int) ≤ 18446744073709551615 :=
  formatInteger_readsBack_iff (T := .unsignedLongLong) ⟨18446744073709551615, by decide, by decide⟩
    (.new kSmallBuffer) (by decide)

/-- `-5` is logged as `-+`. -/
theorem not_formatInteger_readsBack :
    ¬∃ s' text, formatInteger (T := .int) ⟨-5, by decide, by decide⟩ (.new kSmallBuffer) = .ok s' ∧
      s'.data = (FixedBuffer.new kSmallBuffer).data ++ text ∧ text = signedDigits (-5) ∧
      parseInteger text = some (-5) := by
  rintro ⟨s', text, hs', hdata', htext, -⟩
  obtain ⟨s₁, hs₁, hdata⟩ := formatInteger_eq_ok (T := .int) (s := .new kSmallBuffer)
    ⟨-5, by decide, by decide⟩ (by decide)
  cases hs₁.symm.trans hs'
  have hplus : integerText (-5) = ascii "-+" := by
    rw [integerText, formatDigits_eq]
    decide
  rw [List.append_cancel_left (hdata'.symm.trans hdata), hplus] at htext
  exact absurd htext (by decide)

/-! ### The end of the array -/

/-- The cast of a length does not turn the comparison with the space that is left. -/
def CastKeeps (s : LogStream) (len : Nat) : Prop :=
  (s.avail : Int) ≤ intOfSize len ∨ len < s.avail

instance (s : LogStream) (len : Nat) : Decidable (s.CastKeeps len) :=
  inferInstanceAs (Decidable (_ ∨ _))

theorem castKeeps_of_lt {len : Nat} (h : len < 2 ^ 31) : s.CastKeeps len := by
  rw [CastKeeps, intOfSize_of_lt h]
  omega

/-- The casts of one `operator<<`. -/
def Within (s : LogStream) : LogStreamInput → Prop
  | .insert (.string str) => s.CastKeeps str.length
  | .insert (.general g) => s.CastKeeps (sizeOfInt g.len)
  | _ => True

/-- The condition on a step of a run. -/
def StepWithin : Except Fault LogStream → LogStreamInput → Prop
  | .ok s, i => s.Within i
  | .error _, _ => True

theorem avail_le (s : LogStream) : s.avail ≤ 4000 := Nat.sub_le ..

theorem appendSize_isOk_iff {buf : Bytes} {len : Nat} (hread : s.CastKeeps len → len ≤ buf.length) :
    (∃ s', s.appendSize buf len = .ok s') ↔ s.CastKeeps len := by
  refine ⟨fun ⟨s', hs'⟩ => ?_, fun h => ?_⟩
  · by_contra h
    rw [CastKeeps, not_or, not_le, not_lt] at h
    obtain ⟨hcast, hlen⟩ := h
    have hne : s.avail ≠ len := by
      rintro rfl
      have := s.avail_le
      rw [intOfSize_of_lt (by omega)] at hcast
      exact lt_irrefl _ hcast
    rw [FixedBuffer.appendSize_eq_error hcast (lt_of_le_of_ne hlen hne)] at hs'
    cases hs'
  · obtain ⟨s', hs', -⟩ := FixedBuffer.appendSize_eq_ok (hread h) h
    exact ⟨s', hs'⟩

/-- A `GeneralTemplate` of negative length is cast to an enormous one and back. -/
theorem castKeeps_general {g : GeneralTemplate} :
    s.CastKeeps (sizeOfInt g.len) ↔ 0 ≤ g.len := by
  obtain ⟨hmin, hmax⟩ := g.int
  constructor
  · intro h
    by_contra hneg
    obtain ⟨hsize, hcast⟩ := sizeOfInt_of_neg (not_le.mp hneg) hmin
    have havail := s.avail_le
    rw [CastKeeps, hcast] at h
    omega
  · intro hpos
    rw [sizeOfInt_of_nonneg hpos hmax]
    exact castKeeps_of_lt (by omega)

theorem insert_isOk_iff {arg : LogArg} :
    (∃ s', s.insert arg = .ok s') ↔ s.Within (.insert arg) := by
  cases arg with
  | bool express =>
    have hlt : (if express then 4 else 5) < 2 ^ 31 := by split <;> decide
    rw [insert, appendSize_isOk_iff fun _ => by cases express <;> decide]
    exact iff_of_true (castKeeps_of_lt hlt) trivial
  | integer number =>
    refine iff_of_true ?_ trivial
    rw [insert]
    obtain hlt | hle := lt_or_ge s.avail kMaxNumberSize
    · exact ⟨s, formatInteger_of_lt number hlt⟩
    · obtain ⟨s', hs', -⟩ := formatInteger_eq_ok number hle
      exact ⟨s', hs'⟩
  | double buffer hbuffer =>
    rw [insert, appendSize_isOk_iff fun _ => le_refl _]
    exact iff_of_true (castKeeps_of_lt (by omega)) trivial
  | char c =>
    rw [insert, appendSize_isOk_iff fun _ => (List.length_singleton (a := c)).ge]
    exact iff_of_true (castKeeps_of_lt (by decide)) trivial
  | string str => exact appendSize_isOk_iff fun _ => le_refl _
  | general g =>
    refine appendSize_isOk_iff fun h => ?_
    have hpos := castKeeps_general.mp h
    have hle := g.len_le
    rw [sizeOfInt_of_nonneg hpos g.int.2]
    omega

theorem step_isOk_iff {i : LogStreamInput} {r : Except Fault LogStream}
    (h : step (.ok s) i = some r) : (∃ s', r = .ok s') ↔ s.Within i := by
  cases i with
  | insert arg =>
    cases h
    exact insert_isOk_iff
  | resetBuffer =>
    cases h
    exact iff_of_true ⟨_, rfl⟩ trivial

theorem run_isOk_iff {is : List LogStreamInput} {r : Except Fault LogStream}
    (h : Run.run step (.ok s) is = some r) :
    (∃ s', r = .ok s') ↔ Run.Along step StepWithin (.ok s) is := by
  induction is generalizing s with
  | nil =>
    cases h
    exact iff_of_true ⟨s, rfl⟩ trivial
  | cons i is ih =>
    obtain ⟨r₁, h₁, h⟩ := Run.run_cons.mp h
    cases r₁ with
    | error e =>
      -- nothing follows a fault
      have hfault := step_isOk_iff h₁
      cases is with
      | nil =>
        cases h
        refine iff_of_false (by rintro ⟨_, ⟨⟩⟩) fun halong => ?_
        obtain ⟨_, ⟨⟩⟩ := hfault.mpr halong.1
      | cons j is => cases h
    | ok s₁ =>
      rw [ih h]
      refine ⟨fun halong => ⟨(step_isOk_iff h₁).mp ⟨s₁, rfl⟩, fun r hr => ?_⟩,
        fun halong => halong.2 _ h₁⟩
      cases h₁.symm.trans hr
      exact halong

/-- **No store outside of the buffer.** A run makes all of its stores into `data_`, and keeps the
length within bounds, if and only if no cast of a length turns a comparison. -/
theorem inBounds_iff (is : List LogStreamInput) (r : Except Fault LogStream)
    (h : Run.run step (.ok (.new kSmallBuffer)) is = some r) :
    (∃ s : LogStream, r = .ok s ∧ s.length ≤ kSmallBuffer) ↔
      Run.Along step StepWithin (.ok (.new kSmallBuffer)) is := by
  rw [← run_isOk_iff h]
  exact exists_congr fun s => and_iff_left s.fits

theorem inBounds_iff_record : ∃ r,
    Run.run step (.ok (.new kSmallBuffer)) [.insert (.string (ascii "x=")), .insert (.char 55),
      .resetBuffer] = some r ∧
    ((∃ s : LogStream, r = .ok s ∧ s.length ≤ kSmallBuffer) ↔
      Run.Along step StepWithin (.ok (.new kSmallBuffer)) [.insert (.string (ascii "x=")),
        .insert (.char 55), .resetBuffer]) :=
  ⟨_, rfl, inBounds_iff _ _ rfl⟩

/-- A string of `2 ^ 31` bytes has a negative length for the comparison. -/
theorem not_inBounds : ¬∀ (is : List LogStreamInput) (r : Except Fault LogStream),
    Run.run step (.ok (.new kSmallBuffer)) is = some r →
      ∃ s : LogStream, r = .ok s ∧ s.length ≤ kSmallBuffer := by
  intro hall
  obtain ⟨s, hs, -⟩ := hall [.insert (.string (List.replicate (2 ^ 31) 120))] _ rfl
  have hkeeps : CastKeeps (.new kSmallBuffer) (List.replicate (2 ^ 31) (120 : Byte)).length :=
    insert_isOk_iff.mp ⟨s, hs⟩
  have hcast : intOfSize (2 ^ 31) = -2 ^ 31 := (intOfSize_eq_iff (by decide)).mpr (by decide)
  have havail := avail_le (.new kSmallBuffer)
  rw [List.length_replicate, CastKeeps, hcast] at hkeeps
  omega

end LogStream

end MuduoX
