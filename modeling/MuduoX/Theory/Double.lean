import Mathlib

/-! # Doubles

`round` is the double nearest to a positive number: 53 significant bits, and of two that are equally
near the even one. Exponents are not bounded, which leaves out neither the integers of 64 bits nor
their quotients. -/

namespace MuduoX.Double

variable {x : ℚ} {a b m : ℕ}

/-- The nearest integer. -/
def roundEven (x : ℚ) : ℤ :=
  if x - ⌊x⌋ < 1 / 2 ∨ x - ⌊x⌋ = 1 / 2 ∧ Even ⌊x⌋ then ⌊x⌋ else ⌊x⌋ + 1

def round (x : ℚ) : ℚ :=
  let ulp : ℚ := 2 ^ (Int.log 2 x - 52)
  roundEven (x / ulp) * ulp

/-- `std::ceil(a / static_cast<double>(b))`, for an `int` `b`, which is a double. -/
def ceilDiv (a b : ℕ) : ℕ := ⌈round (round a / b)⌉₊

theorem abs_roundEven_sub_le (x : ℚ) : |(roundEven x : ℚ) - x| ≤ 1 / 2 := by
  have hfloor := Int.floor_le x
  have hlt := Int.lt_floor_add_one x
  rw [abs_le, roundEven]
  split
  · rename_i h
    have : x - ⌊x⌋ ≤ 1 / 2 := h.elim le_of_lt fun h => h.1.le
    constructor <;> linarith
  · rename_i h
    have : 1 / 2 ≤ x - ⌊x⌋ := le_of_not_gt fun hlt => h (.inl hlt)
    push_cast
    constructor <;> linarith

theorem roundEven_intCast (n : ℤ) : roundEven n = n := by
  rw [roundEven, Int.floor_intCast, sub_self]
  exact if_pos (.inl (by norm_num))

/-- The relative error of a double. -/
theorem abs_round_sub_le (hx : 0 < x) : |round x - x| ≤ x / 2 ^ 53 := by
  have hulp : (0 : ℚ) < 2 ^ (Int.log 2 x - 52) := by positivity
  have hlog : (2 : ℚ) ^ (Int.log 2 x - 52) ≤ x / 2 ^ 52 := by
    rw [zpow_sub₀ two_ne_zero]
    exact div_le_div_of_nonneg_right (Int.zpow_log_le_self (by decide) hx) (by positivity)
  have herr := abs_roundEven_sub_le (x / 2 ^ (Int.log 2 x - 52))
  calc |round x - x|
      = |roundEven (x / 2 ^ (Int.log 2 x - 52)) - x / 2 ^ (Int.log 2 x - 52)| *
          2 ^ (Int.log 2 x - 52) := by
        rw [← abs_of_pos hulp, ← abs_mul, sub_mul, abs_of_pos hulp, div_mul_cancel₀ _ hulp.ne',
          round]
    _ ≤ 1 / 2 * (x / 2 ^ 52) := mul_le_mul herr hlog hulp.le (by norm_num)
    _ = x / 2 ^ 53 := by ring

theorem round_pos (hx : 0 < x) : 0 < round x := by
  have herr := (abs_le.mp (abs_round_sub_le hx)).1
  have : x / 2 ^ 53 < x := div_lt_self hx (by norm_num)
  linarith

theorem round_le (hx : 0 < x) : round x ≤ x * (1 + 1 / 2 ^ 53) := by
  have herr := (abs_le.mp (abs_round_sub_le hx)).2
  have : x / 2 ^ 53 = x * (1 / 2 ^ 53) := by ring
  linarith

/-- Powers of two are doubles, so nothing is rounded beyond one. -/
theorem round_le_two_pow {k : ℕ} (hx : 0 < x) (h : x ≤ 2 ^ k) : round x ≤ 2 ^ k := by
  have hlog : Int.log 2 x ≤ k := by
    have hmono := Int.log_mono_right (b := 2) hx h
    have hpow := Int.log_zpow (R := ℚ) (show 1 < 2 by decide) k
    rw [zpow_natCast, Nat.cast_ofNat] at hpow
    omega
  obtain ⟨j, hj⟩ := Int.le.dest hlog
  have hulp : (0 : ℚ) < 2 ^ (Int.log 2 x - 52) := by positivity
  have hquot : (2 : ℚ) ^ k = ((2 ^ (j + 52) : ℤ) : ℚ) * 2 ^ (Int.log 2 x - 52) := by
    push_cast
    rw [← zpow_natCast, ← zpow_natCast, ← zpow_add₀ two_ne_zero]
    congr 1
    push_cast
    omega
  have hle : x / 2 ^ (Int.log 2 x - 52) ≤ ((2 ^ (j + 52) : ℤ) : ℚ) := by
    rw [div_le_iff₀ hulp, ← hquot]
    exact h
  have herr := (abs_le.mp (abs_roundEven_sub_le (x / 2 ^ (Int.log 2 x - 52)))).2
  have hint : roundEven (x / 2 ^ (Int.log 2 x - 52)) < 2 ^ (j + 52) + 1 := by
    have : (roundEven (x / 2 ^ (Int.log 2 x - 52)) : ℚ) < ((2 ^ (j + 52) : ℤ) : ℚ) + 1 := by
      linarith
    exact_mod_cast this
  rw [round, hquot]
  refine mul_le_mul_of_nonneg_right ?_ hulp.le
  exact_mod_cast Int.lt_add_one_iff.mp hint

/-- The integers that are doubles because they are small. -/
theorem round_natCast (ha : 0 < a) (hlt : a < 2 ^ 53) : round a = a := by
  have hlog : Int.log 2 (a : ℚ) ≤ 52 := by
    have h : Int.log 2 (a : ℚ) < 53 :=
      (Int.lt_zpow_iff_log_lt (by decide) (by exact_mod_cast ha)).mp (by exact_mod_cast hlt)
    omega
  obtain ⟨k, hk⟩ := Int.le.dest hlog
  have hulp : (2 : ℚ) ^ (Int.log 2 (a : ℚ) - 52) = (2 ^ k)⁻¹ := by
    rw [← hk, sub_add_cancel_left, zpow_neg, zpow_natCast]
  have hquot : (a : ℚ) / (2 ^ k)⁻¹ = ((a * 2 ^ k : ℤ) : ℚ) := by
    push_cast
    rw [div_inv_eq_mul]
  rw [round, hulp, hquot, roundEven_intCast]
  push_cast
  exact mul_inv_cancel_right₀ (by positivity) _

theorem ceilDiv_le_two_pow {k : ℕ} (ha : 0 < a) (hb : 0 < b) (h : a ≤ 2 ^ k) :
    ceilDiv a b ≤ 2 ^ k := by
  have ha : (0 : ℚ) < a := by exact_mod_cast ha
  have hb' : (1 : ℚ) ≤ b := by exact_mod_cast hb
  have hpos : 0 < round a / b := div_pos (round_pos ha) (by positivity)
  refine Nat.ceil_le.mpr ?_
  rw [Nat.cast_pow, Nat.cast_ofNat]
  refine round_le_two_pow hpos ?_
  calc round a / b ≤ round a := div_le_self (round_pos ha).le hb'
    _ ≤ 2 ^ k := round_le_two_pow ha (by exact_mod_cast h)

theorem ceilDiv_le (ha : 0 < a) (hb : 0 < b) (h : a ≤ b * m) : ceilDiv a b ≤ 2 * m := by
  have ha : (0 : ℚ) < a := by exact_mod_cast ha
  have hb : (0 : ℚ) < b := by exact_mod_cast hb
  have hm : (a : ℚ) / b ≤ m := by
    rw [div_le_iff₀ hb, mul_comm]
    exact_mod_cast h
  have hquot : 0 < (a : ℚ) / b := div_pos ha hb
  refine Nat.ceil_le.mpr ?_
  calc round (round a / b)
      ≤ round a / b * (1 + 1 / 2 ^ 53) := round_le (div_pos (round_pos ha) hb)
    _ ≤ a * (1 + 1 / 2 ^ 53) / b * (1 + 1 / 2 ^ 53) := by gcongr; exact round_le ha
    _ = a / b * ((1 + 1 / 2 ^ 53) * (1 + 1 / 2 ^ 53)) := by ring
    _ ≤ m * 2 := by
      refine mul_le_mul hm (by norm_num) (by positivity) (by positivity)
    _ = ((2 * m : ℕ) : ℚ) := by push_cast; ring

/-- Below 2 ^ 53 the rounding does not show. -/
theorem ceilDiv_eq (hlt : a < 2 ^ 53) (ha : 0 < a) (hb : 0 < b) : ceilDiv a b = a ⌈/⌉ b := by
  have hb' : (0 : ℚ) < b := by exact_mod_cast hb
  have ha' : (0 : ℚ) < a := by exact_mod_cast ha
  rw [ceilDiv, round_natCast ha hlt]
  obtain ⟨q, rfl⟩ | hdvd := em (b ∣ a)
  · have hq : 0 < q := Nat.pos_of_mul_pos_left ha
    have hqlt : q < 2 ^ 53 := Nat.lt_of_le_of_lt (Nat.le_mul_of_pos_left q hb) hlt
    rw [Nat.cast_mul, mul_div_cancel_left₀ _ hb'.ne', round_natCast hq hqlt, Nat.ceil_natCast]
    exact (smul_ceilDiv hb q).symm
  · -- the quotient is at least 1 / b away from the integers, and the error is less than that
    obtain ⟨q, r, hr, hrb, rfl⟩ : ∃ q r, 0 < r ∧ r < b ∧ a = b * q + r :=
      ⟨a / b, a % b, Nat.pos_of_ne_zero (mt Nat.dvd_of_mod_eq_zero hdvd), Nat.mod_lt a hb,
        (Nat.div_add_mod a b).symm⟩
    have hceil : (b * q + r) ⌈/⌉ b = q + 1 := by
      rw [Nat.ceilDiv_eq_add_pred_div]
      have hlow : (q + 1) * b = b * q + b := by ring
      have hhigh : (q + 1 + 1) * b = b * q + b + b := by ring
      refine Nat.div_eq_of_lt_le ?_ ?_
      · rw [hlow]
        omega
      · rw [hhigh]
        omega
    have hquot : ((b * q + r : ℕ) : ℚ) / b = q + r / b := by
      push_cast
      field_simp
    obtain ⟨hlow, hhigh⟩ := abs_le.mp (abs_round_sub_le (div_pos ha' hb'))
    have herr : ((b * q + r : ℕ) : ℚ) / b / 2 ^ 53 < 1 / b := by
      rw [div_right_comm]
      refine div_lt_div_of_pos_right ?_ hb'
      rw [div_lt_one (by positivity)]
      exact_mod_cast hlt
    have hrlow : 1 / (b : ℚ) ≤ r / b := div_le_div_of_nonneg_right (by exact_mod_cast hr) hb'.le
    have hrhigh : (r : ℚ) / b + 1 / b ≤ 1 := by
      rw [← add_div, div_le_one hb']
      exact_mod_cast hrb
    rw [hceil, Nat.ceil_eq_iff (Nat.succ_ne_zero q), Nat.succ_sub_one, Nat.cast_succ]
    constructor <;> linarith

end MuduoX.Double
