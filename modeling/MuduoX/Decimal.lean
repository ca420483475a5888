import MuduoX.Bytes

/-! Numbers printed in decimal, and read back. -/

namespace MuduoX

/-- The decimal digits that `%d`, `%zd` and `std::to_string` print for a number that is not
negative. -/
def digits (n : Nat) : Bytes := (Nat.toDigits 10 n).map fun c => UInt8.ofNat c.toNat

theorem toNat_of_isDigit {c : Char} (h : c.isDigit) : (UInt8.ofNat c.toNat).toNat = c.toNat ∧
    isDigit (UInt8.ofNat c.toNat) := by
  simp only [Char.isDigit, Bool.and_eq_true, decide_eq_true_eq, ge_iff_le, UInt32.le_iff_toNat_le]
    at h
  have hlow : 48 ≤ c.toNat := h.1
  have hhigh : c.toNat ≤ 57 := h.2
  have heq : (UInt8.ofNat c.toNat).toNat = c.toNat := by
    rw [UInt8.toNat_ofNat']
    omega
  refine ⟨heq, ?_⟩
  simp only [isDigit, Bool.and_eq_true, decide_eq_true_eq, UInt8.le_iff_toNat_le, heq]
  exact ⟨hlow, hhigh⟩

theorem isDigit_of_mem_digits {n : Nat} {d : Byte} (h : d ∈ digits n) : isDigit d := by
  obtain ⟨c, hc, rfl⟩ := List.mem_map.mp h
  exact (toNat_of_isDigit (Nat.isDigit_of_mem_toDigits (by decide) (by decide) hc)).2

theorem digits_ne_nil (n : Nat) : digits n ≠ [] := by
  rw [digits, Ne, List.map_eq_nil_iff]
  exact Nat.toDigits_ne_nil

theorem length_digits_le {n k : Nat} (hk : 0 < k) (h : n < 10 ^ k) : (digits n).length ≤ k := by
  rw [digits, List.length_map]
  exact (Nat.length_toDigits_le_iff (by decide) hk).mpr h

/-- Reading the digits gives the number back. -/
theorem decimal_digits (n : Nat) : decimal (digits n) = n := by
  have hfold (cs : List Char) (hcs : ∀ c ∈ cs, c.isDigit) (m : Nat) :
      (cs.map fun c => UInt8.ofNat c.toNat).foldl (fun n d => 10 * n + (d.toNat - 48)) m =
        Nat.ofDigitChars 10 cs m := by
    induction cs generalizing m with
    | nil => rfl
    | cons c cs ih =>
      obtain ⟨hc, hcs⟩ := List.forall_mem_cons.mp hcs
      rw [List.map_cons, List.foldl_cons, ih hcs, (toNat_of_isDigit hc).1, Nat.ofDigitChars_cons]
      rfl
  rw [decimal, digits, hfold _ fun c hc =>
    Nat.isDigit_of_mem_toDigits (by decide) (by decide) hc, Nat.ofDigitChars_ten_toDigits]

theorem digits_eq_if (n : Nat) : digits n =
    if n < 10 then [UInt8.ofNat (48 + n)] else digits (n / 10) ++ [UInt8.ofNat (48 + n % 10)] := by
  have hdigit (d : Nat) (hd : d < 10) : d.digitChar.toNat = 48 + d :=
    Nat.toNat_digitChar_of_lt_ten hd
  rw [digits, Nat.toDigits_eq_if (by decide)]
  split
  · rename_i hn
    rw [List.map_singleton, hdigit n hn]
  · rw [List.map_append, List.map_singleton, hdigit _ (Nat.mod_lt n (by decide)), digits]

/-- No leading zero. -/
theorem head?_digits {n : Nat} (h : n ≠ 0) : (digits n).head? ≠ some 48 := by
  induction n using Nat.strong_induction_on with
  | _ n ih =>
    rw [digits_eq_if]
    split
    · rename_i hn
      interval_cases n <;> first | exact absurd rfl h | decide
    · rw [List.head?_append_of_ne_nil _ (digits_ne_nil _)]
      exact ih (n / 10) (by omega) (by omega)

/-- A `-` in front of the digits of a negative number. -/
def signedDigits (n : Int) : Bytes := if n < 0 then 45 :: digits n.natAbs else digits n.natAbs

/-- What an optional `-` and digits without leading zeros say. -/
def parseInteger (text : Bytes) : Option Int :=
  let negative := text.head? = some 45
  let ds := if negative then text.tail else text
  if ds ≠ [] ∧ (∀ d ∈ ds, isDigit d) ∧ (ds.head? = some 48 → ds = [48]) then
    some (if negative then -(decimal ds : Int) else decimal ds)
  else none

theorem parseInteger_signedDigits (n : Int) : parseInteger (signedDigits n) = some n := by
  have hplain (m : Nat) : digits m ≠ [] ∧ (∀ d ∈ digits m, isDigit d) ∧
      ((digits m).head? = some 48 → digits m = [48]) := by
    refine ⟨digits_ne_nil m, fun _ => isDigit_of_mem_digits, fun hhead => ?_⟩
    obtain rfl | hm := eq_or_ne m 0
    · rfl
    · exact absurd hhead (head?_digits hm)
  rw [parseInteger, signedDigits]
  split
  · rename_i hneg
    simp only [List.head?_cons, List.tail_cons, if_true]
    rw [if_pos (hplain _), decimal_digits]
    congr 1
    omega
  · rename_i hpos
    have hhead : (digits n.natAbs).head? ≠ some 45 := by
      intro hhead
      have hdigit := isDigit_of_mem_digits (List.mem_of_mem_head? hhead)
      cases hdigit
    simp only [hhead, if_false]
    rw [if_pos (hplain _), decimal_digits]
    congr 1
    omega

end MuduoX
