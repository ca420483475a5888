import Mathlib

/-! # Byte memory, regions, and lists threaded through memory

Memory is a function from addresses to bytes; a word of `w` bytes is stored with its lowest byte
first. Regions are ranges of addresses. A list is threaded through memory when its head is kept
somewhere and each element holds, as a word at its own address, the next one; 0 is behind the end. -/

namespace MuduoX

abbrev ByteMemory := Nat → UInt8

namespace ByteMemory

variable {m m' : ByteMemory} {p q v w w' : Nat}

/-- The word of `w` bytes at `p`. -/
def load (m : ByteMemory) (p : Nat) : Nat → Nat
  | 0 => 0
  | w + 1 => (m p).toNat + 256 * m.load (p + 1) w

def store (p v w : Nat) (m : ByteMemory) : ByteMemory := fun a =>
  if p ≤ a ∧ a < p + w then UInt8.ofNat (v / 256 ^ (a - p)) else m a

theorem load_congr (h : ∀ a, p ≤ a → a < p + w → m' a = m a) : m'.load p w = m.load p w := by
  induction w generalizing p with
  | zero => rfl
  | succ w ih =>
    rw [load, load, h p (Nat.le_refl p) (by omega), ih fun a ha ha' => h a (by omega) (by omega)]

/-- The bytes of a word are its digits. -/
theorem load_of_digits (h : ∀ k < w, (m (p + k)).toNat = v / 256 ^ k % 256) :
    m.load p w = v % 256 ^ w := by
  induction w generalizing p v with
  | zero => rw [load, pow_zero, Nat.mod_one]
  | succ w ih =>
    have hlow := h 0 (Nat.succ_pos w)
    rw [Nat.add_zero, pow_zero, Nat.div_one] at hlow
    have hhigh : m.load (p + 1) w = v / 256 % 256 ^ w := by
      refine ih fun k hk => ?_
      rw [Nat.div_div_eq_div_mul, ← pow_succ', ← h (k + 1) (by omega), Nat.add_assoc,
        Nat.add_comm 1]
    rw [load, hlow, hhigh, pow_succ', Nat.mod_mul]

theorem load_store_same (hv : v < 256 ^ w) : (m.store p v w).load p w = v := by
  rw [load_of_digits (v := v) fun k hk => ?_, Nat.mod_eq_of_lt hv]
  rw [store, if_pos ⟨by omega, by omega⟩, Nat.add_sub_cancel_left, UInt8.toNat_ofNat']

theorem store_of_disjoint {a : Nat} (h : a < p ∨ p + w ≤ a) : m.store p v w a = m a :=
  if_neg (by omega)

theorem load_store_of_disjoint (h : p + w ≤ q ∨ q + w' ≤ p) :
    (m.store p v w).load q w' = m.load q w' :=
  load_congr fun a ha ha' => store_of_disjoint (by omega)

end ByteMemory

/-! ## Regions -/

structure Region where
  base : Nat
  size : Nat
  deriving DecidableEq, Repr

namespace Region

variable {r r' s s' : Region}

def Disjoint (r r' : Region) : Prop := r.base + r.size ≤ r'.base ∨ r'.base + r'.size ≤ r.base

instance : Decidable (r.Disjoint r') := inferInstanceAs (Decidable (_ ∨ _))

def Within (r r' : Region) : Prop := r'.base ≤ r.base ∧ r.base + r.size ≤ r'.base + r'.size

theorem Within.refl (r : Region) : r.Within r := ⟨Nat.le_refl _, Nat.le_refl _⟩

theorem Within.trans {t : Region} (h : r.Within s) (h' : s.Within t) : r.Within t :=
  ⟨h'.1.trans h.1, h.2.trans h'.2⟩

theorem Disjoint.symm (h : r.Disjoint r') : r'.Disjoint r := Or.symm h

theorem Disjoint.mono (h : r.Disjoint r') (hs : s.Within r) (hs' : s'.Within r') :
    s.Disjoint s' := by
  obtain ⟨h₁, h₂⟩ := hs
  obtain ⟨h₃, h₄⟩ := hs'
  exact h.imp (fun h => by omega) fun h => by omega

/-- Regions of one size at different multiples of it do not overlap. -/
theorem disjoint_of_dvd {n a b : Nat} (ha : n ∣ a) (hb : n ∣ b) (hne : a ≠ b) :
    (⟨a, n⟩ : Region).Disjoint ⟨b, n⟩ := by
  obtain ⟨i, rfl⟩ := ha
  obtain ⟨j, rfl⟩ := hb
  obtain hlt | hlt := Nat.lt_or_gt_of_ne fun hij : i = j => hne (by rw [hij])
  · exact .inl (by rw [← Nat.mul_succ]; exact Nat.mul_le_mul_left n hlt)
  · exact .inr (by rw [← Nat.mul_succ]; exact Nat.mul_le_mul_left n hlt)

end Region

/-! ## Threaded lists -/

/-- `head` leads to the elements of the list, one after the other. -/
def Threaded (next : Nat → Nat) : Nat → List Nat → Prop
  | head, [] => head = 0
  | head, a :: as => head = a ∧ a ≠ 0 ∧ Threaded next (next a) as

namespace Threaded

variable {next next' : Nat → Nat} {head : Nat} {as : List Nat}

theorem congr (h : Threaded next head as) (hnext : ∀ a ∈ as, next' a = next a) :
    Threaded next' head as := by
  induction as generalizing head with
  | nil => exact h
  | cons a as ih =>
    obtain ⟨hhead, hne, has⟩ := h
    refine ⟨hhead, hne, ih ?_ fun b hb => hnext b (List.mem_cons_of_mem _ hb)⟩
    rwa [hnext a (List.mem_cons_self ..)]

/-- A head that is not null is the first element, and the rest hangs on it. -/
theorem pop (h : Threaded next head as) (hne : head ≠ 0) :
    ∃ rest, as = head :: rest ∧ Threaded next (next head) rest := by
  cases as with
  | nil => exact absurd h hne
  | cons a rest =>
    obtain ⟨rfl, -, hrest⟩ := h
    exact ⟨rest, rfl, hrest⟩

theorem eq_nil (h : Threaded next 0 as) : as = [] := by
  cases as with
  | nil => rfl
  | cons a rest =>
    obtain ⟨rfl, hne, -⟩ := h
    exact absurd rfl hne

theorem head_lt {n : Nat} (h : Threaded next head as) (hpos : 0 < n) (hlt : ∀ a ∈ as, a < n) :
    head < n := by
  cases as with
  | nil => exact h.symm ▸ hpos
  | cons a rest =>
    obtain ⟨rfl, -⟩ := h
    exact hlt _ (List.mem_cons_self ..)

/-- The links lead to one list only. -/
theorem unique {bs : List Nat} (h : Threaded next head as) (h' : Threaded next head bs) :
    as = bs := by
  induction as generalizing head bs with
  | nil =>
    cases h
    exact h'.eq_nil.symm
  | cons a as ih =>
    obtain ⟨rfl, hne, has⟩ := h
    obtain ⟨rest, rfl, hrest⟩ := h'.pop hne
    rw [ih has hrest]

theorem of_append {bs : List Nat} (h : Threaded next head (as ++ bs)) :
    ∃ mid, Threaded next mid bs := by
  induction as generalizing head with
  | nil => exact ⟨head, h⟩
  | cons a as ih => exact ih h.2.2

/-- No element comes twice: the links would lead around for ever. -/
theorem nodup (h : Threaded next head as) : as.Nodup := by
  induction as generalizing head with
  | nil => exact List.nodup_nil
  | cons a as ih =>
    obtain ⟨-, -, has⟩ := h
    refine List.nodup_cons.mpr ⟨fun hmem => ?_, ih has⟩
    obtain ⟨xs, ys, rfl⟩ := List.append_of_mem hmem
    obtain ⟨mid, -, -, hys⟩ := has.of_append
    have hlen := congrArg List.length (has.unique hys)
    rw [List.length_append, List.length_cons] at hlen
    omega

end Threaded

end MuduoX
