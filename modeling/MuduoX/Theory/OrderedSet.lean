import Mathlib

/-! # Ordered sets

A finite set as the strictly increasing list in which it is walked, like `std::set`. Insertion of
an element that is there does nothing; `begin?` is the least element; `below x` and `notBelow x`
are the two parts of the set in front of and from the lower bound of `x`. -/

namespace MuduoX

structure OrderedSet (α : Type*) [LinearOrder α] where
  toList : List α
  sorted : toList.Pairwise (· < ·)

namespace OrderedSet

variable {α : Type*} [LinearOrder α]

instance : Membership α (OrderedSet α) := ⟨fun s a => a ∈ s.toList⟩

theorem mem_def {s : OrderedSet α} {a : α} : a ∈ s ↔ a ∈ s.toList := Iff.rfl

instance (s : OrderedSet α) (a : α) : Decidable (a ∈ s) :=
  inferInstanceAs (Decidable (a ∈ s.toList))

def empty : OrderedSet α := ⟨[], .nil⟩

instance : EmptyCollection (OrderedSet α) := ⟨empty⟩

def insertList (a : α) : List α → List α
  | [] => [a]
  | b :: l => if a < b then a :: b :: l else if a = b then b :: l else b :: insertList a l

theorem mem_insertList {a x : α} {l : List α} : x ∈ insertList a l ↔ x = a ∨ x ∈ l := by
  induction l with
  | nil => simp [insertList]
  | cons b l ih =>
    rw [insertList]
    split
    · simp
    split
    · rename_i hab
      simp [hab]
    · simp only [List.mem_cons, ih]
      exact or_left_comm

theorem pairwise_insertList {a : α} {l : List α} (h : l.Pairwise (· < ·)) :
    (insertList a l).Pairwise (· < ·) := by
  induction l with
  | nil => exact List.pairwise_singleton ..
  | cons b l ih =>
    obtain ⟨hb, hl⟩ := List.pairwise_cons.mp h
    rw [insertList]
    split
    · rename_i hab
      refine List.pairwise_cons.mpr ⟨fun x hx => ?_, h⟩
      obtain rfl | hx := List.mem_cons.mp hx
      · exact hab
      · exact hab.trans (hb x hx)
    split
    · exact h
    · rename_i hab hne
      refine List.pairwise_cons.mpr ⟨fun x hx => ?_, ih hl⟩
      obtain rfl | hx := mem_insertList.mp hx
      · exact lt_of_le_of_ne (not_lt.mp hab) (Ne.symm hne)
      · exact hb x hx

def insert (a : α) (s : OrderedSet α) : OrderedSet α :=
  ⟨insertList a s.toList, pairwise_insertList s.sorted⟩

def erase (a : α) (s : OrderedSet α) : OrderedSet α :=
  ⟨s.toList.erase a, s.sorted.sublist List.erase_sublist⟩

/-- `*begin()`. -/
def begin? (s : OrderedSet α) : Option α := s.toList.head?

/-- The elements in `[begin(), lower_bound(x))`. -/
def below (x : α) (s : OrderedSet α) : List α := s.toList.takeWhile (· < x)

/-- `erase(begin(), lower_bound(x))`. -/
def notBelow (x : α) (s : OrderedSet α) : OrderedSet α :=
  ⟨s.toList.dropWhile (· < x), s.sorted.sublist (List.dropWhile_sublist _)⟩

variable {s : OrderedSet α} {a x : α}

theorem nodup (s : OrderedSet α) : s.toList.Nodup := s.sorted.imp ne_of_lt

@[simp] theorem notMem_empty : a ∉ (∅ : OrderedSet α) := List.not_mem_nil

@[simp] theorem mem_insert : x ∈ s.insert a ↔ x = a ∨ x ∈ s := mem_insertList

@[simp] theorem mem_erase : x ∈ s.erase a ↔ x ≠ a ∧ x ∈ s := s.nodup.mem_erase_iff

theorem mem_begin? (h : s.begin? = some a) : a ∈ s := List.mem_of_head? h

/-- The first element is the least. -/
theorem begin?_le (h : s.begin? = some a) (hx : x ∈ s) : a ≤ x := by
  obtain ⟨l, hl⟩ := List.head?_eq_some_iff.mp h
  have hs := s.sorted
  rw [mem_def, hl] at hx
  rw [hl] at hs
  obtain rfl | hx := List.mem_cons.mp hx
  · exact le_refl _
  · exact (List.rel_of_pairwise_cons hs hx).le

theorem begin?_eq_none : s.begin? = none ↔ ∀ x, x ∉ s := by
  rw [begin?, List.head?_eq_none_iff, List.eq_nil_iff_forall_not_mem]
  rfl

theorem takeWhile_lt {l : List α} (h : l.Pairwise (· < ·)) (y : α) :
    y ∈ l.takeWhile (· < x) ↔ y ∈ l ∧ y < x := by
  induction l with
  | nil => simp
  | cons b l ih =>
    obtain ⟨hb, hl⟩ := List.pairwise_cons.mp h
    rw [List.takeWhile_cons]
    split
    · rename_i hbx
      simp only [List.mem_cons, ih hl, or_and_right]
      exact or_congr_left ⟨fun hy => ⟨hy, hy ▸ of_decide_eq_true hbx⟩, And.left⟩
    · rename_i hbx
      rw [decide_eq_true_iff, not_lt] at hbx
      refine ⟨fun hy => (List.not_mem_nil hy).elim, fun ⟨hy, hyx⟩ => ?_⟩
      obtain rfl | hy := List.mem_cons.mp hy
      · exact absurd hyx (not_lt.mpr hbx)
      · exact absurd (hb y hy) (not_lt.mpr (hyx.le.trans hbx))

theorem mem_below : x ∈ s.below a ↔ x ∈ s ∧ x < a := takeWhile_lt s.sorted x

/-- The elements below `a` are picked by the order alone. -/
theorem below_eq_filter (a : α) (s : OrderedSet α) : s.below a = s.toList.filter (· < a) := by
  have hfilter {l : List α} (h : l.Pairwise (· < ·)) :
      l.takeWhile (· < a) = l.filter (· < a) := by
    induction l with
    | nil => rfl
    | cons b l ih =>
      obtain ⟨hb, hl⟩ := List.pairwise_cons.mp h
      rw [List.takeWhile_cons, List.filter_cons, ih hl]
      split
      · rfl
      · rename_i hba
        refine (List.filter_eq_nil_iff.mpr fun x hx => ?_).symm
        rw [decide_eq_true_iff, not_lt] at hba ⊢
        exact hba.trans (hb x hx).le
  exact hfilter s.sorted

theorem nodup_below (a : α) (s : OrderedSet α) : (s.below a).Nodup :=
  s.nodup.sublist (List.takeWhile_sublist _)

@[simp] theorem mem_notBelow : x ∈ s.notBelow a ↔ x ∈ s ∧ ¬x < a := by
  have hsplit := List.takeWhile_append_dropWhile (p := (· < a)) (l := s.toList)
  have hnd : (s.toList.takeWhile (· < a) ++ s.toList.dropWhile (· < a)).Nodup := by
    rw [hsplit]
    exact s.nodup
  have hmem : x ∈ s ↔ x ∈ s.below a ∨ x ∈ s.notBelow a := by
    rw [mem_def, ← hsplit, List.mem_append]
    rfl
  constructor
  · intro hx
    exact ⟨hmem.mpr (.inr hx), fun hlt =>
      List.disjoint_of_nodup_append hnd (mem_below.mpr ⟨hmem.mpr (.inr hx), hlt⟩) hx⟩
  · rintro ⟨hx, hlt⟩
    exact (hmem.mp hx).resolve_left fun hb => hlt (mem_below.mp hb).2

end OrderedSet

end MuduoX
