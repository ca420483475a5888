import Mathlib

/-! # Lexical paths

A path is a string over an alphabet with a separator and a dot. It is read component by component:
empty components and single dots stand for nothing, a double dot takes the last name away. What a
path *names*, symbolic links aside, is its normal form, and `Inside` says that one path names
something strictly below another. -/

namespace MuduoX.Path

variable {α : Type*} [DecidableEq α] (sep dot : α)

/-- The pieces between the separators. There is always at least one. -/
def components : List α → List (List α)
  | [] => [[]]
  | a :: p =>
    if a = sep then [] :: components p
    else match components p with
      | [] => [[a]]
      | c :: cs => (a :: c) :: cs

theorem components_ne_nil (p : List α) : components sep p ≠ [] := by
  cases p with
  | nil => simp [components]
  | cons a p =>
    unfold components
    split
    · simp
    · split <;> simp

/-- The component behind the last separator. -/
def last (p : List α) : List α := (components sep p).getLast (components_ne_nil sep p)

theorem dropLast_append_last (p : List α) :
    (components sep p).dropLast ++ [last sep p] = components sep p :=
  List.dropLast_append_getLast _

@[simp] theorem components_sep (p : List α) :
    components sep (sep :: p) = [] :: components sep p := by
  simp [components]

theorem components_cons {a : α} (h : a ≠ sep) {p c : List α} {cs : List (List α)}
    (hp : components sep p = c :: cs) : components sep (a :: p) = (a :: c) :: cs := by
  simp [components, h, hp]

/-- A path behind another continues its last component. -/
theorem components_append (p : List α) {q c : List α} {cs : List (List α)}
    (hq : components sep q = c :: cs) :
    components sep (p ++ q) = (components sep p).dropLast ++ (last sep p ++ c) :: cs := by
  induction p with
  | nil => simp [last, components, hq]
  | cons a p ih =>
    rw [List.cons_append]
    rcases Decidable.em (a = sep) with rfl | ha
    · simp only [components_sep, ih, last]
      rw [List.dropLast_cons_of_ne_nil (components_ne_nil _ p),
        List.getLast_cons (components_ne_nil _ p)]
      rfl
    · obtain ⟨d, ds, hp⟩ := List.exists_cons_of_ne_nil (components_ne_nil sep p)
      have hcons := components_cons sep ha hp
      simp only [last, hp] at ih
      cases ds with
      | nil =>
        simp only [last, hcons]
        rw [components_cons sep ha ih]
        simp
      | cons e ds =>
        simp only [last, hcons]
        rw [components_cons sep ha ih]
        simp

theorem components_append_sep (p q : List α) :
    components sep (p ++ sep :: q) = components sep p ++ components sep q := by
  rw [components_append sep p (components_sep sep q), List.append_nil]
  conv => rhs; rw [← dropLast_append_last]
  simp

theorem last_append_sep (p q : List α) : last sep (p ++ sep :: q) = last sep q := by
  simp only [last, components_append_sep]
  exact List.getLast_append_of_right_ne_nil _ _ (components_ne_nil sep q)

/-- The first component begins the path. -/
theorem head_isPrefix {p c : List α} {cs : List (List α)} (h : components sep p = c :: cs) :
    c <+: p := by
  induction p generalizing c cs with
  | nil => cases h; exact List.nil_prefix
  | cons a p ih =>
    rcases Decidable.em (a = sep) with rfl | ha
    · rw [components_sep] at h
      cases h
      exact List.nil_prefix
    · obtain ⟨d, ds, hp⟩ := List.exists_cons_of_ne_nil (components_ne_nil sep p)
      rw [components_cons sep ha hp] at h
      cases h
      exact List.cons_prefix_cons.mpr ⟨rfl, ih hp⟩

/-- A component is a contiguous part of the path. -/
theorem infix_of_mem_components {p c : List α} (h : c ∈ components sep p) : c <:+: p := by
  induction p with
  | nil =>
    rw [components, List.mem_singleton] at h
    exact h ▸ List.nil_infix
  | cons a p ih =>
    obtain ⟨d, ds, hp⟩ := List.exists_cons_of_ne_nil (components_ne_nil sep p)
    rcases Decidable.em (a = sep) with rfl | ha
    · rw [components_sep] at h
      rcases List.mem_cons.mp h with rfl | h
      · exact List.nil_infix
      · exact List.infix_cons (ih h)
    · have hcons := components_cons sep ha hp
      rw [hcons] at h
      rcases List.mem_cons.mp h with rfl | h
      · exact (head_isPrefix sep hcons).isInfix
      · exact List.infix_cons (ih (hp ▸ List.mem_cons_of_mem d h))

/-! ### Normal forms -/

/-- One component more. A double dot above the root of an absolute path stays at the root; above
the start of a relative path it is kept. -/
def push (absolute : Bool) (names : List (List α)) (c : List α) : List (List α) :=
  if c = [] ∨ c = [dot] then names
  else if c = [dot, dot] then
    match names.getLast? with
    | none => if absolute then names else [c]
    | some top => if top = [dot, dot] then names ++ [c] else names.dropLast
  else names ++ [c]

/-- A component that is a name: neither empty nor a dot nor a double dot. -/
def IsName (c : List α) : Prop := c ≠ [] ∧ c ≠ [dot] ∧ c ≠ [dot, dot]

instance (c : List α) : Decidable (IsName dot c) := inferInstanceAs (Decidable (_ ∧ _ ∧ _))

def absolute (p : List α) : Bool := p.head? = some sep

/-- The names of a path in normal form. -/
def names (p : List α) : List (List α) :=
  (components sep p).foldl (push dot (absolute sep p)) []

/-- `p` names something strictly below the directory that `root` names. -/
def Inside (root p : List α) : Prop :=
  absolute sep p = absolute sep root ∧
    ∃ below : List (List α), below ≠ [] ∧ [dot, dot] ∉ below ∧
      names sep dot p = names sep dot root ++ below

variable {dot}

theorem push_name {abs : Bool} {ns : List (List α)} {c : List α} (h : IsName dot c) :
    push dot abs ns c = ns ++ [c] := by
  simp [push, h.1, h.2.1, h.2.2]

/-- Without double dots every name is added behind the others. -/
theorem foldl_push {abs : Bool} {cs ns : List (List α)} (h : [dot, dot] ∉ cs) :
    cs.foldl (push dot abs) ns = ns ++ cs.filter (IsName dot ·) := by
  induction cs generalizing ns with
  | nil => simp
  | cons c cs ih =>
    rw [List.mem_cons, not_or] at h
    rw [List.foldl_cons, ih h.2]
    rcases Decidable.em (IsName dot c) with hc | hc
    · rw [push_name hc, List.filter_cons_of_pos (by simpa using hc)]
      simp
    · have hskip : c = [] ∨ c = [dot] := by
        unfold IsName at hc
        have := Ne.symm h.1
        tauto
      rw [List.filter_cons_of_neg (by simpa using hc), push, if_pos hskip]

/-- Below a directory, without double dots and with at least one name. -/
theorem inside_of_names {root q : List α} (hroot : root ≠ [])
    (hdots : [dot, dot] ∉ components sep q) (hname : ∃ c ∈ components sep q, IsName dot c) :
    Inside sep dot root (root ++ sep :: q) := by
  have habs : absolute sep (root ++ sep :: q) = absolute sep root := by
    unfold absolute
    rw [List.head?_append_of_ne_nil _ hroot]
  obtain ⟨c, hc, hn⟩ := hname
  refine ⟨habs, (components sep q).filter (IsName dot ·), ?_, ?_, ?_⟩
  · exact List.ne_nil_of_mem (List.mem_filter.mpr ⟨hc, by simpa using hn⟩)
  · exact fun h => hdots (List.mem_of_mem_filter h)
  · rw [names, habs, components_append_sep, List.foldl_append, foldl_push hdots]
    rfl

theorem names_of_last {p : List α} (h : IsName dot (last sep p)) :
    names sep dot p =
      (components sep p).dropLast.foldl (push dot (absolute sep p)) [] ++ [last sep p] := by
  conv => lhs; rw [names, ← dropLast_append_last sep p]
  rw [List.foldl_append, List.foldl_cons, push_name h, List.foldl_nil]

omit [DecidableEq α] in
theorem IsName.append {c d : List α} (h : IsName dot c) : IsName dot (c ++ d) := by
  obtain ⟨h₁, h₂, h₃⟩ := h
  refine ⟨by simp [h₁], fun h => ?_, fun h => ?_⟩
  · rcases List.append_eq_singleton_iff.mp h with ⟨hc, -⟩ | ⟨hc, -⟩
    · exact h₁ hc
    · exact h₂ hc
  · rcases List.append_eq_cons_iff.mp h with ⟨hc, -⟩ | ⟨e, hc, he⟩
    · exact h₁ hc
    · rcases List.append_eq_singleton_iff.mp he.symm with ⟨rfl, -⟩ | ⟨rfl, -⟩
      · exact h₂ hc
      · exact h₃ hc

/-- A path glued to the last name of a directory leaves the directory. -/
theorem not_inside_of_glued {root q : List α} (hroot : IsName dot (last sep root))
    (hdots : [dot, dot] ∉ components sep q) (hq : q.head? ≠ some sep) :
    ¬Inside sep dot root (root ++ q) := by
  rintro ⟨habs, below, hne, -, hnames⟩
  cases q with
  | nil =>
    rw [List.append_nil] at hnames
    exact hne (List.self_eq_append_right.mp hnames)
  | cons a q =>
    have ha : a ≠ sep := fun h => hq (by rw [h]; rfl)
    obtain ⟨c, cs, hcs⟩ := List.exists_cons_of_ne_nil (components_ne_nil sep q)
    have hcomps := components_cons sep ha hcs
    rw [hcomps, List.mem_cons, not_or] at hdots
    -- both paths begin with the names before the last one, and then differ in that one
    rw [names_of_last sep hroot, names, habs, components_append sep root hcomps,
      List.foldl_append, List.foldl_cons, foldl_push hdots.2, push_name hroot.append,
      List.append_assoc, List.append_assoc, List.append_cancel_left_eq] at hnames
    have hlast := (List.cons.inj hnames).1
    simp at hlast

end MuduoX.Path
