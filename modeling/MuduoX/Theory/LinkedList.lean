import Mathlib

/-! # Doubly linked lists between two sentinels

`Links` are the `pre` and `next` pointers of a heap of cells. `IsList h xs t` says that the cells
`xs` stand in this order between the sentinels `h` and `t`; `insertBefore` and `unlink` are the two
operations, and `IsList.congr` is the frame rule: a list is what it was when its own cells are. -/

namespace MuduoX

structure Links (P : Type*) where
  pre : P → Option P
  next : P → Option P

namespace Links

section
variable {P : Type*} {L L' : Links P} {h t p q : P} {xs ps : List P}

/-- `p` is followed by `q`. -/
def Edge (L : Links P) (p q : P) : Prop := L.next p = some q ∧ L.pre q = some p

structure IsList (L : Links P) (h : P) (xs : List P) (t : P) : Prop where
  linked : (h :: xs ++ [t]).IsChain L.Edge
  nodup : (h :: xs ++ [t]).Nodup

/-- The last cell's `next` and the first cell's `pre` do not matter. -/
theorem isChain_congr (hl : ps.IsChain L.Edge) (hnext : ∀ p ∈ ps.dropLast, L'.next p = L.next p)
    (hpre : ∀ p ∈ ps.tail, L'.pre p = L.pre p) : ps.IsChain L'.Edge := by
  induction ps with
  | nil => exact .nil
  | cons p ps ih =>
    cases ps with
    | nil => exact .singleton p
    | cons q ps =>
      rw [List.isChain_cons_cons] at hl ⊢
      obtain ⟨⟨hn, hp⟩, hl⟩ := hl
      refine ⟨⟨(hnext p List.mem_cons_self).trans hn, (hpre q List.mem_cons_self).trans hp⟩,
        ih hl (fun r hr => hnext r (List.mem_cons_of_mem _ hr)) fun r hr => hpre r ?_⟩
      exact List.mem_cons_of_mem _ hr

/-- **Frame.** -/
theorem IsList.congr (hl : L.IsList h xs t)
    (hsame : ∀ p ∈ h :: xs ++ [t], L'.next p = L.next p ∧ L'.pre p = L.pre p) :
    L'.IsList h xs t where
  linked := isChain_congr hl.linked (fun p hp => (hsame p (List.mem_of_mem_dropLast hp)).1)
    fun p hp => (hsame p (List.mem_of_mem_tail hp)).2
  nodup := hl.nodup

theorem IsList.next_head (hl : L.IsList h xs t) : L.next h = some (xs.headD t) := by
  cases xs with
  | nil => exact (List.isChain_pair.mp hl.linked).1
  | cons x xs => exact (List.isChain_cons_cons.mp hl.linked).1.1

theorem IsList.head_ne (hl : L.IsList h xs t) : t ∉ xs := by
  intro ht
  have := (List.nodup_append.mp hl.nodup).2.2 t (List.mem_cons_of_mem _ ht) t
    (List.mem_singleton_self t)
  exact this rfl

theorem IsList.next_head_eq (hl : L.IsList h xs t) : L.next h = some t ↔ xs = [] := by
  rw [hl.next_head]
  cases xs with
  | nil => simp
  | cons x xs =>
    refine ⟨fun h => ?_, nofun⟩
    rw [List.headD_cons] at h
    exact absurd (Option.some.inj h ▸ List.mem_cons_self) hl.head_ne

/-- The cell in front of the last sentinel. -/
theorem IsList.pre_tail (hl : L.IsList h xs t) : ∃ as a, h :: xs = as ++ [a] ∧ L.pre t = some a := by
  obtain ⟨as, a, heq⟩ : ∃ as a, h :: xs = as ++ [a] :=
    ⟨_, _, (List.dropLast_concat_getLast (List.cons_ne_nil h xs)).symm⟩
  refine ⟨as, a, heq, ?_⟩
  have hlinked := hl.linked
  rw [heq, List.append_assoc, List.singleton_append, List.isChain_append_cons_cons] at hlinked
  exact hlinked.2.1.2

end

section
variable {P : Type*} [DecidableEq P]

def setPre (L : Links P) (p : P) (q : Option P) : Links P :=
  { L with pre := Function.update L.pre p q }

def setNext (L : Links P) (p : P) (q : Option P) : Links P :=
  { L with next := Function.update L.next p q }

/-- `p.pre = t.pre; p.next = t; t.pre.next = p; t.pre = p`, if `t` has a predecessor. -/
def insertBefore (L : Links P) (t p : P) : Option (Links P) :=
  (L.pre t).map fun a =>
    (((L.setPre p (some a)).setNext p (some t)).setNext a (some p)).setPre t (some p)

/-- `p.pre.next = p.next; p.next.pre = p.pre; p.pre = p.next = null`, if `p` is linked. -/
def unlink (L : Links P) (p : P) : Links P :=
  match L.pre p, L.next p with
  | some a, some b =>
    (((L.setNext a (some b)).setPre b (some a)).setPre p none).setNext p none
  | _, _ => L

/-- `h` and `t` with nothing between them. -/
def sentinels (L : Links P) (h t : P) : Links P :=
  (((L.setPre h none).setNext t none).setNext h (some t)).setPre t (some h)

/-- The cells behind `p`, up to `t`, at most `n`. -/
def walk (L : Links P) (t : P) : ℕ → P → List P
  | 0, _ => []
  | n + 1, p =>
    match L.next p with
    | none => []
    | some q => if q = t then [] else q :: L.walk t n q

variable {L L' : Links P} {h t p q a b : P} {xs ps as bs : List P}

theorem setPre_pre_of_ne {r : Option P} (h : q ≠ p) : (L.setPre p r).pre q = L.pre q :=
  Function.update_of_ne h ..

theorem setNext_next_of_ne {r : Option P} (h : q ≠ p) : (L.setNext p r).next q = L.next q :=
  Function.update_of_ne h ..

/-! ### Taking a cell out -/

/-- A cell of the list stands between two others. -/
theorem IsList.split (_ : L.IsList h xs t) (hp : p ∈ xs) : ∃ as a b bs,
    h :: xs ++ [t] = as ++ a :: p :: b :: bs ∧ h :: xs.erase p ++ [t] = as ++ a :: b :: bs := by
  obtain ⟨l, r, rfl, hl⟩ := List.eq_append_cons_of_mem hp
  obtain ⟨as, a, has⟩ : ∃ as a, h :: l = as ++ [a] :=
    ⟨_, _, (List.dropLast_concat_getLast (List.cons_ne_nil h l)).symm⟩
  obtain ⟨b, bs, hbs⟩ := List.exists_cons_of_ne_nil (List.append_ne_nil_of_right_ne_nil r
    (List.cons_ne_nil t []))
  refine ⟨as, a, b, bs, ?_, ?_⟩
  · rw [← List.cons_append, has, List.append_assoc, List.append_assoc, List.cons_append,
      List.cons_append, hbs]
    rfl
  · rw [List.erase_append_right _ hl, List.erase_cons_head, ← List.cons_append, has,
      List.append_assoc, List.append_assoc, hbs]
    rfl

theorem unlink_of_split (hl : (as ++ a :: p :: b :: bs).IsChain L.Edge) :
    L.unlink p = (((L.setNext a (some b)).setPre b (some a)).setPre p none).setNext p none := by
  simp only [List.isChain_append_cons_cons, List.isChain_cons_cons] at hl
  obtain ⟨-, ⟨-, hpre⟩, ⟨hnext, -⟩, -⟩ := hl
  rw [unlink, hpre, hnext]

/-- Cells outside of the list are not touched. -/
theorem IsList.unlink_frame (hl : L.IsList h xs t) (hp : p ∈ xs) (hq : q ∉ h :: xs ++ [t]) :
    (L.unlink p).next q = L.next q ∧ (L.unlink p).pre q = L.pre q := by
  obtain ⟨as, a, b, bs, heq, -⟩ := hl.split hp
  have hlinked := hl.linked
  rw [heq] at hlinked hq
  simp only [List.mem_append, List.mem_cons, not_or] at hq
  obtain ⟨-, hqa, hqp, hqb, -⟩ := hq
  rw [unlink_of_split hlinked]
  exact ⟨(setNext_next_of_ne hqp).trans (setNext_next_of_ne hqa),
    (setPre_pre_of_ne hqp).trans (setPre_pre_of_ne hqb)⟩

theorem IsList.unlink_next_tail (hl : L.IsList h xs t) (hp : p ∈ xs) :
    (L.unlink p).next t = L.next t := by
  obtain ⟨as, a, b, bs, heq, -⟩ := hl.split hp
  have hlinked := hl.linked
  have hnodup := hl.nodup
  rw [heq] at hlinked hnodup
  have ht : t ∈ b :: bs := by
    have hlast := congrArg List.getLast? heq
    rw [List.getLast?_concat, ← List.singleton_append, ← List.append_assoc, List.append_cons,
      List.getLast?_append_of_ne_nil _ (List.cons_ne_nil b bs)] at hlast
    exact List.mem_of_getLast? hlast.symm
  have hout (q : P) (hq : q = a ∨ q = p) : t ≠ q := by
    rintro rfl
    obtain ⟨-, hnodup, -⟩ := List.nodup_append.mp hnodup
    obtain ⟨ha, hnodup⟩ := List.nodup_cons.mp hnodup
    obtain rfl | rfl := hq
    · exact ha (List.mem_cons_of_mem _ ht)
    · exact (List.nodup_cons.mp hnodup).1 ht
  rw [unlink_of_split hlinked]
  exact (setNext_next_of_ne (hout p (.inr rfl))).trans (setNext_next_of_ne (hout a (.inl rfl)))

theorem IsList.unlink (hl : L.IsList h xs t) (hp : p ∈ xs) :
    (L.unlink p).IsList h (xs.erase p) t := by
  obtain ⟨as, a, b, bs, heq, herase⟩ := hl.split hp
  have hlinked := hl.linked
  have hnodup := hl.nodup
  rw [heq] at hlinked hnodup
  refine ⟨?_, hl.nodup.sublist ((List.Sublist.cons_cons h (List.erase_sublist ..)).append_right _)⟩
  rw [herase, unlink_of_split hlinked]
  simp only [List.isChain_append_cons_cons, List.isChain_cons_cons] at hlinked ⊢
  obtain ⟨has, -, -, hbs⟩ := hlinked
  simp only [List.nodup_append, List.nodup_cons, List.mem_cons, not_or] at hnodup
  obtain ⟨-, ⟨⟨hap, hab, habs⟩, ⟨hpb, hpbs⟩, hbbs, -⟩, hdisj⟩ := hnodup
  have hout : ∀ q ∈ as, q ≠ a ∧ q ≠ p ∧ q ≠ b := fun q hq =>
    ⟨hdisj q hq a (.inl rfl), hdisj q hq p (.inr (.inl rfl)), hdisj q hq b (.inr (.inr (.inl rfl)))⟩
  refine ⟨isChain_congr has (fun q hq => ?_) fun q hq => ?_, ⟨?_, ?_⟩,
    isChain_congr hbs (fun q hq => ?_) fun q hq => ?_⟩
  · rw [List.dropLast_concat] at hq
    exact (setNext_next_of_ne (hout q hq).2.1).trans (setNext_next_of_ne (hout q hq).1)
  · obtain hq | hq := List.mem_append.mp (List.mem_of_mem_tail hq)
    · exact (setPre_pre_of_ne (hout q hq).2.1).trans (setPre_pre_of_ne (hout q hq).2.2)
    · rw [List.mem_singleton.mp hq]
      exact (setPre_pre_of_ne hap).trans (setPre_pre_of_ne hab)
  · exact (setNext_next_of_ne hap).trans (Function.update_self ..)
  · exact (setPre_pre_of_ne (Ne.symm hpb)).trans (Function.update_self ..)
  · have hqa : q ≠ a := by
      rintro rfl
      obtain h | h := List.mem_cons.mp (List.mem_of_mem_dropLast hq)
      · exact hab h
      · exact habs h
    have hqp : q ≠ p := by
      rintro rfl
      obtain h | h := List.mem_cons.mp (List.mem_of_mem_dropLast hq)
      · exact hpb h
      · exact hpbs h
    exact (setNext_next_of_ne hqp).trans (setNext_next_of_ne hqa)
  · have hqb : q ≠ b := fun h => hbbs (h ▸ hq)
    have hqp : q ≠ p := fun h => hpbs (h ▸ hq)
    exact (setPre_pre_of_ne hqp).trans (setPre_pre_of_ne hqb)

/-! ### Putting a cell in -/

theorem IsList.insertBefore (hl : L.IsList h xs t) (hp : p ∉ h :: xs ++ [t]) :
    ∃ L', L.insertBefore t p = some L' ∧ L'.IsList h (xs ++ [p]) t ∧
      (∀ q ∉ h :: xs ++ [t], q ≠ p → L'.next q = L.next q ∧ L'.pre q = L.pre q) ∧
      L'.next t = L.next t := by
  obtain ⟨as, a, has, hpre⟩ := hl.pre_tail
  have hlinked := hl.linked
  have hnodup := hl.nodup
  have hnodup' : (h :: (xs ++ [p]) ++ [t]).Nodup := by
    rw [← List.cons_append, List.append_assoc, List.singleton_append, List.nodup_middle]
    exact List.nodup_cons.mpr ⟨hp, hnodup⟩
  rw [has] at hlinked hnodup hp ⊢
  obtain ⟨hp, hpt⟩ := not_or.mp (mt List.mem_append.mpr hp)
  obtain ⟨hpas, hpa⟩ := not_or.mp (mt List.mem_append.mpr hp)
  rw [List.mem_singleton] at hpt hpa
  obtain ⟨hnodup, -, hdisj⟩ := List.nodup_append.mp hnodup
  have hat : a ≠ t := hdisj a (List.mem_append_right _ (List.mem_singleton_self a)) t
    (List.mem_singleton_self t)
  have hasa : a ∉ as := fun h => (List.nodup_append.mp hnodup).2.2 a h a
    (List.mem_singleton_self a) rfl
  refine ⟨_, by rw [Links.insertBefore, hpre, Option.map_some], ⟨?_, hnodup'⟩,
    fun q hq hqp => ?_, ?_⟩
  · rw [← List.cons_append, has, List.append_assoc, List.append_assoc, List.singleton_append]
    simp only [List.singleton_append, List.isChain_append_cons_cons, List.isChain_pair]
    refine ⟨isChain_congr hlinked.left_of_append (fun q hq => ?_) fun q hq => ?_, ⟨?_, ?_⟩, ?_, ?_⟩
    · rw [List.dropLast_concat] at hq
      have hqa : q ≠ a := fun h => hasa (h ▸ hq)
      have hqp : q ≠ p := fun h => hpas (h ▸ hq)
      exact (setNext_next_of_ne hqa).trans (setNext_next_of_ne hqp)
    · have hq := List.mem_of_mem_tail hq
      have hqp : q ≠ p := fun h => hp (h ▸ hq)
      have hqt : q ≠ t := hdisj q hq t (List.mem_singleton_self t)
      exact (setPre_pre_of_ne hqt).trans (setPre_pre_of_ne hqp)
    · exact Function.update_self ..
    · exact (setPre_pre_of_ne hpt).trans (Function.update_self ..)
    · exact (setNext_next_of_ne hpa).trans (Function.update_self ..)
    · exact Function.update_self ..
  · rw [List.mem_append, List.mem_append, List.mem_singleton, List.mem_singleton, not_or, not_or]
      at hq
    obtain ⟨⟨-, hqa⟩, hqt⟩ := hq
    exact ⟨(setNext_next_of_ne hqa).trans (setNext_next_of_ne hqp),
      (setPre_pre_of_ne hqt).trans (setPre_pre_of_ne hqp)⟩
  · exact (setNext_next_of_ne (Ne.symm hat)).trans (setNext_next_of_ne (Ne.symm hpt))

/-- Two sentinels are an empty list. -/
theorem isList_sentinels (hht : h ≠ t) : (L.sentinels h t).IsList h [] t where
  linked := List.isChain_pair.mpr ⟨Function.update_self .., Function.update_self ..⟩
  nodup := by simpa using hht

theorem sentinels_frame (hqh : q ≠ h) (hqt : q ≠ t) :
    (L.sentinels h t).next q = L.next q ∧ (L.sentinels h t).pre q = L.pre q :=
  ⟨(setNext_next_of_ne hqh).trans (setNext_next_of_ne hqt),
    (setPre_pre_of_ne hqt).trans (setPre_pre_of_ne hqh)⟩

/-- Walking through the list. -/
theorem IsList.walk {n : ℕ} (hl : L.IsList h xs t) (hn : xs.length ≤ n) : L.walk t n h = xs := by
  induction n generalizing h xs with
  | zero => rw [List.length_eq_zero_iff.mp (Nat.le_zero.mp hn), Links.walk]
  | succ n ih =>
    rw [Links.walk, hl.next_head]
    cases xs with
    | nil => simp
    | cons x xs =>
      have htail : L.IsList x xs t :=
        ⟨(List.isChain_cons_cons.mp hl.linked).2, (List.nodup_cons.mp hl.nodup).2⟩
      have hxt : x ≠ t := fun h => hl.head_ne (h ▸ List.mem_cons_self)
      rw [List.headD_cons]
      simp only
      rw [if_neg hxt, ih htail (Nat.le_of_succ_le_succ hn)]

end

end Links

end MuduoX
