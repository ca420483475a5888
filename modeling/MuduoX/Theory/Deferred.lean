import Mathlib
import MuduoX.Theory.Run

/-! # Requests that are answered at once or later

Requests are numbered in the order of their arrival. Each is answered when it arrives or has to
wait, and what waits is answered, or dropped, in any order. `issued` remembers for each request
which ones were waiting when it arrived.

Every request is in one place, so none is answered twice (`Inv.accounted`), and a request is
answered before an earlier one only when the earlier one was waiting at its arrival
(`Inv.ordered`). -/

namespace MuduoX.Deferred

structure State where
  issued : List (Multiset ℕ)
  waiting : Multiset ℕ
  answered : List ℕ
  dropped : Multiset ℕ

inductive Input where
  | atOnce
  | defer
  | answer (i : ℕ)
  | drop (i : ℕ)

def State.init : State := ⟨[], 0, [], 0⟩

def step (s : State) : Input → Option State
  | .atOnce => some { s with
      issued := s.issued ++ [s.waiting], answered := s.answered ++ [s.issued.length] }
  | .defer => some { s with
      issued := s.issued ++ [s.waiting], waiting := s.issued.length ::ₘ s.waiting }
  | .answer i => if i ∈ s.waiting then some { s with
      waiting := s.waiting.erase i, answered := s.answered ++ [i] } else none
  | .drop i => if i ∈ s.waiting then some { s with
      waiting := s.waiting.erase i, dropped := i ::ₘ s.dropped } else none

theorem run_answer {s : State} {i : ℕ} (hi : i ∈ s.waiting) :
    Run.run step s [.answer i] =
      some { s with waiting := s.waiting.erase i, answered := s.answered ++ [i] } := by
  rw [Run.run, step, if_pos hi]
  rfl

theorem run_drop {s : State} {i : ℕ} (hi : i ∈ s.waiting) :
    Run.run step s [.drop i] =
      some { s with waiting := s.waiting.erase i, dropped := i ::ₘ s.dropped } := by
  rw [Run.run, step, if_pos hi]
  rfl

/-- `i` was waiting when `j` arrived. -/
def WaitedFor (issued : List (Multiset ℕ)) (i j : ℕ) : Prop :=
  ∃ w, issued[j]? = some w ∧ i ∈ w

theorem WaitedFor.append {issued : List (Multiset ℕ)} {i j : ℕ} (h : WaitedFor issued i j)
    (more : List (Multiset ℕ)) : WaitedFor (issued ++ more) i j := by
  obtain ⟨w, hw, hi⟩ := h
  have hj : j < issued.length := (List.getElem?_eq_some_iff.mp hw).1
  exact ⟨w, by rw [List.getElem?_append_left hj, hw], hi⟩

structure Inv (s : State) : Prop where
  accounted : (s.answered : Multiset ℕ) + s.dropped + s.waiting = Multiset.range s.issued.length
  waited : ∀ i ∈ s.waiting, ∀ j < s.issued.length, i < j → WaitedFor s.issued i j
  ordered : s.answered.Pairwise fun j i => i < j → WaitedFor s.issued i j

theorem coe_concat (l : List ℕ) (i : ℕ) : ((l ++ [i] : List ℕ) : Multiset ℕ) = i ::ₘ l :=
  Multiset.coe_eq_coe.mpr (List.perm_append_singleton i l)

theorem Inv.lt_of_answered {s : State} (h : Inv s) {i : ℕ} (hi : i ∈ s.answered) :
    i < s.issued.length := by
  rw [← Multiset.mem_range, ← h.accounted, Multiset.mem_add, Multiset.mem_add, Multiset.mem_coe]
  exact .inl (.inl hi)

/-- What was waiting when the next request arrives is recorded with it. -/
theorem Inv.waited_issue {s : State} (h : Inv s) {i : ℕ} (hi : i ∈ s.waiting) {j : ℕ}
    (hj : j < (s.issued ++ [s.waiting]).length) (hij : i < j) :
    WaitedFor (s.issued ++ [s.waiting]) i j := by
  rw [List.length_append, List.length_singleton, Nat.lt_succ_iff] at hj
  rcases Nat.lt_or_eq_of_le hj with hj | rfl
  · exact (h.waited i hi j hj hij).append _
  · exact ⟨s.waiting, List.getElem?_concat_length, hi⟩

theorem Inv.step {s s' : State} {x : Input} (h : Inv s) (hs : step s x = some s') : Inv s' := by
  cases x with
  | atOnce =>
    cases hs
    refine ⟨?_, fun i hi j hj hij => h.waited_issue hi hj hij, ?_⟩
    · rw [List.length_append, List.length_singleton, Multiset.range_succ, ← h.accounted,
        coe_concat, Multiset.cons_add, Multiset.cons_add]
    · rw [List.pairwise_append]
      refine ⟨h.ordered.imp fun hp hij => (hp hij).append _, List.pairwise_singleton _ _, ?_⟩
      intro j hj i hi hij
      rw [List.mem_singleton] at hi
      exact absurd (h.lt_of_answered hj) (by omega)
  | defer =>
    cases hs
    refine ⟨?_, ?_, h.ordered.imp fun hp hij => (hp hij).append _⟩
    · rw [List.length_append, List.length_singleton, Multiset.range_succ, ← h.accounted,
        Multiset.add_cons]
    · intro i hi j hj hij
      rcases Multiset.mem_cons.mp hi with rfl | hi
      · rw [List.length_append, List.length_singleton] at hj
        omega
      · exact h.waited_issue hi hj hij
  | answer i =>
    rw [Deferred.step] at hs
    split at hs
    · rename_i hi
      cases hs
      refine ⟨?_, fun k hk => h.waited k (Multiset.mem_of_mem_erase hk), ?_⟩
      · rw [← h.accounted]
        conv_rhs => rw [← Multiset.cons_erase hi]
        rw [coe_concat, Multiset.cons_add, Multiset.cons_add, Multiset.add_cons]
      · rw [List.pairwise_append]
        refine ⟨h.ordered, List.pairwise_singleton _ _, ?_⟩
        intro j hj k hk hkj
        rw [List.mem_singleton] at hk
        subst hk
        exact h.waited k hi j (h.lt_of_answered hj) hkj
    · cases hs
  | drop i =>
    rw [Deferred.step] at hs
    split at hs
    · rename_i hi
      cases hs
      refine ⟨?_, fun k hk => h.waited k (Multiset.mem_of_mem_erase hk), h.ordered⟩
      rw [← h.accounted]
      conv_rhs => rw [← Multiset.cons_erase hi]
      rw [Multiset.add_cons, Multiset.add_cons, Multiset.cons_add]
    · cases hs

theorem inv_of_run {s : State} {is : List Input} (h : Run.run step .init is = some s) : Inv s :=
  Run.run_invariant' (fun _ _ _ hinv hs => hinv.step hs)
    ⟨rfl, fun _ hi => absurd hi (Multiset.notMem_zero _), .nil⟩ h

end MuduoX.Deferred
