import Mathlib

/-! # Runs of a transition function

A system is a function `step : σ → ι → Option σ`: the input says everything that the outside
chooses, and `none` means that the input cannot occur in that state. `run` takes a list of inputs;
`Along` says that every step of a run meets a condition on the state before it. `run_invariant` is
the rule by which safety of whole runs follows from one step. -/

namespace MuduoX.Run

variable {σ ι : Type*} (step : σ → ι → Option σ)

def run : σ → List ι → Option σ
  | s, [] => some s
  | s, i :: is => (step s i).bind fun s' => run s' is

/-- Every step that is taken meets `G`. -/
def Along (G : σ → ι → Prop) : σ → List ι → Prop
  | _, [] => True
  | s, i :: is => G s i ∧ ∀ s', step s i = some s' → Along G s' is

variable {step} {s s' s'' : σ} {i : ι} {is js : List ι} {G : σ → ι → Prop} {I : σ → Prop}

@[simp] theorem run_nil : run step s [] = some s := rfl

theorem run_cons : run step s (i :: is) = some s'' ↔
    ∃ s', step s i = some s' ∧ run step s' is = some s'' := by
  rw [run, Option.bind_eq_some_iff]

theorem run_append : run step s (is ++ js) = some s'' ↔
    ∃ s', run step s is = some s' ∧ run step s' js = some s'' := by
  induction is generalizing s with
  | nil => simp
  | cons i is ih =>
    simp only [List.cons_append, run_cons, ih]
    constructor
    · rintro ⟨t, ht, u, hu, hs⟩
      exact ⟨u, ⟨t, ht, hu⟩, hs⟩
    · rintro ⟨u, ⟨t, ht, hu⟩, hs⟩
      exact ⟨t, ht, u, hu, hs⟩

theorem along_of_forall {H : ι → Prop} (h : ∀ i ∈ is, H i) : Along step (fun _ i => H i) s is := by
  induction is generalizing s with
  | nil => trivial
  | cons i is ih =>
    obtain ⟨hi, his⟩ := List.forall_mem_cons.mp h
    exact ⟨hi, fun _ _ => ih his⟩

theorem Along.and {H : σ → ι → Prop} (hG : Along step G s is) (hH : Along step H s is) :
    Along step (fun s i => G s i ∧ H s i) s is := by
  induction is generalizing s with
  | nil => trivial
  | cons i is ih =>
    exact ⟨⟨hG.1, hH.1⟩, fun t ht => ih (hG.2 t ht) (hH.2 t ht)⟩

instance decidableAlong [∀ s i, Decidable (G s i)] : ∀ s is, Decidable (Along step G s is)
  | _, [] => isTrue trivial
  | s, i :: is =>
    haveI : ∀ s', Decidable (Along step G s' is) := fun s' => decidableAlong s' is
    inferInstanceAs (Decidable (G s i ∧ ∀ s' ∈ step s i, Along step G s' is))

/-- What the first state has and every step that meets `G` preserves, the last state has. -/
theorem run_invariant (hstep : ∀ s i s', I s → G s i → step s i = some s' → I s') (hs : I s)
    (hG : Along step G s is) (h : run step s is = some s') : I s' := by
  induction is generalizing s with
  | nil => cases h; exact hs
  | cons i is ih =>
    obtain ⟨t, ht, hrun⟩ := run_cons.mp h
    exact ih (hstep s i t hs hG.1 ht) (hG.2 t ht) hrun

/-- The same with no condition on the steps. -/
theorem run_invariant' (hstep : ∀ s i s', I s → step s i = some s' → I s') (hs : I s)
    (h : run step s is = some s') : I s' := by
  induction is generalizing s with
  | nil => cases h; exact hs
  | cons i is ih =>
    obtain ⟨t, ht, hrun⟩ := run_cons.mp h
    exact ih (hstep s i t hs ht) hrun

/-- What holds of every state before a step that meets `G` holds along the run. -/
theorem Along.of_invariant {H : σ → ι → Prop}
    (hstep : ∀ s i s', I s → G s i → step s i = some s' → I s') (hH : ∀ s i, I s → G s i → H s i)
    (hs : I s) (hG : Along step G s is) : Along step H s is := by
  induction is generalizing s with
  | nil => trivial
  | cons i is ih =>
    exact ⟨hH s i hs hG.1, fun t ht => ih (hstep s i t hs hG.1 ht) (hG.2 t ht)⟩

/-- What every step appends, a run appends one after the other. -/
theorem run_appends {α : Type*} (content : σ → List α) {appended : ι → List α}
    (hstep : ∀ s i s', I s → step s i = some s' → I s' ∧ content s' = content s ++ appended i)
    (hs : I s) (h : run step s is = some s') :
    content s' = content s ++ is.flatMap appended := by
  induction is generalizing s with
  | nil =>
    cases h
    exact (List.append_nil _).symm
  | cons i is ih =>
    obtain ⟨t, ht, hrun⟩ := run_cons.mp h
    obtain ⟨hI, hcontent⟩ := hstep s i t hs ht
    rw [ih hI hrun, hcontent, List.append_assoc, List.flatMap_cons]

/-- Simulation: when every step is a run of another system, as `abs` sees it, so is every run. -/
theorem run_simulates {α κ : Type*} {astep : α → κ → Option α} {abs : σ → α}
    (hstep : ∀ s i s', step s i = some s' → ∃ js, run astep (abs s) js = some (abs s'))
    (h : run step s is = some s') : ∃ js, run astep (abs s) js = some (abs s') := by
  induction is generalizing s with
  | nil => cases h; exact ⟨[], rfl⟩
  | cons i is ih =>
    obtain ⟨t, ht, hrun⟩ := run_cons.mp h
    obtain ⟨js, hjs⟩ := hstep s i t ht
    obtain ⟨ks, hks⟩ := ih hrun
    exact ⟨js ++ ks, run_append.mpr ⟨abs t, hjs, hks⟩⟩

/-! ### Components -/

section
variable {S J : Type*} {pstep : S → ι → Option S} {x x' : S} {P : S → Prop}
  {part : S → J → σ} {concerns : J → ι → Bool}

/-- When every step moves the components that its input concerns, and no others, a run moves each of
them as the inputs that concern it do. -/
theorem run_part (hstep : ∀ x i x', P x → pstep x i = some x' → P x' ∧ ∀ j,
      if concerns j i then step (part x j) i = some (part x' j) else part x' j = part x j)
    (hx : P x) (h : run pstep x is = some x') (j : J) :
    run step (part x j) (is.filter (concerns j)) = some (part x' j) := by
  induction is generalizing x with
  | nil => cases h; rfl
  | cons i is ih =>
    obtain ⟨y, hy, hrun⟩ := run_cons.mp h
    obtain ⟨hP, hparts⟩ := hstep x i y hx hy
    have hpart := hparts j
    have hrest := ih hP hrun
    split at hpart
    · rename_i hj
      rw [List.filter_cons_of_pos hj]
      exact run_cons.mpr ⟨_, hpart, hrest⟩
    · rename_i hj
      rwa [List.filter_cons_of_neg hj, ← hpart]

/-- And when a step is possible as soon as it is for the components concerned, so is a run. -/
theorem isSome_run_of_parts (hstep : ∀ x i x', P x → pstep x i = some x' → P x' ∧ ∀ j,
      if concerns j i then step (part x j) i = some (part x' j) else part x' j = part x j)
    (hsome : ∀ x i, P x → (∀ j, concerns j i → (step (part x j) i).isSome) → (pstep x i).isSome)
    (hx : P x) (h : ∀ j, (run step (part x j) (is.filter (concerns j))).isSome) :
    (run pstep x is).isSome := by
  induction is generalizing x with
  | nil => rfl
  | cons i is ih =>
    have hfirst : (pstep x i).isSome := by
      apply hsome x i hx
      intro j hj
      obtain ⟨t, ht⟩ := Option.isSome_iff_exists.mp (h j)
      rw [List.filter_cons_of_pos hj] at ht
      obtain ⟨y, hy, -⟩ := run_cons.mp ht
      exact Option.isSome_of_mem hy
    obtain ⟨y, hy⟩ := Option.isSome_iff_exists.mp hfirst
    obtain ⟨hP, hparts⟩ := hstep x i y hx hy
    rw [run, hy, Option.bind_some]
    apply ih hP
    intro j
    obtain ⟨t, ht⟩ := Option.isSome_iff_exists.mp (h j)
    have hpart := hparts j
    rw [List.filter_cons] at ht
    split at hpart
    · rename_i hj
      rw [if_pos hj] at ht
      obtain ⟨z, hz, hrun⟩ := run_cons.mp ht
      cases hz.symm.trans hpart
      exact Option.isSome_of_mem hrun
    · rename_i hj
      rw [if_neg hj] at ht
      rw [hpart]
      exact Option.isSome_of_mem ht

end

end MuduoX.Run
