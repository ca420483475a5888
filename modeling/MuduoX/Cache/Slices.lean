import MuduoX.Cache.AgingRange
import MuduoX.Cache.ShardedTotal

/-! # The slices of a sharded cache

A call goes to the slice of its key, a `purge()` to every slice. So a run of `HashLfuCache` is a run
of one `LfuCache` for each slice, on the calls that concern it: no slice sees the others. -/

namespace MuduoX

theorem toOption_eq_some {ε α : Type*} {r : Except ε α} {a : α} :
    r.toOption = some a ↔ r = .ok a := by
  cases r with
  | error e =>
    constructor <;> intro h <;> cases h
  | ok b =>
    constructor <;> intro h <;> cases h <;> rfl

namespace LfuCache

variable {Key Value : Type*} [DecidableEq Key] [Inhabited Key] [Inhabited Value]

/-- A call that does not end in a fault, behind the results of the calls so far. -/
def use (x : LfuCache Key Value × List (Option Value)) (i : LfuInput Key Value) :
    Option (LfuCache Key Value × List (Option Value)) :=
  (x.1.call i).toOption.map fun y => (y.1, x.2 ++ [y.2])

theorem run_use {x y : LfuCache Key Value × List (Option Value)} {is : List (LfuInput Key Value)} :
    Run.run use x is = some y ↔ Run.run step (.ok x) is = some (.ok y) := by
  induction is generalizing x with
  | nil =>
    rw [Run.run_nil, Run.run_nil]
    exact ⟨fun h => by rw [Option.some.inj h], fun h => by rw [Except.ok.inj (Option.some.inj h)]⟩
  | cons i is ih =>
    rw [Run.run_cons, Run.run_cons]
    constructor
    · rintro ⟨z, hz, hrun⟩
      obtain ⟨r, hr, rfl⟩ := Option.map_eq_some_iff.mp hz
      refine ⟨_, ?_, ih.mp hrun⟩
      rw [step, Except.bind, toOption_eq_some.mp hr]
      rfl
    · rintro ⟨z, hz, hrun⟩
      rw [step, Except.bind] at hz
      cases hcall : x.1.call i with
      | error e =>
        rw [hcall] at hz
        cases hz
        cases run_error.symm.trans hrun
      | ok r =>
        rw [hcall] at hz
        cases hz
        refine ⟨(r.1, x.2 ++ [r.2]), ?_, ih.mpr hrun⟩
        rw [use, hcall]
        rfl

end LfuCache

namespace HashLfuCache

variable {Key Value : Type*} [DecidableEq Key] [Inhabited Key] [Inhabited Value]

/-- A call and what it finds. -/
def answer (s : HashLfuCache Key Value) (i : LfuInput Key Value) :
    Except Fault (HashLfuCache Key Value × Option Value) :=
  match i with
  | .put key _ _ => s.onSlice key i
  | .get key walk => s.get key walk
  | .purge => .ok (s.purge, none)

/-- A call that does not end in a fault, behind the calls so far with their results. -/
def use (x : HashLfuCache Key Value × List (LfuInput Key Value × Option Value))
    (i : LfuInput Key Value) :
    Option (HashLfuCache Key Value × List (LfuInput Key Value × Option Value)) :=
  (x.1.answer i).toOption.map fun y => (y.1, x.2 ++ [(i, y.2)])

/-- The call goes to slice `j`. -/
def concerns (s : HashLfuCache Key Value) (j : Nat) : LfuInput Key Value → Bool
  | .put key _ _ | .get key _ => s.sliceIndex key = j
  | .purge => true

variable {s s' s₀ : HashLfuCache Key Value} {i : LfuInput Key Value} {j : Nat}

theorem call_eq_answer (s : HashLfuCache Key Value) (i : LfuInput Key Value) :
    s.call i = (s.answer i).map Prod.fst := by
  cases i <;> rfl

/-- What slice `j` has come to, with the results of the calls that have gone to it. -/
def part (s₀ : HashLfuCache Key Value)
    (x : HashLfuCache Key Value × List (LfuInput Key Value × Option Value))
    (j : Fin s₀.sliceNum) : LfuCache Key Value × List (Option Value) :=
  (x.1.lfuSliceCaches[j.1]?.getD (.new 0 0),
    (x.2.filter fun y => s₀.concerns j y.1).map Prod.snd)

/-- The slices are those of `s₀`, whatever they hold. -/
structure Shape (s₀ : HashLfuCache Key Value) (s : HashLfuCache Key Value) : Prop where
  hash : s.hash = s₀.hash
  sliceNum : s.sliceNum = s₀.sliceNum
  length : s.lfuSliceCaches.length = s₀.sliceNum

omit [DecidableEq Key] [Inhabited Key] [Inhabited Value] in
theorem Shape.sliceIndex (h : Shape s₀ s) : s.sliceIndex = s₀.sliceIndex := by
  funext key
  rw [HashLfuCache.sliceIndex, HashLfuCache.sliceIndex, h.hash, h.sliceNum]

/-! ### A call -/

section
variable {x x' : HashLfuCache Key Value × List (LfuInput Key Value × Option Value)} {key : Key}

theorem part_concerned {slice slice' : LfuCache Key Value} {found : Option Value}
    {j : Fin s₀.sliceNum} (hj : s₀.concerns j i) (hslice : x.1.lfuSliceCaches[j.1]? = some slice)
    (hcall : slice.call i = .ok (slice', found)) (hslice' : s'.lfuSliceCaches[j.1]? = some slice') :
    LfuCache.use (s₀.part x j) i = some (s₀.part (s', x.2 ++ [(i, found)]) j) := by
  have hlast : ([(i, found)].filter fun y => s₀.concerns j y.1) = [(i, found)] :=
    List.filter_cons_of_pos hj
  rw [LfuCache.use, part, part, hslice, hslice', Option.getD_some, Option.getD_some, hcall,
    List.filter_append, hlast, List.map_append]
  rfl

omit [DecidableEq Key] in
theorem part_unconcerned {found : Option Value} {j : Fin s₀.sliceNum} (hj : ¬s₀.concerns j i)
    (hslice : s'.lfuSliceCaches[j.1]? = x.1.lfuSliceCaches[j.1]?) :
    s₀.part (s', x.2 ++ [(i, found)]) j = s₀.part x j := by
  have hlast : ([(i, found)].filter fun y => s₀.concerns j y.1) = [] := List.filter_cons_of_neg hj
  rw [part, part, hslice, List.filter_append, hlast, List.append_nil]

theorem onSlice_ok {found : Option Value} (h : x.1.onSlice key i = .ok (s', found)) :
    ∃ slice slice', x.1.lfuSliceCaches[x.1.sliceIndex key]? = some slice ∧
      slice.call i = .ok (slice', found) ∧
      s' = { x.1 with lfuSliceCaches := x.1.lfuSliceCaches.set (x.1.sliceIndex key) slice' } := by
  rw [HashLfuCache.onSlice] at h
  cases hslice : x.1.lfuSliceCaches[x.1.sliceIndex key]? with
  | none =>
    rw [hslice] at h
    cases h
  | some slice =>
    rw [hslice] at h
    simp only at h
    cases hcall : slice.call i with
    | error e =>
      rw [hcall] at h
      cases h
    | ok r =>
      rw [hcall] at h
      cases h
      exact ⟨slice, r.1, rfl, hcall, rfl⟩

/-- What a call of a keyed operation does to each slice. -/
theorem onSlice_parts {found : Option Value} (hshape : Shape s₀ x.1)
    (hi : ∀ j, s₀.concerns j i ↔ s₀.sliceIndex key = j)
    (h : x.1.onSlice key i = .ok (s', found)) : Shape s₀ s' ∧ ∀ j : Fin s₀.sliceNum,
      if s₀.concerns j i then
        LfuCache.use (s₀.part x j) i = some (s₀.part (s', x.2 ++ [(i, found)]) j)
      else s₀.part (s', x.2 ++ [(i, found)]) j = s₀.part x j := by
  obtain ⟨slice, slice', hslice, hcall, rfl⟩ := onSlice_ok h
  refine ⟨⟨hshape.hash, hshape.sliceNum, (List.length_set ..).trans hshape.length⟩, fun j => ?_⟩
  rw [hshape.sliceIndex] at hslice ⊢
  split
  · rename_i hj
    obtain heq := (hi j).mp hj
    rw [heq] at hslice
    refine part_concerned hj hslice hcall ?_
    change (x.1.lfuSliceCaches.set (s₀.sliceIndex key) slice')[j.1]? = some slice'
    rw [heq]
    exact List.getElem?_set_self (List.getElem?_eq_some_iff.mp hslice).1
  · rename_i hj
    refine part_unconcerned hj ?_
    exact List.getElem?_set_ne fun heq => hj ((hi j).mpr heq)

variable (s₀) in
theorem use_parts : ∀ x i x', Shape s₀ x.1 → use x i = some x' →
    Shape s₀ x'.1 ∧ ∀ j : Fin s₀.sliceNum,
      if s₀.concerns j i then LfuCache.use (s₀.part x j) i = some (s₀.part x' j)
      else s₀.part x' j = s₀.part x j := by
  intro x i x' hshape h
  obtain ⟨r, hr, rfl⟩ := Option.map_eq_some_iff.mp h
  have hr := toOption_eq_some.mp hr
  cases i with
  | put key value walk => exact onSlice_parts hshape (fun j => decide_eq_true_iff) hr
  | get key walk => exact onSlice_parts hshape (fun j => decide_eq_true_iff) hr
  | purge =>
    cases hr
    refine ⟨⟨hshape.hash, hshape.sliceNum, (List.length_map ..).trans hshape.length⟩, fun j => ?_⟩
    rw [if_pos (show s₀.concerns j .purge = true from rfl)]
    have hlt : j.1 < x.1.lfuSliceCaches.length := j.isLt.trans_eq hshape.length.symm
    refine part_concerned rfl (List.getElem?_eq_getElem hlt) rfl ?_
    change (x.1.lfuSliceCaches.map LfuCache.purge)[j.1]? = _
    rw [List.getElem?_map, List.getElem?_eq_getElem hlt]
    rfl

/-- A call ends in a fault only if it does so in a slice that it goes to. -/
theorem isSome_use (hpos : 0 < s₀.sliceNum) : ∀ x i, Shape s₀ x.1 →
    (∀ j : Fin s₀.sliceNum, s₀.concerns j i → (LfuCache.use (s₀.part x j) i).isSome) →
      (use x i).isSome := by
  intro x i hshape h
  have hkeyed (key : Key) (hi : ∀ j, s₀.concerns j i ↔ s₀.sliceIndex key = j) :
      (x.1.onSlice key i).toOption.isSome := by
    have hlt : s₀.sliceIndex key < s₀.sliceNum := Nat.mod_lt _ hpos
    have hlt' : s₀.sliceIndex key < x.1.lfuSliceCaches.length := hshape.length ▸ hlt
    obtain ⟨y, hy⟩ := Option.isSome_iff_exists.mp (h ⟨_, hlt⟩ ((hi _).mpr rfl))
    obtain ⟨r, hr, -⟩ := Option.map_eq_some_iff.mp hy
    rw [part, List.getElem?_eq_getElem hlt', Option.getD_some] at hr
    rw [HashLfuCache.onSlice, hshape.sliceIndex, List.getElem?_eq_getElem hlt']
    simp only [toOption_eq_some.mp hr]
    rfl
  rw [use, Option.isSome_map]
  cases i with
  | put key value walk => exact hkeyed key fun j => decide_eq_true_iff
  | get key walk => exact hkeyed key fun j => decide_eq_true_iff
  | purge => rfl

end

/-! ### Runs -/

variable {hash : Key → UInt64} {hardwareConcurrency capacity : Nat} {sliceNum maxAverageNum : Int}
  {is : List (LfuInput Key Value)}

omit [DecidableEq Key] in
/-- What the constructor makes. -/
theorem new_slices
    (h : new hash hardwareConcurrency capacity sliceNum maxAverageNum = .ok s₀) :
    Shape s₀ s₀ ∧ 0 < s₀.sliceNum ∧ ∀ j < s₀.sliceNum, s₀.lfuSliceCaches[j]? =
      some (.new (intOfSize (Double.ceilDiv capacity s₀.sliceNum)) maxAverageNum) := by
  simp only [new] at h
  generalize (if sliceNum > 0 then sliceNum.toNat else hardwareConcurrency) = n at h
  split at h
  · cases h
  · rename_i hnot
    obtain ⟨hne, -⟩ := not_or.mp hnot
    cases h
    refine ⟨⟨rfl, rfl, List.length_replicate⟩, Nat.pos_of_ne_zero hne, fun j hj => ?_⟩
    exact List.getElem?_replicate_of_lt hj

omit [DecidableEq Key] in
theorem part_new (h : new hash hardwareConcurrency capacity sliceNum maxAverageNum = .ok s₀)
    (j : Fin s₀.sliceNum) : s₀.part (s₀, []) j =
      (.new (intOfSize (Double.ceilDiv capacity s₀.sliceNum)) maxAverageNum, []) := by
  rw [part, (new_slices h).2.2 j j.isLt]
  rfl

theorem slice_of_run {found : List (LfuInput Key Value × Option Value)}
    (h : new hash hardwareConcurrency capacity sliceNum maxAverageNum = .ok s₀)
    (hrun : Run.run use (s₀, []) is = some (s, found)) : Shape s₀ s ∧ ∀ j < s₀.sliceNum,
      ∃ slice, s.lfuSliceCaches[j]? = some slice ∧
        Run.run LfuCache.step (.ok (.new (intOfSize (Double.ceilDiv capacity s₀.sliceNum))
            maxAverageNum, [])) (is.filter (s₀.concerns j)) =
          some (.ok (slice, (found.filter fun y => s₀.concerns j y.1).map Prod.snd)) := by
  have hshape := (new_slices h).1
  have hlast : Shape s₀ s := Run.run_invariant' (I := fun x => Shape s₀ x.1)
    (fun x i x' hx hstep => (use_parts s₀ x i x' hx hstep).1) hshape hrun
  refine ⟨hlast, fun j hj => ?_⟩
  have hpart := Run.run_part (use_parts s₀) hshape hrun ⟨j, hj⟩
  have hlt : j < s.lfuSliceCaches.length := hj.trans_eq hlast.length.symm
  rw [part_new h, LfuCache.run_use, part, List.getElem?_eq_getElem hlt] at hpart
  exact ⟨_, List.getElem?_eq_getElem hlt, hpart⟩

theorem isSome_run (h : new hash hardwareConcurrency capacity sliceNum maxAverageNum = .ok s₀)
    (hall : ∀ j < s₀.sliceNum, ∃ slice found, Run.run LfuCache.step
      (.ok (.new (intOfSize (Double.ceilDiv capacity s₀.sliceNum)) maxAverageNum, []))
      (is.filter (s₀.concerns j)) = some (.ok (slice, found))) :
    (Run.run use (s₀, []) is).isSome := by
  obtain ⟨hshape, hpos, -⟩ := new_slices h
  refine Run.isSome_run_of_parts (use_parts s₀) (isSome_use hpos) hshape ?_
  intro j
  obtain ⟨slice, found, hrun⟩ := hall j j.isLt
  rw [part_new h]
  exact Option.isSome_of_mem (LfuCache.run_use.mpr hrun)

/-- **No slice sees the others.** In every run of a sharded cache, each slice holds and finds what a
cache of its size does that gets only the calls for its keys and the purges; and the run ends in a
fault only if one of these runs does. -/
theorem slices_apart (h : new hash hardwareConcurrency capacity sliceNum maxAverageNum = .ok s₀)
    (is : List (LfuInput Key Value)) :
    (∀ s found, Run.run use (s₀, []) is = some (s, found) → ∀ j < s₀.sliceNum,
      ∃ slice, s.lfuSliceCaches[j]? = some slice ∧
        Run.run LfuCache.step (.ok (.new (intOfSize (Double.ceilDiv capacity s₀.sliceNum))
            maxAverageNum, [])) (is.filter (s₀.concerns j)) =
          some (.ok (slice, (found.filter fun y => s₀.concerns j y.1).map Prod.snd))) ∧
      ((∀ j < s₀.sliceNum, ∃ slice found, Run.run LfuCache.step
          (.ok (.new (intOfSize (Double.ceilDiv capacity s₀.sliceNum)) maxAverageNum, []))
          (is.filter (s₀.concerns j)) = some (.ok (slice, found))) →
        (Run.run use (s₀, []) is).isSome) :=
  ⟨fun _ _ hrun => (slice_of_run h hrun).2, isSome_run h⟩

theorem new_two : Double.ceilDiv 4 2 = 2 ∧ new UInt64.ofNat 1 4 2 10 =
    .ok (⟨UInt64.ofNat, 4, 2, List.replicate 2 (.new 2 10)⟩ : HashLfuCache Nat Nat) := by
  have hsize : Double.ceilDiv 4 (2 : Int).toNat = 2 := by
    rw [Double.ceilDiv_eq (by decide) (by decide) (by decide)]
    decide
  refine ⟨hsize, (new_eq (by decide) (by rw [hsize]; decide)).trans ?_⟩
  rw [hsize]
  rfl

/-- Two keys with a slice each. -/
theorem slices_apart_two : ∃ (s : HashLfuCache Nat Nat) (slice : LfuCache Nat Nat),
    (Run.run use (⟨UInt64.ofNat, 4, 2, List.replicate 2 (.new 2 10)⟩, [])
      [.put 0 5 ⟨id, fun _ => .refl _⟩, .put 1 6 ⟨id, fun _ => .refl _⟩,
        .get 1 ⟨id, fun _ => .refl _⟩]).map Prod.fst = some s ∧
    s.lfuSliceCaches[1]? = some slice ∧
    Run.run LfuCache.step (.ok (.new 2 10, []))
      [.put 1 6 ⟨id, fun _ => .refl _⟩, .get 1 ⟨id, fun _ => .refl _⟩] =
        some (.ok (slice, [none, some 6])) := by
  obtain ⟨hsize, hnew⟩ := new_two
  obtain ⟨slice, hslice, hrun⟩ := (slices_apart hnew
    [.put 0 5 ⟨id, fun _ => .refl _⟩, .put 1 6 ⟨id, fun _ => .refl _⟩,
      .get 1 ⟨id, fun _ => .refl _⟩]).1 _ _ rfl 1 (by decide)
  simp only [hsize] at hrun
  exact ⟨_, slice, rfl, hslice, hrun⟩

/-- **The default cache, in slices.** For the averages that a cache can age at, every run of fewer
than `2 ^ 31` calls goes through without a fault, leaves every slice well formed, and keeps no more
than the slices have room for. -/
theorem slices_wellFormed
    (h : new hash hardwareConcurrency capacity sliceNum maxAverageNum = .ok s₀)
    (hsize : 1 ≤ intOfSize (Double.ceilDiv capacity s₀.sliceNum)) (hlow : 2 ≤ maxAverageNum)
    (hhigh : maxAverageNum ≤ 250) (is : List (LfuInput Key Value)) (hlen : is.length < 2 ^ 31) :
    ∃ s found, Run.run use (s₀, []) is = some (s, found) ∧
      (∀ slice ∈ s.lfuSliceCaches, slice.WellFormed) ∧
      (s.total : Int) ≤ s₀.sliceNum * intOfSize (Double.ceilDiv capacity s₀.sliceNum) := by
  generalize hw : intOfSize (Double.ceilDiv capacity s₀.sliceNum) = w at hsize ⊢
  have hall (j : Nat) := (LfuCache.low_of_run hsize hlow hhigh (is.filter (s₀.concerns j))).resolve_left
    fun hover => by
      have := List.length_filter_le (s₀.concerns j) is
      omega
  obtain ⟨⟨s, found⟩, hrun⟩ := Option.isSome_iff_exists.mp (isSome_run h fun j _ => by
    obtain ⟨slice, found, hrun, -⟩ := hall j
    exact ⟨slice, found, hw ▸ hrun⟩)
  obtain ⟨hshape, hslices⟩ := slice_of_run h hrun
  have hgood : ∀ slice ∈ s.lfuSliceCaches, slice.capacity = w ∧ slice.WellFormed := by
    intro slice hmem
    obtain ⟨j, hj, rfl⟩ := List.mem_iff_getElem.mp hmem
    obtain ⟨slice', hslice', hrun'⟩ := hslices j (hj.trans_eq hshape.length)
    rw [List.getElem?_eq_getElem hj] at hslice'
    cases hslice'
    obtain ⟨t, found', hrun'', hcapacity, hwell⟩ := hall j
    rw [hw, hrun''] at hrun'
    cases hrun'
    exact ⟨hcapacity, hwell⟩
  refine ⟨s, found, hrun, fun slice hmem => (hgood slice hmem).2, ?_⟩
  have htotal := total_le (s := s) (w := w.toNat) fun slice hmem => by
    obtain ⟨hcapacity, hwell⟩ := hgood slice hmem
    have := hwell.size_le
    omega
  rw [hshape.length] at htotal
  calc (s.total : Int) ≤ (s₀.sliceNum * w.toNat : Nat) := Int.ofNat_le.mpr htotal
    _ = s₀.sliceNum * w := by rw [Nat.cast_mul, Int.toNat_of_nonneg (by omega)]

theorem slices_wellFormed_two : ∃ (s : HashLfuCache Nat Nat) (found : List _),
    Run.run use (⟨UInt64.ofNat, 4, 2, List.replicate 2 (.new 2 10)⟩, [])
      [.put 0 5 ⟨id, fun _ => .refl _⟩, .purge] = some (s, found) ∧
    (∀ slice ∈ s.lfuSliceCaches, slice.WellFormed) ∧ (s.total : Int) ≤ 2 * 2 := by
  obtain ⟨hsize, hnew⟩ := new_two
  obtain ⟨s, found, hrun, hwell, htotal⟩ := slices_wellFormed hnew (by rw [hsize]; decide) (by decide)
    (by decide) [.put 0 5 ⟨id, fun _ => .refl _⟩, .purge] (by decide)
  rw [hsize] at htotal
  exact ⟨s, found, hrun, hwell, htotal⟩

end HashLfuCache

end MuduoX
