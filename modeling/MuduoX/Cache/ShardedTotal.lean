import MuduoX.Cache.MinFreq
import MuduoX.Cache.Sharded

/-! # How much the slices hold together

Each slice keeps to its own capacity as long as its `minFreq_` is right, so together they hold what
the rounded up slice size comes to. That is more than the capacity of the whole unless it is divided
evenly. -/

namespace MuduoX

theorem sum_map_set {α : Type*} {f : α → Nat} {as : List α} {j : Nat} {a b : α}
    (h : as[j]? = some a) : ((as.set j b).map f).sum + f a = (as.map f).sum + f b := by
  induction as generalizing j with
  | nil => cases h
  | cons c as ih =>
    cases j with
    | zero =>
      cases h
      simp only [List.set_cons_zero, List.map_cons, List.sum_cons]
      omega
    | succ j =>
      have := ih (List.getElem?_cons_succ.symm.trans h)
      simp only [List.set_cons_succ, List.map_cons, List.sum_cons]
      omega

namespace LfuCache

variable {Key Value : Type*} [DecidableEq Key] {s s' : LfuCache Key Value}
  {L L' : Int → List NodePtr} {key : Key} {value : Value} {n : Nat}

/-- `minFreq_` is the least frequency of a node, if there are nodes. -/
def MinFreqCorrect (s : LfuCache Key Value) : Prop :=
  s.size ≠ 0 → s.nodes s.minFreq ≠ [] ∧ ∀ f, s.nodes f ≠ [] → s.minFreq ≤ f

theorem Least.minFreqCorrect (h : Inv s L) (hleast : Least s.minFreq L) :
    MinFreqCorrect s := by
  intro hsize
  obtain ⟨f, hf⟩ := h.exists_ne_nil hsize
  simp only [h.nodes]
  exact ⟨(hleast f hf).1, fun g hg => (hleast g hg).2⟩

/-- Every node has counted for 1 at least. -/
theorem Good.size_lt (h : Good n s L) : s.size < 2 ^ 31 := by
  have hlen : s.size = s.nodeMap.entries.length := List.length_map ..
  have hsum : (s.nodeMap.entries.length : Int) ≤ s.freqSum := by
    have hone (x : Int) (hx : x ∈ s.nodeMap.entries.map fun e => (s.node e.2).freq) : 1 ≤ x := by
      obtain ⟨e, he, rfl⟩ := List.mem_map.mp hx
      exact h.freq_pos ⟨e.1, lookup_of_mem_entries he⟩
    have hle := List.card_nsmul_le_sum _ 1 hone
    rwa [List.length_map, nsmul_one] at hle
  have hle := h.sum_le
  have hlt := h.total_lt
  omega

theorem Called.put_new {walk : Traversal Key} {v : Option Value}
    (h : Called s L (.put key value walk) s' L' v) (hcapacity : s.capacity ≠ 0)
    (hkey : s.nodeMap.lookup key = none) (hsize : (s.size : Int) ≠ s.capacity) :
    s'.nodeMap = s.nodeMap.insert key s.fresh := by
  cases h with
  | ignored hzero => exact absurd hzero hcapacity
  | overwrite _ hhit => cases hkey.symm.trans hhit
  | insert _ _ hroom hinserted haccessed =>
    obtain ⟨-, rfl, -⟩ | ⟨hfull, -⟩ := hroom
    · exact haccessed.frame.nodeMap.trans hinserted.frame.nodeMap
    · exact absurd hfull hsize

end LfuCache

namespace HashLfuCache

variable {Key Value : Type*} [DecidableEq Key] [Inhabited Key] [Inhabited Value]
  {s s' : HashLfuCache Key Value} {v : Int} {n w j : Nat}

def total (s : HashLfuCache Key Value) : Nat := (s.lfuSliceCaches.map LfuCache.size).sum

/-- Before each call, aging has left the `minFreq_` of every slice right. -/
def Before (r : Except Fault (HashLfuCache Key Value)) (_ : LfuInput Key Value) : Prop :=
  ∀ s, r = .ok s → ∀ slice ∈ s.lfuSliceCaches, slice.MinFreqCorrect

/-! ### Every slice keeps to its capacity -/

structure Bounded (v : Int) (slice : LfuCache Key Value) : Prop where
  capacity : slice.capacity = v
  maxAverageNum : 1 ≤ slice.maxAverageNum
  size_le : 0 ≤ v → (slice.size : Int) ≤ v
  good : ∃ n L, slice.Good n L

theorem Bounded.call {slice slice' : LfuCache Key Value} {i : LfuInput Key Value} {r : Option Value}
    (h : Bounded v slice) (hmin : slice.MinFreqCorrect) (hcall : slice.call i = .ok (slice', r)) :
    Bounded v slice' := by
  obtain ⟨n, L, hgood⟩ := h.good
  have hroom (hevicts : slice.Evicts i) : L slice.minFreq ≠ [] := by
    cases i with
    | put key value walk =>
      obtain ⟨hcapacity, -, hsize⟩ := hevicts
      rw [← hgood.nodes]
      exact (hmin (by omega)).1
    | get | purge => cases hevicts
  have hd : 0 ≤ slice.maxAverageNum.tdiv 2 :=
    Int.tdiv_nonneg (Int.le_trans (by decide) h.maxAverageNum) (by decide)
  obtain ⟨hover, -⟩ | ⟨t, L', r', hok, hgood', hcalled⟩ := hgood.call i (.inl hd) hroom
  · cases hcall.symm.trans hover
  · cases hcall.symm.trans hok
    obtain ⟨hcapacity, hmax⟩ := hcalled.frame
    refine ⟨hcapacity.trans h.capacity, h.maxAverageNum.trans_eq hmax.symm, fun hv => ?_, _, L',
      hgood'⟩
    have hle := hcalled.size_le hgood.toInv (by rw [h.capacity]; exact h.size_le hv)
    rwa [hcapacity, h.capacity] at hle

theorem bounded_call {i : LfuInput Key Value}
    (h : s.lfuSliceCaches.length = s.sliceNum ∧ ∀ slice ∈ s.lfuSliceCaches, Bounded v slice)
    (hmin : ∀ slice ∈ s.lfuSliceCaches, slice.MinFreqCorrect) (hcall : s.call i = .ok s') :
    s'.sliceNum = s.sliceNum ∧ s'.lfuSliceCaches.length = s'.sliceNum ∧
      ∀ slice ∈ s'.lfuSliceCaches, Bounded v slice := by
  have hslice {key : Key} {r : HashLfuCache Key Value × Option Value}
      (hr : s.onSlice key i = .ok r) : r.1.sliceNum = s.sliceNum ∧
      r.1.lfuSliceCaches.length = r.1.sliceNum ∧ ∀ slice ∈ r.1.lfuSliceCaches, Bounded v slice := by
    rw [onSlice] at hr
    split at hr
    · cases hr
    · rename_i slice hslice
      have hmem := List.mem_of_getElem? hslice
      cases hc : slice.call i with
      | error e =>
        rw [hc] at hr
        cases hr
      | ok t =>
        rw [hc] at hr
        cases hr
        refine ⟨rfl, (List.length_set ..).trans h.1, fun u hu => ?_⟩
        obtain hu | rfl := List.mem_or_eq_of_mem_set hu
        · exact h.2 u hu
        · exact (h.2 slice hmem).call (hmin slice hmem) hc
  cases i with
  | put key value walk =>
    rw [HashLfuCache.call, HashLfuCache.put] at hcall
    cases hr : s.onSlice key (.put key value walk) with
    | error e =>
      rw [hr] at hcall
      cases hcall
    | ok r =>
      rw [hr] at hcall
      cases hcall
      exact hslice hr
  | get key walk =>
    rw [HashLfuCache.call, HashLfuCache.get] at hcall
    cases hr : s.onSlice key (.get key walk) with
    | error e =>
      rw [hr] at hcall
      cases hcall
    | ok r =>
      rw [hr] at hcall
      cases hcall
      exact hslice hr
  | purge =>
    cases hcall
    refine ⟨rfl, (List.length_map ..).trans h.1, fun u hu => ?_⟩
    obtain ⟨slice, hmem, rfl⟩ := List.mem_map.mp hu
    exact (h.2 slice hmem).call (hmin slice hmem) (i := .purge) rfl

theorem bounded_of_run {is : List (LfuInput Key Value)}
    (h : s.lfuSliceCaches.length = s.sliceNum ∧ ∀ slice ∈ s.lfuSliceCaches, Bounded v slice)
    (hmin : Run.Along step Before (.ok s) is) (hrun : Run.run step (.ok s) is = some (.ok s')) :
    s'.lfuSliceCaches.length = s.sliceNum ∧ ∀ slice ∈ s'.lfuSliceCaches, Bounded v slice := by
  let I (r : Except Fault (HashLfuCache Key Value)) : Prop := ∀ t, r = .ok t →
    t.sliceNum = s.sliceNum ∧ t.lfuSliceCaches.length = t.sliceNum ∧
      ∀ slice ∈ t.lfuSliceCaches, Bounded v slice
  have hI : I (.ok s') := by
    refine Run.run_invariant (I := I) (fun r i r' hI hbefore hstep => ?_) ?_ hmin hrun
    · cases hstep
      rintro t ht
      cases r with
      | error e => cases ht
      | ok u =>
        obtain ⟨hnum, hu⟩ := hI u rfl
        obtain ⟨hnum', ht⟩ := bounded_call hu (hbefore u rfl) ht
        exact ⟨hnum'.trans hnum, ht⟩
    · rintro t ⟨⟩
      exact ⟨rfl, h⟩
  obtain ⟨hnum, hlen, hbounded⟩ := hI s' rfl
  exact ⟨hlen.trans hnum, hbounded⟩

omit [Inhabited Key] [Inhabited Value] in
/-- A capacity that has become negative bounds nothing, but the counters do. -/
theorem Bounded.size_le_min {slice : LfuCache Key Value} {size : Nat}
    (h : Bounded (intOfSize size) slice) : slice.size ≤ min size (2 ^ 31 - 1) := by
  obtain ⟨n, L, hgood⟩ := h.good
  have hlt := hgood.size_lt
  obtain hsize | hsize := Nat.lt_or_ge size (2 ^ 31)
  · have hle := h.size_le
    rw [intOfSize_of_lt hsize] at hle
    have := hle (Int.natCast_nonneg _)
    omega
  · omega

omit [DecidableEq Key] [Inhabited Key] [Inhabited Value] in
theorem total_le (h : ∀ slice ∈ s.lfuSliceCaches, slice.size ≤ w) :
    s.total ≤ s.lfuSliceCaches.length * w := by
  have hle := List.sum_le_card_nsmul (s.lfuSliceCaches.map LfuCache.size) w fun x hx => by
    obtain ⟨slice, hmem, rfl⟩ := List.mem_map.mp hx
    exact h slice hmem
  rwa [List.length_map, smul_eq_mul] at hle

theorem bounded_new {capacity maxAverageNum : Int} (hmax : 1 ≤ maxAverageNum) :
    Bounded capacity (.new capacity maxAverageNum : LfuCache Key Value) :=
  ⟨rfl, hmax, id, 0, _, LfuCache.good_new capacity maxAverageNum⟩

/-! ### Filling the slices -/

/-- `w` keys to a slice, and the slices one after the other. -/
structure Filling (key : Nat → Key) (v : Int) (w t : Nat) (s : HashLfuCache Key Value) : Prop where
  length : s.lfuSliceCaches.length = s.sliceNum
  total : s.total = t
  slice : ∀ {j} {slice : LfuCache Key Value}, s.lfuSliceCaches[j]? = some slice →
    slice.capacity = v ∧ 1 ≤ slice.maxAverageNum ∧ slice.size ≤ t - j * w ∧
      (∃ L, slice.Good slice.size L ∧ LfuCache.Least slice.minFreq L) ∧
      ∀ k p, slice.nodeMap.lookup k = some p → ∃ i < t, k = key i

variable {key : Nat → Key} {t : Nat}

theorem Filling.put (h : Filling key v w t s) (hindex : s.sliceIndex (key t) = t / w)
    (hlt : t / w < s.sliceNum) (hnew : ∀ i < t, key t ≠ key i) (hw : 0 < w) (hw' : w < 2 ^ 31)
    (hv : v < 0 ∨ (w : Int) ≤ v) (walk : Traversal Key) :
    ∃ s', s.put (key t) default walk = .ok s' ∧ s'.hash = s.hash ∧ s'.sliceNum = s.sliceNum ∧
      Filling key v w (t + 1) s' := by
  obtain ⟨slice, hslice⟩ : ∃ slice, s.lfuSliceCaches[t / w]? = some slice :=
    ⟨_, List.getElem?_eq_getElem (h.length ▸ hlt)⟩
  obtain ⟨hcapacity, hmax, hsize, ⟨L, hgood, hleast⟩, hkeys⟩ := h.slice hslice
  have hsize : slice.size < w := by
    have hdiv := Nat.div_add_mod' t w
    have hmod := Nat.mod_lt t hw
    omega
  have hkey : slice.nodeMap.lookup (key t) = none := by
    by_contra hne
    obtain ⟨p, hp⟩ := Option.ne_none_iff_exists'.mp hne
    obtain ⟨i, hi, heq⟩ := hkeys _ p hp
    exact hnew i hi heq
  have hne : (slice.size : Int) ≠ slice.capacity := by
    rw [hcapacity]
    omega
  have hd : 0 ≤ slice.maxAverageNum.tdiv 2 :=
    Int.tdiv_nonneg (Int.le_trans (by decide) hmax) (by decide)
  obtain ⟨-, hover⟩ | ⟨slice', L', r, hcall, hgood', hcalled⟩ :=
    hgood.call (.put (key t) default walk) (.inl hd) fun hevicts => absurd hevicts.2.2 hne
  · omega
  · have hmap := hcalled.put_new (by rw [hcapacity]; omega) hkey hne
    obtain ⟨hcapacity', hmax'⟩ := hcalled.frame
    have hleast' := hcalled.least hgood.toInv (.inl hd) hleast fun p hp => by
      cases hkey.symm.trans hp
    have hsize' : slice'.size = slice.size + 1 := by
      have hinsert : (slice.insertNode (key t) default).size = _ := LfuCache.size_insertNode hkey
      rw [LfuCache.size, hmap]
      exact hinsert
    refine ⟨{ s with lfuSliceCaches := s.lfuSliceCaches.set (t / w) slice' }, ?_, rfl, rfl,
      (List.length_set ..).trans h.length, ?_, fun {j u} hu => ?_⟩
    · rw [HashLfuCache.put, onSlice, hindex, hslice]
      simp only [hcall]
      rfl
    · have hsum := sum_map_set (f := LfuCache.size) (b := slice') hslice
      have htotal := h.total
      rw [HashLfuCache.total] at htotal ⊢
      simp only
      omega
    · change (s.lfuSliceCaches.set (t / w) slice')[j]? = some u at hu
      obtain rfl | hj := eq_or_ne j (t / w)
      · rw [List.getElem?_set_self (List.getElem?_eq_some_iff.mp hslice).1] at hu
        cases hu
        refine ⟨hcapacity'.trans hcapacity, hmax.trans_eq hmax'.symm, ?_,
          ⟨L', hsize' ▸ hgood', hleast'⟩, fun k p hp => ?_⟩
        · have hdiv := Nat.div_add_mod' t w
          have hle := (h.slice hslice).2.2.1
          omega
        · rw [hmap] at hp
          obtain rfl | hk := eq_or_ne k (key t)
          · exact ⟨t, Nat.lt_succ_self t, rfl⟩
          · obtain ⟨i, hi, heq⟩ := hkeys k p ((AList.lookup_insert_ne hk).symm.trans hp)
            exact ⟨i, Nat.lt_succ_of_lt hi, heq⟩
      · rw [List.getElem?_set_ne (Ne.symm hj)] at hu
        obtain ⟨hc, hm, hle, hg, hk⟩ := h.slice hu
        refine ⟨hc, hm, by omega, hg, fun k p hp => ?_⟩
        obtain ⟨i, hi, heq⟩ := hk k p hp
        exact ⟨i, Nat.lt_succ_of_lt hi, heq⟩

omit [Inhabited Key] [Inhabited Value] in
theorem Filling.before (h : Filling key v w t s) (i : LfuInput Key Value) : Before (.ok s) i := by
  rintro _ ⟨⟩ slice hmem
  obtain ⟨j, hj⟩ := List.mem_iff_getElem?.mp hmem
  obtain ⟨-, -, -, ⟨L, hgood, hleast⟩, -⟩ := h.slice hj
  exact LfuCache.Least.minFreqCorrect hgood.toInv hleast

theorem Filling.run {k c : Nat} (h : Filling key v w t s)
    (hindex : ∀ i < c, s.sliceIndex (key i) = i / w) (hc : c ≤ s.sliceNum * w)
    (hinj : ∀ i < c, ∀ j < i, key i ≠ key j) (hw : 0 < w) (hw' : w < 2 ^ 31)
    (hv : v < 0 ∨ (w : Int) ≤ v) (walk : Traversal Key) (htk : t + k = c) :
    let is := (List.range' t k).map fun i => LfuInput.put (key i) (default : Value) walk
    Run.Along step Before (.ok s) is ∧
      ∃ s', Run.run step (.ok s) is = some (.ok s') ∧ s'.total = c := by
  induction k generalizing t s with
  | zero => exact ⟨trivial, s, rfl, h.total.trans htk⟩
  | succ k ih =>
    have ht : t < c := by omega
    have hlt : t / w < s.sliceNum := (Nat.div_lt_iff_lt_mul hw).mpr (by omega)
    obtain ⟨s₁, hput, hhash, hnum, hfilling⟩ := h.put (hindex t ht) hlt (hinj t ht) hw hw' hv walk
    have hstep : step (.ok s) (.put (key t) (default : Value) walk) = some (.ok s₁) :=
      congrArg some hput
    have hindex₁ (i : Nat) (hi : i < c) : s₁.sliceIndex (key i) = i / w := by
      rw [sliceIndex, hhash, hnum]
      exact hindex i hi
    obtain ⟨halong, s', hrun, htotal⟩ := ih hfilling hindex₁ (hnum ▸ hc) (by omega)
    refine ⟨⟨h.before _, fun r hr => ?_⟩, s', Run.run_cons.mpr ⟨_, hstep, hrun⟩, htotal⟩
    cases hstep.symm.trans hr
    exact halong

theorem filling_new {hash : Key → UInt64} {capacity sliceNum : Nat} {maxAverageNum : Int}
    (hmax : 1 ≤ maxAverageNum) : Filling key v w 0 (⟨hash, capacity, sliceNum,
      List.replicate sliceNum (.new v maxAverageNum)⟩ : HashLfuCache Key Value) where
  length := List.length_replicate
  total := by
    change ((List.replicate sliceNum (.new v maxAverageNum : LfuCache Key Value)).map
      LfuCache.size).sum = 0
    rw [List.map_replicate, List.sum_replicate]
    exact Nat.mul_zero _
  slice {j u} hu := by
    rw [List.eq_of_mem_replicate (List.mem_of_getElem? hu)]
    refine ⟨rfl, hmax, Nat.zero_le _, ⟨fun _ => [], LfuCache.good_new .., ?_⟩, ?_⟩
    · exact fun f hf => absurd rfl hf
    · intro k p hp
      cases hp

variable {capacity : Nat}

variable (Value) in
/-- A hash that fills the slices with as many keys as there are. -/
theorem exists_filling {sliceNum size : Nat} {maxAverageNum : Int}
    (keys : Fin (capacity + 1) ↪ Key) (hcapacity : capacity < 2 ^ 64)
    (hmax : 1 ≤ maxAverageNum) (hw : 0 < w) (hw' : w < 2 ^ 31)
    (hv : intOfSize size < 0 ∨ (w : Int) ≤ intOfSize size) (hc : capacity + 1 ≤ sliceNum * w) :
    ∃ hash : Key → UInt64,
      let s₀ : HashLfuCache Key Value := ⟨hash, capacity, sliceNum,
        List.replicate sliceNum (.new (intOfSize size) maxAverageNum)⟩
      ∃ is s, Run.Along step Before (.ok s₀) is ∧ Run.run step (.ok s₀) is = some (.ok s) ∧
        s.total = capacity + 1 := by
  let key (i : Nat) : Key := keys ⟨i % (capacity + 1), Nat.mod_lt _ (Nat.succ_pos _)⟩
  have hmod {i : Nat} (hi : i < capacity + 1) : i % (capacity + 1) = i := Nat.mod_eq_of_lt hi
  let hash : Key → UInt64 := Function.extend keys (fun i => UInt64.ofNat (i / w)) 0
  let s₀ : HashLfuCache Key Value := ⟨hash, capacity, sliceNum,
    List.replicate sliceNum (.new (intOfSize size) maxAverageNum)⟩
  have hfilling : Filling key (intOfSize size) w 0 s₀ := filling_new hmax
  have hindex (i : Nat) (hi : i < capacity + 1) : s₀.sliceIndex (key i) = i / w := by
    have hlt : i / w < sliceNum := (Nat.div_lt_iff_lt_mul hw).mpr (by omega)
    have hle : i / w ≤ i := Nat.div_le_self i w
    have hhash : hash (key i) = UInt64.ofNat (i / w) := by
      refine (keys.injective.extend_apply ..).trans ?_
      simp only [hmod hi]
    rw [sliceIndex, show s₀.hash (key i) = _ from hhash, UInt64.toNat_ofNat',
      Nat.mod_eq_of_lt (by omega : i / w < 2 ^ 64)]
    exact Nat.mod_eq_of_lt hlt
  have hinj (i : Nat) (hi : i < capacity + 1) (j : Nat) (hj : j < i) : key i ≠ key j := by
    intro heq
    have := Fin.mk.inj (keys.injective heq)
    rw [hmod hi, hmod (Nat.lt_trans hj hi)] at this
    omega
  obtain ⟨halong, s, hrun, htotal⟩ := hfilling.run hindex hc hinj hw hw' hv
    ⟨id, fun _ => .refl _⟩ (Nat.zero_add (capacity + 1))
  exact ⟨hash, _, s, halong, hrun, htotal⟩

/-- In every run in which aging leaves each `minFreq_` right, the slices together hold no more than
the capacity, if and only if what the slice size is rounded up to does not come to more; an `int`
has overflowed before a slice holds 2 ^ 31 entries. -/
theorem total_le_iff (keys : Fin (capacity + 1) ↪ Key) (hardwareConcurrency : Nat)
    {sliceNum maxAverageNum : Int} (hcapacity : 1 ≤ capacity) (hlt : capacity < 2 ^ 64)
    (hslice : 1 ≤ sliceNum) (hmax : 1 ≤ maxAverageNum) :
    (∀ (hash : Key → UInt64) (s₀ : HashLfuCache Key Value),
      new hash hardwareConcurrency capacity sliceNum maxAverageNum = .ok s₀ →
      ∀ is s, Run.Along step Before (.ok s₀) is → Run.run step (.ok s₀) is = some (.ok s) →
        s.total ≤ capacity) ↔
      sliceNum.toNat * min (Double.ceilDiv capacity sliceNum.toNat) (2 ^ 31 - 1) ≤ capacity := by
  have hpos : 0 < sliceNum.toNat := by omega
  generalize hsize : Double.ceilDiv capacity sliceNum.toNat = size
  constructor
  · intro hruns
    by_contra hgt
    rw [Nat.not_le] at hgt
    have hw : 0 < min size (2 ^ 31 - 1) := by
      by_contra hzero
      rw [Nat.eq_zero_of_not_pos hzero, Nat.mul_zero] at hgt
      omega
    have hle : capacity ≤ sliceNum.toNat * (2 ^ 31 - 1) :=
      hgt.le.trans (Nat.mul_le_mul_left _ (Nat.min_le_right ..))
    have hsmall : size ≤ 2 * (2 ^ 31 - 1) := hsize ▸ Double.ceilDiv_le hcapacity hpos hle
    have hv : intOfSize size < 0 ∨ ((min size (2 ^ 31 - 1) : Nat) : Int) ≤ intOfSize size := by
      obtain hlt | hge := Nat.lt_or_ge size (2 ^ 31)
      · rw [intOfSize_of_lt hlt]
        exact .inr (Int.ofNat_le.mpr (Nat.min_le_left ..))
      · left
        rw [intOfSize]
        split <;> omega
    obtain ⟨hash, is, s, halong, hrun, htotal⟩ :=
      exists_filling Value keys hlt hmax hw (by omega) hv hgt
    have := hruns hash _ (hsize ▸ new_eq hslice (by omega)) is s halong hrun
    omega
  · intro hle hash s₀ hnew is s halong hrun
    rw [new, if_pos (show sliceNum > 0 by omega), hsize] at hnew
    split at hnew
    · cases hnew
    · cases hnew
      obtain ⟨hlen, hbounded⟩ := bounded_of_run ⟨List.length_replicate, fun slice hmem => by
        rw [List.eq_of_mem_replicate hmem]
        exact bounded_new hmax⟩ halong hrun
      have htotal := total_le fun slice hmem => (hbounded slice hmem).size_le_min
      rw [hlen] at htotal
      exact htotal.trans hle

/-- Up to 2 ^ 53, which is what a double holds exactly, it is a matter of divisibility. -/
theorem mul_min_ceilDiv_le_iff {sliceNum : Nat} (hcapacity : 1 ≤ capacity)
    (hlt : capacity < 2 ^ 53) (hslice : 0 < sliceNum) :
    sliceNum * min (Double.ceilDiv capacity sliceNum) (2 ^ 31 - 1) ≤ capacity ↔
      sliceNum ∣ capacity ∨ sliceNum * (2 ^ 31 - 1) ≤ capacity := by
  rw [Double.ceilDiv_eq hlt hcapacity hslice, ← Nat.mul_min_mul_left, min_le_iff]
  refine or_congr_left ⟨fun hle => ?_, ?_⟩
  · exact ⟨capacity ⌈/⌉ sliceNum, (Nat.le_antisymm hle (le_smul_ceilDiv hslice)).symm⟩
  · rintro ⟨q, rfl⟩
    exact (congrArg (sliceNum * ·) (smul_ceilDiv hslice q)).le

theorem total_le_four : Double.ceilDiv 4 (2 : Int).toNat = 2 ∧
    ∀ (hash : Nat → UInt64) (s₀ : HashLfuCache Nat Nat), new hash 1 4 2 10 = .ok s₀ →
      ∀ is s, Run.Along step Before (.ok s₀) is → Run.run step (.ok s₀) is = some (.ok s) →
        s.total ≤ 4 := by
  have hsize : Double.ceilDiv 4 (2 : Int).toNat = 2 := by
    rw [Double.ceilDiv_eq (by decide) (by decide) (by decide)]
    decide
  refine ⟨hsize, ?_⟩
  refine (total_le_iff Fin.valEmbedding 1 (by decide) (by decide) (by decide) (by decide)).mpr ?_
  rw [hsize]
  decide

/-- Two slices for one entry hold one each. -/
theorem not_total_le : ∃ s₀ : HashLfuCache Nat Nat, new UInt64.ofNat 1 1 2 10 = .ok s₀ ∧
    ∃ is s, Run.Along step Before (.ok s₀) is ∧ Run.run step (.ok s₀) is = some (.ok s) ∧
      1 < s.total := by
  have hsize : Double.ceilDiv 1 (2 : Int).toNat = 1 := by
    rw [Double.ceilDiv_eq (by decide) (by decide) (by decide)]
    decide
  have hindex (i : Nat) (hi : i < 2) : (UInt64.ofNat i).toNat % 2 = i / 1 := by
    interval_cases i <;> decide
  have hfilling : Filling (id : Nat → Nat) 1 1 0 (⟨UInt64.ofNat, 1, 2,
      List.replicate 2 (.new 1 10)⟩ : HashLfuCache Nat Nat) := filling_new (by decide)
  obtain ⟨halong, s, hrun, htotal⟩ := hfilling.run (k := 2) (c := 2)
    hindex (show 2 ≤ 2 * 1 by decide)
    (fun i _ j hj => Nat.ne_of_gt hj) (by decide) (by decide) (.inr (by decide))
    ⟨id, fun _ => .refl _⟩ rfl
  refine ⟨_, (new_eq (by decide) ?_).trans ?_, _, s, halong, hrun, htotal.ge⟩
  · rw [hsize]
    decide
  · rw [hsize]
    rfl

end HashLfuCache

end MuduoX
