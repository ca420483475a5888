import MuduoX.Cache.Calls

/-! # A cache that has lost its least frequency

When `minFreq_` is wrong, `kickOut` finds the last sentinel of an empty list: it unlinks nothing, and
what it erases from the map is the key of a sentinel, whose node stays behind in its list. So the
lists hold more nodes than the map.

`Consistent m s L P` says that the lists hold the nodes `P`, that the cached nodes are among them,
and that each of them has the value that `m` gives to its key. `Sound n m s L P` adds that the list
of `minFreq_` is there and, for `n` calls, what keeps the counters in range. -/

namespace MuduoX

/-- The operation overflows an `int`, which takes 2 ^ 31 calls, or ends in `Q`. -/
def Ends {α : Type*} (n : Nat) (x : Except Fault α) (Q : α → Prop) : Prop :=
  x = .error .outOfRange ∧ 2 ^ 31 ≤ n + 1 ∨ ∃ a, x = .ok a ∧ Q a

section
variable {α β : Type*} {n : Nat} {x : Except Fault α} {Q : α → Prop} {R : β → Prop}

theorem Ends.bind {f : α → Except Fault β} (h : Ends n x Q) (hf : ∀ a, Q a → Ends n (f a) R) :
    Ends n (x.bind f) R := by
  obtain ⟨rfl, hover⟩ | ⟨a, rfl, ha⟩ := h
  · exact .inl ⟨rfl, hover⟩
  · exact hf a ha

theorem Ends.map {f : α → β} (h : Ends n x Q) (hf : ∀ a, Q a → R (f a)) : Ends n (x.map f) R := by
  obtain ⟨rfl, hover⟩ | ⟨a, rfl, ha⟩ := h
  · exact .inl ⟨rfl, hover⟩
  · exact .inr ⟨f a, rfl, hf a ha⟩

theorem ends_int32 {y : Int} (hlow : -(n + 1 : Int) ≤ y) (hhigh : y ≤ n + 1) :
    Ends n (int32 y) fun z => z = y ∧ y < 2 ^ 31 := by
  rw [int32]
  split
  · rename_i h
    exact .inr ⟨y, rfl, rfl, h.2⟩
  · exact .inl ⟨rfl, by omega⟩

end

namespace LfuCache

section
variable {Key Value : Type*} {s s' : LfuCache Key Value} {L : Int → List NodePtr}
  {P : Finset NodePtr} {p : NodePtr} {f : Int}

/-! ### The frequencies in the lists -/

def weight (s : LfuCache Key Value) (P : Finset NodePtr) : Int := ∑ p ∈ P, (s.node p).freq

theorem weight_congr (h : ∀ p ∈ P, (s'.node p).freq = (s.node p).freq) :
    s'.weight P = s.weight P :=
  Finset.sum_congr rfl h

theorem weight_erase (hp : p ∈ P) : s.weight (P.erase p) = s.weight P - (s.node p).freq :=
  Finset.sum_erase_eq_sub hp

theorem weight_move (hp : p ∈ P)
    (hnode : ∀ q ∈ P, s'.node q = Function.update s.node p { s.node p with freq := f } q) :
    s'.weight P = s.weight P - (s.node p).freq + f := by
  have hother : s'.weight (P.erase p) = s.weight (P.erase p) := by
    refine weight_congr fun q hq => ?_
    obtain ⟨hne, hq⟩ := Finset.mem_erase.mp hq
    rw [hnode q hq, Function.update_of_ne hne]
  have hself : (s'.node p).freq = f := by rw [hnode p hp, Function.update_self]
  rw [weight_erase hp, weight_erase hp, hself] at hother
  omega

theorem Filed.weight_nonneg (h : Filed s L P) : 0 ≤ s.weight P := by
  refine Finset.sum_nonneg fun q hq => ?_
  have := h.freq_pos hq
  omega

theorem Filed.freq_le_weight (h : Filed s L P) (hp : p ∈ P) : (s.node p).freq ≤ s.weight P := by
  refine Finset.single_le_sum (f := fun q => (s.node q).freq) (fun q hq => ?_) hp
  have := h.freq_pos hq
  omega

/-! ### The invariant -/

/-- What every call leaves as it is, and relinking too. -/
structure Same (s s' : LfuCache Key Value) : Prop where
  capacity : s'.capacity = s.capacity
  maxAverageNum : s'.maxAverageNum = s.maxAverageNum

theorem Same.trans {t : LfuCache Key Value} (h : Same s s') (h' : Same s' t) : Same s t :=
  ⟨h'.capacity.trans h.capacity, h'.maxAverageNum.trans h.maxAverageNum⟩

end

section
variable {Key Value : Type*} [DecidableEq Key] {s s' : LfuCache Key Value}
  {L : Int → List NodePtr} {P : Finset NodePtr} {p q : NodePtr} {f : Int} {l : FreqList}
  {m : Key → Option Value} {key : Key} {value : Value} {n k : Nat}

structure Consistent (m : Key → Option Value) (s : LfuCache Key Value) (L : Int → List NodePtr)
    (P : Finset NodePtr) : Prop extends Filed s L P where
  sentinels : Sentinels s
  cached : ∀ {key p}, s.nodeMap.lookup key = some p →
    p ∈ P ∧ (s.node p).key = key ∧ m key = some (s.node p).value
  freq_lt : ∀ {p}, p ∈ P → (s.node p).freq < 2 ^ 31
  minFreq_pos : 1 ≤ s.minFreq
  one : s.size ≠ 0 → ∃ l, s.freqToFreqList.lookup 1 = some l

/-- The list that `kickOut` looks at is there. -/
def HasMin (s : LfuCache Key Value) : Prop :=
  s.size ≠ 0 → ∃ l, s.freqToFreqList.lookup s.minFreq = some l

/-- `k` of `n` calls have taken a sentinel, which counted for 1 in `curTotalNum_` and for nothing in
the lists. -/
structure Ledger (n : Nat) (s : LfuCache Key Value) (P : Finset NodePtr) (k : Nat) : Prop where
  weight_le : s.weight P ≤ s.curTotalNum + k
  total_le : s.curTotalNum + k ≤ n

structure Sound (n : Nat) (m : Key → Option Value) (s : LfuCache Key Value)
    (L : Int → List NodePtr) (P : Finset NodePtr) : Prop extends Consistent m s L P where
  min : HasMin s
  ledger : ∃ k ≤ n, Ledger n s P k

theorem Consistent.with_minFreq {i : Int} (h : Consistent m s L P) (hi : 1 ≤ i) :
    Consistent m { s with minFreq := i } L P where
  isList := h.isList
  missing := h.missing
  unique := h.unique
  lt_fresh := h.lt_fresh
  mem_iff := h.mem_iff
  freq_pos := h.freq_pos
  sentinels := ⟨h.sentinels.freq, h.sentinels.next⟩
  cached := h.cached
  freq_lt := h.freq_lt
  minFreq_pos := hi
  one := h.one

theorem Consistent.with_counters {total average : Int} (h : Consistent m s L P) :
    Consistent m { s with curTotalNum := total, curAverageNum := average } L P where
  isList := h.isList
  missing := h.missing
  unique := h.unique
  lt_fresh := h.lt_fresh
  mem_iff := h.mem_iff
  freq_pos := h.freq_pos
  sentinels := ⟨h.sentinels.freq, h.sentinels.next⟩
  cached := h.cached
  freq_lt := h.freq_lt
  minFreq_pos := h.minFreq_pos
  one := h.one

/-! ### Moving a node -/

variable [Inhabited Key] [Inhabited Value]

theorem Consistent.move (h : Consistent m s L P) (hp : p ∈ P) (hf : 1 ≤ f) (hlt : f < 2 ^ 31) :
    s.removeFromFreqList p = .ok (s.unlinked p) ∧
    ∃ s', ((s.unlinked p).setFreq p f).addToFreqList p = .ok s' ∧
      Consistent m s' (relist L p (s.node p).freq f) P ∧ Frame s s' ∧
      s'.weight P = s.weight P - (s.node p).freq + f ∧ (s'.node p).freq = f := by
  obtain ⟨hremove, s', hadd, hfiled, hframe, hnode, hsentinels⟩ := h.toFiled.move hp hf
  have hnode (q : NodePtr) (hq : q ∈ P) : s'.node q = Function.update s.node p
      { s.node p with freq := f } q := hnode q (h.lt_fresh_of_mem hq)
  have hother (q : NodePtr) (hq : q ∈ P) :
      (s'.node q).key = (s.node q).key ∧ (s'.node q).value = (s.node q).value := by
    rw [hnode q hq]
    obtain rfl | hne := eq_or_ne q p
    · rw [Function.update_self]
      exact ⟨rfl, rfl⟩
    · rw [Function.update_of_ne hne]
      exact ⟨rfl, rfl⟩
  refine ⟨hremove, s', hadd, ⟨hfiled, hsentinels h.sentinels, fun {key q} hq => ?_,
    fun {q} hq => ?_, h.minFreq_pos.trans_eq hframe.minFreq.symm, fun hsize => ?_⟩, hframe,
    weight_move hp hnode, ?_⟩
  · rw [hframe.nodeMap] at hq
    obtain ⟨hmem, hkey, hvalue⟩ := h.cached hq
    rw [(hother q hmem).1, (hother q hmem).2]
    exact ⟨hmem, hkey, hvalue⟩
  · rw [hnode q hq]
    obtain rfl | hne := eq_or_ne q p
    · rwa [Function.update_self]
    · rw [Function.update_of_ne hne]
      exact h.freq_lt hq
  · rw [LfuCache.size, hframe.nodeMap] at hsize
    obtain ⟨l, hl⟩ := h.one hsize
    exact ⟨l, hframe.lists hl⟩
  · rw [hnode p hp, Function.update_self]

/-! ### A hit -/

omit [DecidableEq Key] [Inhabited Key] [Inhabited Value] in
theorem raiseMinFreq_eq (hl : s.freqToFreqList.lookup ((s.node p).freq - 1) = some l) :
    ∃ i, s.raiseMinFreq p = .ok { s with minFreq := i } ∧
      (i = s.minFreq ∨ i = (s.node p).freq) := by
  rw [raiseMinFreq, hl]
  split
  · rename_i hmin
    by_cases hempty : s.isEmpty l = true
    · refine ⟨s.minFreq + 1, by simp only [hempty, if_true], .inr (by omega)⟩
    · refine ⟨s.minFreq, by simp only [hempty]; rfl, .inl rfl⟩
  · exact ⟨s.minFreq, rfl, .inl rfl⟩

theorem Consistent.promote (h : Consistent m s L P) (hp : p ∈ P)
    (hmin : ∃ l, s.freqToFreqList.lookup s.minFreq = some l) (hle : (s.node p).freq ≤ n) :
    Ends n (s.promote p) fun s' => ∃ L', Consistent m s' L' P ∧
      Frame { s with minFreq := s'.minFreq } s' ∧ s'.weight P = s.weight P + 1 ∧
      ∃ l, s'.freqToFreqList.lookup s'.minFreq = some l := by
  have hpos := h.freq_pos hp
  obtain ⟨l, hl⟩ := h.lookup_of_mem (h.mem hp)
  rw [LfuCache.promote, h.removeFromFreqList (h.mem hp)]
  refine (ends_int32 (n := n) (y := (s.node p).freq + 1) (by omega) (by omega)).bind ?_
  rintro _ ⟨rfl, hlt⟩
  obtain ⟨-, s₁, hadd, hcons, hframe, hweight, hfreq⟩ :=
    h.move hp (f := (s.node p).freq + 1) (by omega) hlt
  rw [hadd]
  have hlast : (s₁.node p).freq - 1 = (s.node p).freq := by omega
  obtain ⟨i, hraise, hi⟩ := raiseMinFreq_eq (hlast ▸ hframe.lists hl)
  refine .inr ⟨_, hraise, _, hcons.with_minFreq ?_, ⟨hframe.capacity, rfl, hframe.maxAverageNum,
    hframe.curAverageNum, hframe.curTotalNum, hframe.nodeMap, hframe.fresh_le, hframe.lists⟩,
    ?_, ?_⟩
  · have := hcons.minFreq_pos
    omega
  · change s₁.weight P = _
    omega
  · obtain rfl | rfl := hi
    · obtain ⟨l', hl'⟩ := hmin
      refine ⟨l', ?_⟩
      change s₁.freqToFreqList.lookup s₁.minFreq = some l'
      rw [hframe.minFreq]
      exact hframe.lists hl'
    · exact hcons.lookup_of_mem (hcons.mem hp)

/-! ### Aging -/

theorem Consistent.age (h : Consistent m s L P) (hp : p ∈ P) (hd : 0 ≤ s.maxAverageNum.tdiv 2)
    (hd' : s.maxAverageNum.tdiv 2 < 2 ^ 31) :
    ∃ s' L', s.age p = .ok s' ∧ Consistent m s' L' P ∧ Frame s s' ∧ s'.weight P ≤ s.weight P := by
  have hpos := h.freq_pos hp
  have hlt := h.freq_lt hp
  have hle := aged_le hd hpos
  obtain ⟨hremove, s', hadd, hcons, hframe, hweight, -⟩ :=
    h.move hp (one_le_aged (s.maxAverageNum.tdiv 2) (s.node p).freq) (by omega)
  have hint : int32 ((s.node p).freq - s.maxAverageNum.tdiv 2) =
      .ok ((s.node p).freq - s.maxAverageNum.tdiv 2) := int32_eq (by omega) (by omega)
  refine ⟨s', _, ?_, hcons, hframe, by omega⟩
  rw [LfuCache.age, hremove]
  change (int32 ((s.node p).freq - s.maxAverageNum.tdiv 2)).bind _ = _
  rw [hint]
  exact hadd

theorem Consistent.foldlM_ageKey (h : Consistent m s L P) (keys : List Key)
    (hd : 0 ≤ s.maxAverageNum.tdiv 2) (hd' : s.maxAverageNum.tdiv 2 < 2 ^ 31) :
    ∃ s' L', keys.foldlM ageKey s = .ok s' ∧ Consistent m s' L' P ∧ Frame s s' ∧
      s'.weight P ≤ s.weight P := by
  induction keys generalizing s L with
  | nil => exact ⟨s, L, rfl, h, .refl s, Int.le_refl _⟩
  | cons key keys ih =>
    obtain ⟨s₁, L₁, hage, hcons₁, hframe₁, hle₁⟩ : ∃ s₁ L₁, s.ageKey key = .ok s₁ ∧
        Consistent m s₁ L₁ P ∧ Frame s s₁ ∧ s₁.weight P ≤ s.weight P := by
      rw [ageKey]
      obtain hkey | ⟨p, hkey⟩ := Option.eq_none_or_eq_some (s.nodeMap.lookup key)
      · rw [hkey]
        exact ⟨s, L, rfl, h, .refl s, Int.le_refl _⟩
      · rw [hkey]
        exact h.age (h.cached hkey).1 hd hd'
    have hmax : s₁.maxAverageNum = s.maxAverageNum := hframe₁.maxAverageNum
    obtain ⟨s', L', hfold, hcons, hframe, hle⟩ := ih hcons₁ (by rwa [hmax]) (by rwa [hmax])
    refine ⟨s', L', ?_, hcons, hframe₁.trans hframe, Int.le_trans hle hle₁⟩
    rw [List.foldlM_cons, hage]
    exact hfold

omit [Inhabited Key] [Inhabited Value] in
/-- `updateMinFreq` finds a list that is not empty, or starts over at 1. -/
theorem Consistent.updateMinFreq (h : Consistent m s L P) :
    Consistent m s.updateMinFreq L P ∧ HasMin s.updateMinFreq := by
  obtain ⟨-, -, heq⟩ := foldl_min (s := s) s.freqToFreqList.entries INT8_MAX
  change Consistent m { s with minFreq := if _ = INT8_MAX then 1 else _ } L P ∧
    (s.size ≠ 0 → ∃ l, s.freqToFreqList.lookup (if _ = INT8_MAX then 1 else _) = some l)
  generalize s.freqToFreqList.entries.foldl
    (fun m pair => if s.isEmpty pair.2 then m else Min.min m pair.1) INT8_MAX = i at *
  by_cases hmax : i = INT8_MAX
  · rw [if_pos hmax]
    exact ⟨h.with_minFreq (Int.le_refl _), h.one⟩
  · rw [if_neg hmax]
    obtain ⟨⟨f, l⟩, he, hempty, rfl⟩ := heq.resolve_left hmax
    have hl := AList.mem_lookup_iff.mpr he
    rw [Bool.eq_false_iff, Ne, h.isEmpty hl] at hempty
    obtain ⟨q, hq⟩ := List.exists_mem_of_ne_nil _ hempty
    obtain ⟨hmem, rfl⟩ := h.mem_iff.mp hq
    exact ⟨h.with_minFreq (h.freq_pos hmem), fun _ => ⟨l, hl⟩⟩

theorem Consistent.handleOverMaxAverageNum (h : Consistent m s L P) (walk : Traversal Key)
    (hd : 0 ≤ s.maxAverageNum.tdiv 2) (hd' : s.maxAverageNum.tdiv 2 < 2 ^ 31) :
    ∃ s' L', s.handleOverMaxAverageNum walk = .ok s' ∧ Consistent m s' L' P ∧ HasMin s' ∧
      Frame { s with minFreq := s'.minFreq } s' ∧ s'.weight P ≤ s.weight P := by
  rw [LfuCache.handleOverMaxAverageNum]
  split
  · rename_i hzero
    exact ⟨s, L, rfl, h, fun hsize => absurd hzero hsize, .refl s, Int.le_refl _⟩
  · obtain ⟨s', L', hfold, hcons, hframe, hle⟩ :=
      h.foldlM_ageKey (walk.1 s.nodeMap.keys) hd hd'
    obtain ⟨hcons, hmin⟩ := hcons.updateMinFreq
    exact ⟨s'.updateMinFreq, L', by rw [hfold]; rfl, hcons, hmin, ⟨hframe.capacity, rfl,
      hframe.maxAverageNum, hframe.curAverageNum, hframe.curTotalNum, hframe.nodeMap,
      hframe.fresh_le, hframe.lists⟩, hle⟩

/-! ### Counting an access -/

theorem average_lt (total : Int) (size : Nat) : average total size < 2 ^ 31 := by
  rw [average]
  split
  · decide
  · have := Int.bmod_lt (x := total % 2 ^ 64 / size) (m := 2 ^ 32) (by decide)
    omega

/-- Whatever the average has become, there is only the choice between aging and not. -/
theorem Consistent.addFreqNum (h : Consistent m s L P) (walk : Traversal Key)
    (hmax : 1 ≤ s.maxAverageNum) (hk : k ≤ n + 1) (hlow : 0 ≤ s.curTotalNum + k)
    (hsum : s.weight P ≤ s.curTotalNum + k + 1) (hn : s.curTotalNum + k ≤ n) :
    Ends n (s.addFreqNum walk) fun s' => ∃ L', Consistent m s' L' P ∧ (HasMin s → HasMin s') ∧
      s'.nodeMap = s.nodeMap ∧ Same s s' ∧ Ledger (n + 1) s' P k := by
  refine (ends_int32 (n := n) (y := s.curTotalNum + 1) (by omega) (by omega)).bind ?_
  rintro _ ⟨rfl, -⟩
  have hcounted : Consistent m { s with
      curTotalNum := s.curTotalNum + 1
      curAverageNum := average (s.curTotalNum + 1) s.size } L P := h.with_counters
  have hledger : Ledger (n + 1) { s with
      curTotalNum := s.curTotalNum + 1
      curAverageNum := average (s.curTotalNum + 1) s.size } P k := by
    refine ⟨?_, ?_⟩
    · change s.weight P ≤ s.curTotalNum + 1 + k
      omega
    · change s.curTotalNum + 1 + k ≤ (n + 1 : Nat)
      omega
  simp only
  split
  · rename_i hages
    have havg := average_lt (s.curTotalNum + 1) s.size
    have hle := tdiv_two_le s.maxAverageNum
    change s.maxAverageNum < average (s.curTotalNum + 1) s.size at hages
    obtain ⟨s', L', hage, hcons, hmin, hframe, hweight⟩ := hcounted.handleOverMaxAverageNum walk
      (Int.tdiv_nonneg (a := s.maxAverageNum) (by omega) (by decide))
      (show s.maxAverageNum.tdiv 2 < 2 ^ 31 by omega)
    refine .inr ⟨s', hage, L', hcons, fun _ => hmin, hframe.nodeMap,
      ⟨hframe.capacity, hframe.maxAverageNum⟩, ?_, ?_⟩
    · rw [hframe.curTotalNum]
      exact Int.le_trans hweight hledger.weight_le
    · rw [hframe.curTotalNum]
      exact hledger.total_le
  · exact .inr ⟨_, rfl, L, hcounted, id, rfl, ⟨rfl, rfl⟩, hledger⟩

theorem Sound.getInternal (h : Sound n m s L P) (hmax : 1 ≤ s.maxAverageNum)
    (hkey : s.nodeMap.lookup key = some p) (walk : Traversal Key) :
    Ends n (s.getInternal p walk) fun r => (∃ L', Sound (n + 1) m r.1 L' P) ∧
      r.1.nodeMap = s.nodeMap ∧ Same s r.1 ∧ r.2 = (s.node p).value := by
  obtain ⟨k, hk, hledger⟩ := h.ledger
  have hp := (h.cached hkey).1
  have hle := h.freq_le_weight hp
  have hpos := h.freq_pos hp
  have hsum := hledger.weight_le
  have htotal := hledger.total_le
  have hsize : s.size ≠ 0 := Nat.ne_of_gt (List.length_pos_of_mem
    (AList.mem_keys.mp (AList.lookup_isSome.mp (Option.isSome_of_mem hkey))))
  refine (h.promote (n := n) hp (h.min hsize) (by omega)).bind ?_
  rintro s₁ ⟨L₁, hcons₁, hframe₁, hweight₁, hmin₁⟩
  have htotal₁ : s₁.curTotalNum = s.curTotalNum := hframe₁.curTotalNum
  have hmax₁ : s₁.maxAverageNum = s.maxAverageNum := hframe₁.maxAverageNum
  refine (hcons₁.addFreqNum walk (by omega) (Nat.le_succ_of_le hk) (by omega) (by omega)
    (by omega)).map ?_
  rintro s' ⟨L', hcons, hmin, hmap, hsame, hledger'⟩
  exact ⟨⟨L', hcons, hmin fun _ => hmin₁, k, Nat.le_succ_of_le hk, hledger'⟩,
    hmap.trans hframe₁.nodeMap, ⟨hsame.capacity.trans hframe₁.capacity,
      hsame.maxAverageNum.trans hmax₁⟩, rfl⟩

/-! ### Eviction and insertion -/

omit [Inhabited Key] [Inhabited Value] in
/-- Erasing a key, and counting less. -/
theorem Consistent.erased (h : Consistent m s L P) (key : Key) (total average : Int) :
    Consistent m { s with
      nodeMap := s.nodeMap.erase key
      curTotalNum := total
      curAverageNum := average } L P where
  isList := h.isList
  missing := h.missing
  unique := h.unique
  lt_fresh := h.lt_fresh
  mem_iff := h.mem_iff
  freq_pos := h.freq_pos
  sentinels := ⟨h.sentinels.freq, h.sentinels.next⟩
  cached {key' q} hq := by
    have hne : key' ≠ key := by
      rintro rfl
      cases hq.symm.trans (AList.lookup_erase ..)
    exact h.cached ((AList.lookup_erase_ne hne).symm.trans hq)
  freq_lt := h.freq_lt
  minFreq_pos := h.minFreq_pos
  one hsize := h.one fun hzero => hsize (by
    rw [LfuCache.size, List.length_eq_zero_iff] at hzero ⊢
    rw [AList.keys_erase, hzero]
    rfl)

omit [Inhabited Key] [Inhabited Value] in
/-- `kickOut` takes the first node of a list, whether it is cached or not, or the last sentinel of
an empty one. -/
theorem Consistent.kickOut (h : Consistent m s L P) (hsize : s.size ≠ 0) (hmin : HasMin s)
    (hk : k ≤ n) (hledger : Ledger n s P k) :
    Ends n s.kickOut fun s' => ∃ L' P', Consistent m s' L' P' ∧ Same s s' ∧
      ∃ k' ≤ n + 1, Ledger n s' P' k' := by
  obtain ⟨l, hl⟩ := hmin hsize
  have hsum := hledger.weight_le
  have htotal := hledger.total_le
  have hnext := (h.isList hl).next_head
  rw [LfuCache.kickOut, hl]
  cases hps : L s.minFreq with
  | nil =>
    have hnonneg := h.weight_nonneg
    obtain ⟨l₁, hl₁⟩ := h.one hsize
    have hfreq := h.sentinels.freq hl
    have hunlink : s.links.unlink l.tail = s.links := by
      rw [Links.unlink, h.sentinels.next hl]
      cases s.links.pre l.tail <;> rfl
    have hremove : s.removeFromFreqList l.tail = .ok s := by
      rw [LfuCache.removeFromFreqList, hfreq, hl₁, hunlink]
    rw [hps, List.headD_nil] at hnext
    simp only [hnext, hremove]
    refine (ends_int32 (n := n) (y := s.curTotalNum - (s.node l.tail).freq) (by omega)
      (by omega)).map ?_
    rintro _ ⟨rfl, -⟩
    refine ⟨L, P, h.erased .., ⟨rfl, rfl⟩, k + 1, Nat.succ_le_succ hk, ?_, ?_⟩
    · change s.weight P ≤ s.curTotalNum - (s.node l.tail).freq + (k + 1 : Nat)
      omega
    · change s.curTotalNum - (s.node l.tail).freq + (k + 1 : Nat) ≤ n
      omega
  | cons p ps =>
    obtain ⟨hp, hfreq⟩ := h.mem_iff.mp (hps ▸ List.mem_cons_self : p ∈ L s.minFreq)
    have hpos := h.freq_pos hp
    have hle := h.freq_le_weight hp
    have hremove := h.removeFromFreqList (h.mem hp)
    rw [hps, List.headD_cons] at hnext
    simp only [hnext, hremove]
    refine (ends_int32 (n := n) (y := s.curTotalNum - (s.node p).freq) (by omega)
      (by omega)).map ?_
    rintro _ ⟨rfl, -⟩
    obtain ⟨hfiled, -⟩ := h.unlinked hp
    rw [← Finset.coe_erase] at hfiled
    have hweight : s.weight (P.erase p) = s.weight P - (s.node p).freq := weight_erase hp
    refine ⟨_, P.erase p, ⟨⟨⟨hfiled.isList, hfiled.missing, hfiled.unique, hfiled.lt_fresh⟩,
      hfiled.mem_iff, hfiled.freq_pos⟩, ?_, fun {key q} hq => ?_, ?_, h.minFreq_pos, ?_⟩,
      ⟨rfl, rfl⟩, k, Nat.le_succ_of_le hk, ?_, ?_⟩
    · have hs := h.sentinels_unlinked (h.mem hp) h.sentinels
      exact ⟨hs.freq, hs.next⟩
    · obtain ⟨hmem, hkey, hvalue⟩ := (h.erased (s.node p).key 0 0).cached hq
      refine ⟨Finset.mem_erase.mpr ⟨?_, hmem⟩, hkey, hvalue⟩
      rintro rfl
      rw [show key = (s.node q).key from hkey.symm] at hq
      cases hq.symm.trans (AList.lookup_erase ..)
    · exact fun hq => h.freq_lt (Finset.mem_of_mem_erase hq)
    · exact (h.erased (s.node p).key 0 0).one
    · change s.weight (P.erase p) ≤ s.curTotalNum - (s.node p).freq + k
      omega
    · change s.curTotalNum - (s.node p).freq + k ≤ n
      omega

theorem Consistent.putNode (h : Consistent m s L P) (key : Key) (value : Value)
    (walk : Traversal Key) (hmax : 1 ≤ s.maxAverageNum) (hk : k ≤ n + 1)
    (hledger : Ledger n s P k) :
    Ends n (s.putNode key value walk) fun s' => (∃ L' P',
      Sound (n + 1) (Function.update m key (some value)) s' L' P') ∧ Same s s' ∧
      ∃ p, s'.nodeMap.lookup key = some p := by
  have hsum := hledger.weight_le
  have htotal := hledger.total_le
  have hnonneg := h.weight_nonneg
  obtain ⟨s₁, hadd, hfiled, hframe, hself, hother, hsentinels⟩ :=
    h.toFiled.insertNode key value
  rw [← Finset.coe_insert] at hfiled
  have hfresh : s.fresh ∉ P := fun hq => Nat.lt_irrefl _ (h.lt_fresh_of_mem hq)
  have hmax₁ : s₁.maxAverageNum = s.maxAverageNum := hframe.maxAverageNum
  have htotal₁ : s₁.curTotalNum = s.curTotalNum := hframe.curTotalNum
  have hminFreq₁ : s₁.minFreq = s.minFreq := hframe.minFreq
  have hcons : Consistent (Function.update m key (some value)) s₁
      (Function.update L 1 (L 1 ++ [s.fresh])) (insert s.fresh P) := by
    refine ⟨hfiled, hsentinels h.sentinels, fun {key' q} hq => ?_, fun {q} hq => ?_,
      h.minFreq_pos.trans_eq hminFreq₁.symm, fun _ => ?_⟩
    · rw [hframe.nodeMap] at hq
      obtain ⟨rfl, rfl⟩ | ⟨hne, hq⟩ := lookup_insertNode.mp hq
      · rw [hself, Function.update_self]
        exact ⟨Finset.mem_insert_self .., rfl, rfl⟩
      · obtain ⟨hmem, hkey, hvalue⟩ := h.cached hq
        rw [hother q (h.lt_fresh_of_mem hmem), Function.update_of_ne hne]
        exact ⟨Finset.mem_insert_of_mem hmem, hkey, hvalue⟩
    · obtain rfl | hq := Finset.mem_insert.mp hq
      · rw [hself]
        exact (by decide : (1 : Int) < 2 ^ 31)
      · rw [hother q (h.lt_fresh_of_mem hq)]
        exact h.freq_lt hq
    · have hmem := hfiled.mem (Finset.mem_coe.mpr (Finset.mem_insert_self s.fresh P))
      rw [hself] at hmem
      exact hfiled.lookup_of_mem hmem
  have hweight : s₁.weight (insert s.fresh P) = s.weight P + 1 := by
    rw [weight, Finset.sum_insert hfresh, hself, add_comm]
    exact congrArg (· + 1) (weight_congr fun q hq => by rw [hother q (h.lt_fresh_of_mem hq)])
  rw [LfuCache.putNode, hadd]
  refine (hcons.addFreqNum walk (by omega) hk (by omega) (by omega) (by omega)).map ?_
  rintro s' ⟨L', hcons', -, hmap, hsame, hledger'⟩
  have hone : min s'.minFreq 1 = 1 := min_eq_right hcons'.minFreq_pos
  refine ⟨⟨L', _, hcons'.with_minFreq hone.ge, fun hsize => ?_, k, hk, hledger'.weight_le,
    hledger'.total_le⟩, ⟨hsame.capacity.trans hframe.capacity,
    hsame.maxAverageNum.trans hframe.maxAverageNum⟩, s.fresh, ?_⟩
  · change ∃ l, s'.freqToFreqList.lookup (Min.min s'.minFreq 1) = some l
    rw [hone]
    exact hcons'.one hsize
  · change s'.nodeMap.lookup key = _
    rw [hmap, hframe.nodeMap]
    exact AList.lookup_insert _

/-! ### The calls -/

theorem sound_new (capacity maxAverageNum : Int) :
    Sound 0 (fun _ => none) (new capacity maxAverageNum : LfuCache Key Value) (fun _ => []) ∅ where
  toListed := (inv_new capacity maxAverageNum).toListed
  mem_iff := by simp
  freq_pos := by simp
  sentinels := ⟨nofun, nofun⟩
  cached := nofun
  freq_lt := nofun
  minFreq_pos := (by decide : (1 : Int) ≤ INT8_MAX)
  one := fun h => absurd rfl h
  min := fun h => absurd rfl h
  ledger := ⟨0, Nat.le_refl _, Int.le_refl _, Int.le_refl _⟩

omit [Inhabited Key] [Inhabited Value] in
theorem Sound.succ (h : Sound n m s L P) : Sound (n + 1) m s L P := by
  obtain ⟨k, hk, hledger⟩ := h.ledger
  refine ⟨h.toConsistent, h.min, k, Nat.le_succ_of_le hk, hledger.weight_le, ?_⟩
  exact Int.le_trans hledger.total_le (by omega)

omit [Inhabited Key] [Inhabited Value] in
theorem Sound.setValue (h : Sound n m s L P) (hkey : s.nodeMap.lookup key = some p) :
    Sound n (Function.update m key (some value)) (s.setValue p value) L P := by
  have hfiled : Filed (s.setValue p value) L P := h.congr_node fun q _ => setValue_freq
  refine ⟨⟨hfiled, ⟨fun hl => ?_, h.sentinels.next⟩, fun {key' q} hq => ?_, fun {q} hq => ?_,
    h.minFreq_pos, h.one⟩, h.min, ?_⟩
  · rw [setValue_freq]
    exact h.sentinels.freq hl
  · obtain ⟨hmem, hkey', hvalue⟩ := h.cached hq
    rw [setValue_node]
    obtain rfl | hne := eq_or_ne key' key
    · cases hkey.symm.trans hq
      rw [if_pos rfl, Function.update_self]
      exact ⟨hmem, hkey', rfl⟩
    · have hqp : q ≠ p := by
        rintro rfl
        exact hne (hkey'.symm.trans (h.cached hkey).2.1)
      rw [if_neg hqp, Function.update_of_ne hne]
      exact ⟨hmem, hkey', hvalue⟩
  · rw [setValue_freq]
    exact h.freq_lt hq
  · obtain ⟨k, hk, hledger⟩ := h.ledger
    refine ⟨k, hk, Int.le_trans (Int.le_of_eq ?_) hledger.weight_le, hledger.total_le⟩
    exact weight_congr fun q _ => setValue_freq

theorem Sound.put (h : Sound n m s L P) (hcapacity : s.capacity ≠ 0) (hmax : 1 ≤ s.maxAverageNum)
    (key : Key) (value : Value) (walk : Traversal Key) :
    Ends n (s.put key value walk) fun s' => (∃ L' P',
      Sound (n + 1) (Function.update m key (some value)) s' L' P') ∧ Same s s' ∧
      ∃ p, s'.nodeMap.lookup key = some p := by
  rw [LfuCache.put, if_neg hcapacity]
  obtain hkey | ⟨p, hkey⟩ := Option.eq_none_or_eq_some (s.nodeMap.lookup key)
  · obtain ⟨k, hk, hledger⟩ := h.ledger
    rw [hkey]
    have hroom : Ends n (if (s.size : Int) = s.capacity then s.kickOut else .ok s) fun s' =>
        ∃ L' P', Consistent m s' L' P' ∧ Same s s' ∧ ∃ k' ≤ n + 1, Ledger n s' P' k' := by
      split
      · exact h.kickOut (by omega) h.min hk hledger
      · exact .inr ⟨s, rfl, L, P, h.toConsistent, ⟨rfl, rfl⟩, k, Nat.le_succ_of_le hk, hledger⟩
    refine hroom.bind ?_
    rintro s₁ ⟨L₁, P₁, hcons, hsame, k', hk', hledger'⟩
    have hput := hcons.putNode key value walk (hmax.trans_eq hsame.maxAverageNum.symm) hk' hledger'
    refine hput.imp_right ?_
    rintro ⟨s', hok, hsound, hsame', hkey'⟩
    exact ⟨s', hok, hsound, hsame.trans hsame', hkey'⟩
  · rw [hkey]
    have hset : Sound n (Function.update m key (some value)) (s.setValue p value) L P :=
      h.setValue hkey
    refine (hset.getInternal hmax hkey walk).map ?_
    rintro r ⟨⟨L', hsound⟩, hmap, hsame, -⟩
    exact ⟨⟨L', P, hsound⟩, ⟨hsame.capacity, hsame.maxAverageNum⟩, p, hmap ▸ hkey⟩

theorem Sound.get (h : Sound n m s L P) (hmax : 1 ≤ s.maxAverageNum) (key : Key)
    (walk : Traversal Key) :
    Ends n (s.get key walk) fun r => (∃ L' P', Sound (n + 1) m r.1 L' P') ∧ Same s r.1 ∧
      r.2 = (s.nodeMap.lookup key).map fun p => (s.node p).value := by
  rw [LfuCache.get]
  obtain hkey | ⟨p, hkey⟩ := Option.eq_none_or_eq_some (s.nodeMap.lookup key)
  · rw [hkey]
    exact .inr ⟨_, rfl, ⟨L, P, h.succ⟩, ⟨rfl, rfl⟩, rfl⟩
  · rw [hkey]
    refine (h.getInternal hmax hkey walk).map ?_
    rintro r ⟨⟨L', hsound⟩, -, hsame, hvalue⟩
    exact ⟨⟨L', P, hsound⟩, hsame, congrArg some hvalue⟩

omit [Inhabited Key] [Inhabited Value] in
theorem Sound.purge (h : Sound n m s L P) :
    Sound (n + 1) (fun _ => none) s.purge (fun _ => []) ∅ where
  isList := nofun
  missing _ := rfl
  unique := nofun
  lt_fresh := nofun
  mem_iff := by simp
  freq_pos := by simp
  sentinels := ⟨nofun, nofun⟩
  cached := nofun
  freq_lt := nofun
  minFreq_pos := h.minFreq_pos
  one := fun h => absurd rfl h
  min := fun h => absurd rfl h
  ledger := by
    obtain ⟨k, hk, hledger⟩ := h.ledger
    have hnonneg := h.weight_nonneg
    have hsum := hledger.weight_le
    have htotal := hledger.total_le
    refine ⟨k, Nat.le_succ_of_le hk, ?_, ?_⟩
    · change 0 ≤ s.curTotalNum + k
      omega
    · change s.curTotalNum + k ≤ (n + 1 : Nat)
      omega

end

end LfuCache

end MuduoX
