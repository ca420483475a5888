import MuduoX.Cache.Invariant

/-! # Counters and aging

`freqSum` is what `curTotalNum_` should be. Aging takes the same number off every frequency, down to
1, and finds the least frequency anew; it finds it if there is one below `INT8_MAX`. -/

namespace MuduoX

namespace LfuCache

section
variable {Key Value : Type*} [DecidableEq Key] {s s' : LfuCache Key Value}
  {L : Int → List NodePtr} {p q : NodePtr} {f : Int} {key : Key}

/-! ### The sum of the frequencies -/

def freqSum (s : LfuCache Key Value) : Int := (s.nodeMap.entries.map fun e => (s.node e.2).freq).sum

theorem lookup_of_mem_entries {e : Sigma fun _ : Key => NodePtr} (he : e ∈ s.nodeMap.entries) :
    s.nodeMap.lookup e.1 = some e.2 := AList.mem_lookup_iff.mpr he

theorem entries_perm {m : AList fun _ : Key => NodePtr} (h : m.lookup key = some p) :
    m.entries.Perm (⟨key, p⟩ :: (m.erase key).entries) := by
  have hmem : key ∈ m.entries.keys := AList.mem_keys.mp (AList.lookup_isSome.mp (h ▸ rfl))
  obtain ⟨b, l₁, l₂, -, hentries, herase⟩ := List.exists_of_kerase hmem
  have hb : m.lookup key = some b := AList.mem_lookup_iff.mpr (hentries ▸ by simp)
  cases h.symm.trans hb
  change m.entries.Perm (_ :: List.kerase key m.entries)
  rw [herase, hentries]
  exact List.perm_middle

theorem freqSum_eq (h : s.nodeMap.lookup key = some p) : s.freqSum = (s.node p).freq +
    ((s.nodeMap.erase key).entries.map fun e => (s.node e.2).freq).sum :=
  ((entries_perm h).map _).sum_eq

theorem freqSum_congr (hmap : s'.nodeMap = s.nodeMap)
    (hfreq : ∀ p, s.Cached p → (s'.node p).freq = (s.node p).freq) : s'.freqSum = s.freqSum := by
  rw [freqSum, freqSum, hmap]
  exact congrArg List.sum (List.map_congr_left fun e he => hfreq e.2 ⟨e.1, lookup_of_mem_entries he⟩)

theorem Inv.sum_erase_congr (h : Inv s L) (hp : s.nodeMap.lookup key = some p)
    (hnode : ∀ q, s.Cached q → q ≠ p → (s'.node q).freq = (s.node q).freq) :
    ((s.nodeMap.erase key).entries.map fun e => (s'.node e.2).freq).sum =
      ((s.nodeMap.erase key).entries.map fun e => (s.node e.2).freq).sum := by
  refine congrArg List.sum (List.map_congr_left fun e he => ?_)
  have hlookup : (s.nodeMap.erase key).lookup e.1 = some e.2 := AList.mem_lookup_iff.mpr he
  have hne : e.1 ≠ key := by
    intro heq
    rw [heq, AList.lookup_erase] at hlookup
    cases hlookup
  rw [AList.lookup_erase_ne hne] at hlookup
  refine hnode e.2 ⟨e.1, hlookup⟩ fun heq => hne ?_
  rw [← h.key hlookup, heq, h.key hp]

theorem Inv.freqSum_move (h : Inv s L) (hp : s.Cached p) (hmap : s'.nodeMap = s.nodeMap)
    (hnode : ∀ q < s.fresh, s'.node q = Function.update s.node p { s.node p with freq := f } q) :
    s'.freqSum = s.freqSum - (s.node p).freq + f := by
  have hlookup := h.lookup_key hp
  have hself : (s'.node p).freq = f := by
    rw [hnode p (h.lt_fresh_of_cached hp), Function.update_self]
  rw [freqSum_eq hlookup, freqSum_eq (s := s') (hmap ▸ hlookup), hself, hmap,
    h.sum_erase_congr hlookup fun q hq hne => by
      rw [hnode q (h.lt_fresh_of_cached hq), Function.update_of_ne hne]]
  omega

theorem Inv.freqSum_evicted (h : Inv s L) (hp : s.Cached p) :
    (s.evicted p).freqSum = s.freqSum - (s.node p).freq := by
  rw [freqSum_eq (h.lookup_key hp), add_sub_cancel_left]
  rfl

theorem freqSum_insert (hkey : s.nodeMap.lookup key = none)
    (hmap : s'.nodeMap = s.nodeMap.insert key s.fresh) (hnew : (s'.node s.fresh).freq = 1)
    (hnode : ∀ q, s.Cached q → s'.node q = s.node q) : s'.freqSum = s.freqSum + 1 := by
  have hentries := AList.entries_insert_of_notMem (b := s.fresh) (AList.lookup_eq_none.mp hkey)
  rw [freqSum, hmap, hentries, List.map_cons, List.sum_cons, hnew, freqSum, add_comm]
  exact congrArg (· + 1) (congrArg List.sum (List.map_congr_left fun e he => by
    rw [hnode e.2 ⟨e.1, lookup_of_mem_entries he⟩]))

theorem Inv.freq_le_sum (h : Inv s L) (hp : s.Cached p) : (s.node p).freq ≤ s.freqSum := by
  obtain ⟨key, hkey⟩ := hp
  refine List.single_le_sum (fun x hx => ?_) _
    (List.mem_map_of_mem (f := fun e => (s.node e.2).freq) (AList.mem_lookup_iff.mp hkey))
  obtain ⟨e, he, rfl⟩ := List.mem_map.mp hx
  have := h.freq_pos ⟨e.1, lookup_of_mem_entries he⟩
  omega

theorem Inv.freqSum_nonneg (h : Inv s L) : 0 ≤ s.freqSum := by
  refine List.sum_nonneg fun x hx => ?_
  obtain ⟨e, he, rfl⟩ := List.mem_map.mp hx
  have := h.freq_pos ⟨e.1, lookup_of_mem_entries he⟩
  omega

/-! ### The average -/

/-- In range, the mixed division is the one of the integers. -/
theorem average_eq {total : Int} {size : Nat} (hlow : 0 ≤ total) (hhigh : total < 2 ^ 31) :
    average total size = total / size := by
  rw [average]
  split
  · rename_i hzero
    rw [hzero, Nat.cast_zero, Int.ediv_zero]
  · rw [Int.emod_eq_of_lt hlow (by omega)]
    have hdiv := Int.ediv_nonneg hlow (Int.natCast_nonneg size)
    have hle := Int.ediv_le_self size hlow
    exact Int.bmod_eq_of_le (by omega) (by omega)

/-! ### Aging -/

/-- A frequency with `d` taken off. -/
def aged (d f : Int) : Int := if f - d < 1 then 1 else f - d

theorem one_le_aged (d f : Int) : 1 ≤ aged d f := by
  rw [aged]
  split <;> omega

theorem aged_le {d : Int} (hd : 0 ≤ d) (hf : 1 ≤ f) : aged d f ≤ f := by
  rw [aged]
  split <;> omega

variable [Inhabited Key] [Inhabited Value]

theorem Inv.age (h : Inv s L) (hp : s.Cached p) (hd : 0 ≤ s.maxAverageNum.tdiv 2)
    (hd' : s.maxAverageNum.tdiv 2 < 2 ^ 31) (hlt : (s.node p).freq < 2 ^ 31) :
    ∃ s' L', s.age p = .ok s' ∧ Inv s' L' ∧ Frame s s' ∧
      ∀ q < s.fresh, s'.node q = Function.update s.node p
        { s.node p with freq := aged (s.maxAverageNum.tdiv 2) (s.node p).freq } q := by
  have hpos := h.freq_pos hp
  obtain ⟨hremove, s', hadd, hinv, hframe, hnode⟩ :=
    h.move hp (one_le_aged (s.maxAverageNum.tdiv 2) (s.node p).freq)
  have hint : int32 (((s.unlinked p).node p).freq - (s.unlinked p).maxAverageNum.tdiv 2) =
      .ok ((s.node p).freq - s.maxAverageNum.tdiv 2) :=
    int32_eq (by change -2 ^ 31 ≤ (s.node p).freq - s.maxAverageNum.tdiv 2; omega)
      (by change (s.node p).freq - s.maxAverageNum.tdiv 2 < 2 ^ 31; omega)
  refine ⟨s', _, ?_, hinv, hframe, hnode⟩
  rw [LfuCache.age, hremove]
  simp only [Except.bind, hint]
  exact hadd

/-- The loop over the map: every node is aged once, whatever the order. -/
theorem Inv.foldlM_ageKey {keys : List Key} (h : Inv s L) (hkeys : keys.Nodup)
    (hd : 0 ≤ s.maxAverageNum.tdiv 2) (hd' : s.maxAverageNum.tdiv 2 < 2 ^ 31)
    (hlt : ∀ p, s.Cached p → (s.node p).freq < 2 ^ 31) :
    ∃ s' L', keys.foldlM ageKey s = .ok s' ∧ Inv s' L' ∧ Frame s s' ∧
      ∀ key p, s.nodeMap.lookup key = some p → s'.node p =
        if key ∈ keys then
          { s.node p with freq := aged (s.maxAverageNum.tdiv 2) (s.node p).freq }
        else s.node p := by
  induction keys generalizing s L with
  | nil => exact ⟨s, L, rfl, h, .refl s, fun _ _ _ => (if_neg List.not_mem_nil).symm⟩
  | cons key keys ih =>
    obtain ⟨hkey, hkeys⟩ := List.nodup_cons.mp hkeys
    obtain hnone | ⟨p, hp⟩ := Option.eq_none_or_eq_some (s.nodeMap.lookup key)
    · obtain ⟨s', L', hfold, hinv, hframe, hnode⟩ := ih h hkeys hd hd' hlt
      refine ⟨s', L', ?_, hinv, hframe, fun key' q hq => ?_⟩
      · rw [List.foldlM_cons, ageKey, hnone]
        exact hfold
      · have hne : key' ≠ key := by
          rintro rfl
          cases hnone.symm.trans hq
        rw [hnode key' q hq]
        simp only [List.mem_cons, hne, false_or]
    · have hcached : s.Cached p := ⟨key, hp⟩
      obtain ⟨s₁, L₁, hage, hinv₁, hframe₁, hnode₁⟩ := h.age hcached hd hd' (hlt p hcached)
      have hmap : s₁.nodeMap = s.nodeMap := hframe₁.nodeMap
      have hmax : s₁.maxAverageNum = s.maxAverageNum := hframe₁.maxAverageNum
      have hlt₁ (q : NodePtr) (hq : s₁.Cached q) : (s₁.node q).freq < 2 ^ 31 := by
        have hq : s.Cached q := by rwa [Cached, ← hmap]
        rw [hnode₁ q (h.lt_fresh_of_cached hq)]
        obtain rfl | hne := eq_or_ne q p
        · rw [Function.update_self]
          exact Int.lt_of_le_of_lt (aged_le hd (h.freq_pos hq)) (hlt q hq)
        · rw [Function.update_of_ne hne]
          exact hlt q hq
      obtain ⟨s', L', hfold, hinv, hframe, hnode⟩ :=
        ih hinv₁ hkeys (by rwa [hmax]) (by rwa [hmax]) hlt₁
      refine ⟨s', L', ?_, hinv, hframe₁.trans hframe, fun key' q hq => ?_⟩
      · rw [List.foldlM_cons, ageKey, hp]
        simp only [hage]
        exact hfold
      · rw [hnode key' q (hmap.symm ▸ hq), hmax, hnode₁ q (h.lt_fresh_of_cached ⟨key', hq⟩)]
        obtain rfl | hne := eq_or_ne key' key
        · cases hp.symm.trans hq
          rw [if_neg hkey, Function.update_self, if_pos List.mem_cons_self]
        · have hqp : q ≠ p := by
            rintro rfl
            exact hne ((h.key hq).symm.trans (h.key hp))
          rw [Function.update_of_ne hqp]
          simp only [List.mem_cons, hne, false_or]

omit [DecidableEq Key] [Inhabited Key] [Inhabited Value] in
/-- The loop of `updateMinFreq`. -/
theorem foldl_min (es : List (Sigma fun _ : Int => FreqList)) (m : Int) :
    let r := es.foldl (fun m pair => if s.isEmpty pair.2 then m else min m pair.1) m
    r ≤ m ∧ (∀ e ∈ es, s.isEmpty e.2 = false → r ≤ e.1) ∧
      (r = m ∨ ∃ e ∈ es, s.isEmpty e.2 = false ∧ r = e.1) := by
  induction es generalizing m with
  | nil => exact ⟨Int.le_refl _, nofun, .inl rfl⟩
  | cons e es ih =>
    rw [List.foldl_cons]
    cases hempty : s.isEmpty e.2 with
    | true =>
      obtain ⟨hle, hall, heq⟩ := ih m
      refine ⟨hle, List.forall_mem_cons.mpr ⟨fun h => ?_, hall⟩, heq.imp_right ?_⟩
      · cases hempty.symm.trans h
      · rintro ⟨e', he', h⟩
        exact ⟨e', List.mem_cons_of_mem _ he', h⟩
    | false =>
      obtain ⟨hle, hall, heq⟩ := ih (min m e.1)
      refine ⟨Int.le_trans hle (Int.min_le_left ..), List.forall_mem_cons.mpr
        ⟨fun _ => Int.le_trans hle (Int.min_le_right ..), hall⟩, ?_⟩
      obtain heq | ⟨e', he', h⟩ := heq
      · obtain hmin | hmin := Int.le_total m e.1
        · exact .inl (heq.trans (Int.min_eq_left hmin))
        · exact .inr ⟨e, List.mem_cons_self, hempty, heq.trans (Int.min_eq_right hmin)⟩
      · exact .inr ⟨e', List.mem_cons_of_mem _ he', h⟩

omit [Inhabited Key] [Inhabited Value] in
/-- `updateMinFreq` finds the least frequency unless there is none below `INT8_MAX`. -/
theorem Inv.updateMinFreq (h : Inv s L) : Inv s.updateMinFreq L ∧
    ((∃ f < INT8_MAX, L f ≠ []) → Least s.updateMinFreq.minFreq L) ∧
    ((∀ f < INT8_MAX, L f = []) → s.updateMinFreq.minFreq = 1) := by
  obtain ⟨hmax, hall, heq⟩ := foldl_min (s := s) s.freqToFreqList.entries INT8_MAX
  change Inv { s with minFreq := _ } L ∧ (_ → Least (if _ = INT8_MAX then 1 else _) L) ∧
    (_ → (if _ = INT8_MAX then 1 else _) = 1)
  generalize s.freqToFreqList.entries.foldl
    (fun m pair => if s.isEmpty pair.2 then m else min m pair.1) INT8_MAX = m at *
  have hle (f : Int) (hf : L f ≠ []) : m ≤ f := by
    obtain ⟨q, hq⟩ := List.exists_mem_of_ne_nil _ hf
    obtain ⟨l, hl⟩ := h.lookup_of_mem hq
    refine hall ⟨f, l⟩ (AList.mem_lookup_iff.mp hl) ?_
    rw [Bool.eq_false_iff, Ne, h.isEmpty hl]
    exact hf
  have hmem : m = INT8_MAX ∨ L m ≠ [] := by
    refine heq.imp_right ?_
    rintro ⟨⟨f, l⟩, he, hempty, rfl⟩
    rw [Bool.eq_false_iff, Ne, h.isEmpty (AList.mem_lookup_iff.mpr he)] at hempty
    exact hempty
  refine ⟨h.with_minFreq ?_, ?_, fun hnone => if_pos ?_⟩
  · split
    · exact Int.le_refl _
    · rename_i hne
      exact h.pos_of_ne_nil (hmem.resolve_left hne)
  · rintro ⟨f, hf, hne⟩
    have hm : m ≠ INT8_MAX := by
      have := hle f hne
      omega
    rw [if_neg hm]
    exact fun g hg => ⟨hmem.resolve_left hm, hle g hg⟩
  · by_contra hne
    exact hmem.resolve_left hne (hnone m (lt_of_le_of_ne hmax hne))

/-- All nodes are aged, and `minFreq_` is right again unless every frequency is `INT8_MAX` or more. -/
theorem Inv.handleOverMaxAverageNum (h : Inv s L) (walk : Traversal Key)
    (hd : 0 ≤ s.maxAverageNum.tdiv 2) (hd' : s.maxAverageNum.tdiv 2 < 2 ^ 31)
    (hlt : ∀ p, s.Cached p → (s.node p).freq < 2 ^ 31) :
    ∃ s' L', s.handleOverMaxAverageNum walk = .ok s' ∧ Inv s' L' ∧
      Frame { s with minFreq := s'.minFreq } s' ∧
      (∀ p, s.Cached p → s'.node p =
        { s.node p with freq := aged (s.maxAverageNum.tdiv 2) (s.node p).freq }) ∧
      ((∃ f < INT8_MAX, L' f ≠ []) → Least s'.minFreq L') ∧
      ((∃ f, L' f ≠ []) → (∀ f < INT8_MAX, L' f = []) → s'.minFreq = 1) := by
  rw [LfuCache.handleOverMaxAverageNum]
  split
  · rename_i hzero
    have hnone (p : NodePtr) : ¬s.Cached p := by
      rintro ⟨key, hp⟩
      have hmem : key ∈ s.nodeMap.keys := AList.mem_keys.mp (AList.lookup_isSome.mp (hp ▸ rfl))
      rw [List.length_eq_zero_iff.mp hzero] at hmem
      cases hmem
    have hempty (f : Int) (hf : L f ≠ []) : False := by
      obtain ⟨q, hq⟩ := List.exists_mem_of_ne_nil _ hf
      exact hnone q (h.mem_iff.mp hq).1
    refine ⟨s, L, rfl, h, .refl s, fun p hp => absurd hp (hnone p),
      fun _ f hf => (hempty f hf).elim, ?_⟩
    rintro ⟨f, hf⟩
    exact (hempty f hf).elim
  · have hperm := walk.2 s.nodeMap.keys
    obtain ⟨s', L', hfold, hinv, hframe, hnode⟩ :=
      h.foldlM_ageKey (hperm.nodup_iff.mpr s.nodeMap.keys_nodup) hd hd' hlt
    obtain ⟨hinv, hleast, hlost⟩ := hinv.updateMinFreq
    refine ⟨s'.updateMinFreq, L', by rw [hfold]; rfl, hinv, ⟨hframe.capacity, rfl,
      hframe.maxAverageNum, hframe.curAverageNum, hframe.curTotalNum, hframe.nodeMap,
      hframe.fresh_le, hframe.lists⟩, ?_, hleast, fun _ => hlost⟩
    rintro p ⟨key, hp⟩
    have hmem : key ∈ walk.1 s.nodeMap.keys := hperm.mem_iff.mpr
      (AList.mem_keys.mp (AList.lookup_isSome.mp (hp ▸ rfl)))
    exact (hnode key p hp).trans (if_pos hmem)

/-! ### Counting an access -/

/-- The counters after an access, before any aging. -/
def counted (s : LfuCache Key Value) : LfuCache Key Value :=
  { s with
    curTotalNum := s.curTotalNum + 1
    curAverageNum := (s.curTotalNum + 1) / s.size }

omit [Inhabited Key] [Inhabited Value] in
theorem Inv.counted (h : Inv s L) : Inv s.counted L where
  isList := h.isList
  missing := h.missing
  unique := h.unique
  lt_fresh := h.lt_fresh
  mem_iff := h.mem_iff
  key := h.key
  freq_pos := h.freq_pos
  minFreq_pos := h.minFreq_pos

theorem addFreqNum_eq (walk : Traversal Key) (hlow : 0 ≤ s.curTotalNum)
    (hhigh : s.curTotalNum + 1 < 2 ^ 31) : s.addFreqNum walk =
      if s.counted.curAverageNum > s.maxAverageNum then s.counted.handleOverMaxAverageNum walk
      else .ok s.counted := by
  rw [addFreqNum, int32_eq (by omega) hhigh]
  simp only [Except.bind, average_eq (show 0 ≤ s.curTotalNum + 1 by omega) hhigh]
  rfl

theorem addFreqNum_overflow (walk : Traversal Key) (h : 2 ^ 31 ≤ s.curTotalNum + 1) :
    s.addFreqNum walk = .error .outOfRange := by
  rw [addFreqNum, int32, if_neg (by omega)]
  rfl

end

end LfuCache

end MuduoX
