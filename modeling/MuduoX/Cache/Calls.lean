import MuduoX.Cache.Counters

/-! # What a call does

`Good n s L` adds to the invariant what keeps the counters in range, `n` being the number of calls so
far. `Called` lists what a call can do, piece by piece, and `Good.call` is the lemma by which
everything about runs is proved: a call on a good cache overflows an `int`, which takes 2 ^ 31 calls,
or does one of these things and leaves a good cache. -/

namespace MuduoX

namespace LfuCache

section
variable {Key Value : Type*} [DecidableEq Key] {s s' s₁ s₂ : LfuCache Key Value}
  {L L' L₁ : Int → List NodePtr} {p q : NodePtr} {f : Int} {key : Key} {value : Value} {n : Nat}

structure Good (n : Nat) (s : LfuCache Key Value) (L : Int → List NodePtr) : Prop
    extends Inv s L where
  sum_le : s.freqSum ≤ s.curTotalNum
  total_le : s.curTotalNum ≤ n
  total_lt : s.curTotalNum < 2 ^ 31

/-! ### The pieces of a call -/

structure Promoted (s : LfuCache Key Value) (L : Int → List NodePtr) (p : NodePtr)
    (s₁ : LfuCache Key Value) (L₁ : Int → List NodePtr) : Prop where
  inv : Inv s₁ L₁
  lists : L₁ = relist L p (s.node p).freq ((s.node p).freq + 1)
  frame : Frame { s with minFreq := s₁.minFreq } s₁
  least : Least s.minFreq L → Least s₁.minFreq L₁
  node : ∀ q < s.fresh,
    s₁.node q = Function.update s.node p { s.node p with freq := (s.node p).freq + 1 } q

/-- What `kickOut` has done, or nothing. -/
def Room (s : LfuCache Key Value) (L : Int → List NodePtr) (s₁ : LfuCache Key Value)
    (L₁ : Int → List NodePtr) : Prop :=
  (s.size : Int) ≠ s.capacity ∧ s₁ = s ∧ L₁ = L ∨
  (s.size : Int) = s.capacity ∧ ∃ p ps, L s.minFreq = p :: ps ∧ s₁ = s.evicted p ∧
    L₁ = Function.update L s.minFreq ps

structure Inserted (s : LfuCache Key Value) (L : Int → List NodePtr) (key : Key) (value : Value)
    (s₁ : LfuCache Key Value) (L₁ : Int → List NodePtr) : Prop where
  inv : Inv s₁ L₁
  lists : L₁ = Function.update L 1 (L 1 ++ [s.fresh])
  frame : Frame (s.insertNode key value) s₁
  new : s₁.node s.fresh = ⟨1, key, value⟩
  node : ∀ q < s.fresh, s₁.node q = s.node q

structure Accessed (s : LfuCache Key Value) (L : Int → List NodePtr) (s' : LfuCache Key Value)
    (L' : Int → List NodePtr) : Prop where
  inv : Inv s' L'
  frame : Frame { s.counted with minFreq := s'.minFreq } s'
  outcome :
    s.counted.curAverageNum ≤ s.maxAverageNum ∧ s' = s.counted ∧ L' = L ∨
    s.maxAverageNum < s.counted.curAverageNum ∧
      (∀ p, s.Cached p → s'.node p =
        { s.node p with freq := aged (s.maxAverageNum.tdiv 2) (s.node p).freq }) ∧
      ((∃ f < INT8_MAX, L' f ≠ []) → Least s'.minFreq L') ∧
      ((∃ f, L' f ≠ []) → (∀ f < INT8_MAX, L' f = []) → s'.minFreq = 1)

inductive Called (s : LfuCache Key Value) (L : Int → List NodePtr) :
    LfuInput Key Value → LfuCache Key Value → (Int → List NodePtr) → Option Value → Prop
  | ignored {key value walk} (hcapacity : s.capacity = 0) : Called s L (.put key value walk) s L none
  | miss {key walk} (hkey : s.nodeMap.lookup key = none) : Called s L (.get key walk) s L none
  | purge : Called s L .purge s.purge (fun _ => []) none
  | hit {key walk p s₁ L₁ s' L'} (hkey : s.nodeMap.lookup key = some p)
      (hpromoted : Promoted s L p s₁ L₁) (haccessed : Accessed s₁ L₁ s' L') :
      Called s L (.get key walk) s' L' (some (s.node p).value)
  | overwrite {key value walk p s₁ L₁ s' L'} (hcapacity : s.capacity ≠ 0)
      (hkey : s.nodeMap.lookup key = some p) (hpromoted : Promoted (s.setValue p value) L p s₁ L₁)
      (haccessed : Accessed s₁ L₁ s' L') : Called s L (.put key value walk) s' L' none
  | insert {key value walk s₁ L₁ s₂ L₂ s₃ L'} (hcapacity : s.capacity ≠ 0)
      (hkey : s.nodeMap.lookup key = none) (hroom : Room s L s₁ L₁)
      (hinserted : Inserted s₁ L₁ key value s₂ L₂) (haccessed : Accessed s₂ L₂ s₃ L') :
      Called s L (.put key value walk) { s₃ with minFreq := min s₃.minFreq 1 } L' none

/-! ### What a call comes to -/

/-- `curAverageNum_` as the call on `key` computes it, if that is not a `get` that finds nothing. -/
def nextAverage (s : LfuCache Key Value) (key : Key) : Int :=
  match s.nodeMap.lookup key with
  | some _ => (s.curTotalNum + 1) / s.size
  | none =>
    if (s.size : Int) = s.capacity then (s.curTotalNum - s.minFreq + 1) / s.size
    else (s.curTotalNum + 1) / (s.size + 1)

/-- The call comes to `handleOverMaxAverageNum`. -/
def Ages (s : LfuCache Key Value) : LfuInput Key Value → Prop
  | .put key _ _ => s.capacity ≠ 0 ∧ s.maxAverageNum < s.nextAverage key
  | .get key _ => s.nodeMap.lookup key ≠ none ∧ s.maxAverageNum < s.nextAverage key
  | .purge => False

/-- The call comes to `kickOut`. -/
def Evicts (s : LfuCache Key Value) : LfuInput Key Value → Prop
  | .put key _ _ => s.capacity ≠ 0 ∧ s.nodeMap.lookup key = none ∧ (s.size : Int) = s.capacity
  | _ => False

/-! ### Making room -/

omit [DecidableEq Key] in
theorem setValue_node : (s.setValue p value).node q =
    { s.node q with value := if q = p then value else (s.node q).value } := by
  change Function.update s.node p { s.node p with value } q = _
  obtain rfl | hne := eq_or_ne q p
  · rw [Function.update_self, if_pos rfl]
  · rw [Function.update_of_ne hne, if_neg hne]

omit [DecidableEq Key] in
theorem setValue_key : ((s.setValue p value).node q).key = (s.node q).key := by rw [setValue_node]

omit [DecidableEq Key] in
theorem setValue_freq : ((s.setValue p value).node q).freq = (s.node q).freq := by
  rw [setValue_node]

theorem Good.setValue (h : Good n s L) : Good n (s.setValue p value) L := by
  have hsum : (s.setValue p value).freqSum = s.freqSum :=
    freqSum_congr rfl fun _ _ => setValue_freq
  exact ⟨h.congr_node (fun _ => setValue_key) fun _ => setValue_freq,
    Int.le_trans (Int.le_of_eq hsum) h.sum_le, h.total_le, h.total_lt⟩

theorem size_evicted (hp : s.nodeMap.lookup (s.node p).key = some p) :
    (s.evicted p).size + 1 = s.size := by
  have hmem : (s.node p).key ∈ s.nodeMap.keys :=
    AList.mem_keys.mp (AList.lookup_isSome.mp (hp ▸ rfl))
  rw [LfuCache.size, LfuCache.size, LfuCache.evicted, AList.keys_erase]
  exact List.length_erase_add_one hmem

theorem size_insertNode (hkey : s.nodeMap.lookup key = none) :
    (s.insertNode key value).size = s.size + 1 := by
  have hentries := AList.entries_insert_of_notMem (b := s.fresh) (AList.lookup_eq_none.mp hkey)
  rw [LfuCache.size, LfuCache.size, LfuCache.insertNode, AList.keys, hentries]
  rfl

theorem Good.room (h : Good n s L) (hfull : (s.size : Int) = s.capacity → L s.minFreq ≠ []) :
    ∃ s₁ L₁, (if (s.size : Int) = s.capacity then s.kickOut else .ok s) = .ok s₁ ∧ Good n s₁ L₁ ∧
      Room s L s₁ L₁ := by
  split
  · rename_i hsize
    obtain ⟨p, ps, hps⟩ := List.exists_cons_of_ne_nil (hfull hsize)
    obtain ⟨hp, hfreq⟩ := h.mem_iff.mp (hps ▸ List.mem_cons_self : p ∈ L s.minFreq)
    have hinv := h.evicted hps
    have hsum := h.freqSum_evicted hp
    have hnonneg := hinv.freqSum_nonneg
    have hpos := h.minFreq_pos
    have hle := h.sum_le
    have hn := h.total_le
    have hlt := h.total_lt
    refine ⟨s.evicted p, _, h.kickOut hps (by omega) (by omega), ⟨hinv, ?_, ?_, ?_⟩,
      .inr ⟨hsize, p, ps, hps, rfl, rfl⟩⟩
    · change (s.evicted p).freqSum ≤ s.curTotalNum - (s.node p).freq
      omega
    · change s.curTotalNum - (s.node p).freq ≤ n
      omega
    · change s.curTotalNum - (s.node p).freq < 2 ^ 31
      omega
  · rename_i hsize
    exact ⟨s, L, rfl, h, .inl ⟨hsize, rfl, rfl⟩⟩

theorem Room.lookup (h : Room s L s₁ L₁) (hkey : s.nodeMap.lookup key = none) :
    s₁.nodeMap.lookup key = none := by
  obtain ⟨-, rfl, -⟩ | ⟨-, p, ps, -, rfl, -⟩ := h
  · exact hkey
  · obtain rfl | hne := eq_or_ne key (s.node p).key
    · exact AList.lookup_erase ..
    · exact (AList.lookup_erase_ne hne).trans hkey

theorem Room.inv (h : Room s L s₁ L₁) (hinv : Inv s L) : Inv s₁ L₁ := by
  obtain ⟨-, rfl, rfl⟩ | ⟨-, p, ps, hps, rfl, rfl⟩ := h
  · exact hinv
  · exact hinv.evicted hps

theorem Room.maxAverageNum (h : Room s L s₁ L₁) : s₁.maxAverageNum = s.maxAverageNum := by
  obtain ⟨-, rfl, -⟩ | ⟨-, p, ps, -, rfl, -⟩ := h <;> rfl

theorem Room.nextAverage (h : Room s L s₁ L₁) (hinv : Inv s L)
    (hkey : s.nodeMap.lookup key = none) :
    (s₁.curTotalNum + 1) / (s₁.size + 1) = s.nextAverage key := by
  rw [LfuCache.nextAverage, hkey]
  obtain ⟨hsize, rfl, -⟩ | ⟨hsize, p, ps, hps, rfl, -⟩ := h
  · simp only [if_neg hsize]
  · obtain ⟨hp, hfreq⟩ := hinv.mem_iff.mp (hps ▸ List.mem_cons_self : p ∈ L s.minFreq)
    have hcard : ((s.evicted p).size : Int) + 1 = s.size := by
      exact_mod_cast size_evicted (hinv.lookup_key hp)
    simp only [if_pos hsize, hcard, ← hfreq]
    rfl

/-! ### Counting -/

theorem freqSum_le (hmap : s'.nodeMap = s.nodeMap)
    (hfreq : ∀ p, s.Cached p → (s'.node p).freq ≤ (s.node p).freq) : s'.freqSum ≤ s.freqSum := by
  rw [freqSum, freqSum, hmap]
  exact List.sum_le_sum fun e he => hfreq e.2 ⟨e.1, lookup_of_mem_entries he⟩

theorem tdiv_two_le (m : Int) : m.tdiv 2 ≤ max m 0 := by
  obtain hm | hm := Int.le_total 0 m
  · exact le_max_of_le_left (Int.tdiv_le_self 2 hm)
  · have := Int.tdiv_nonneg (Int.neg_nonneg_of_nonpos hm) (show (0 : Int) ≤ 2 by decide)
    rw [Int.neg_tdiv] at this
    omega

variable [Inhabited Key] [Inhabited Value]

theorem Inv.access (h : Inv s L) (walk : Traversal Key) (hlow : 0 ≤ s.curTotalNum)
    (hn : s.curTotalNum ≤ n) (hsum : s.freqSum ≤ s.curTotalNum + 1)
    (hd : 0 ≤ s.maxAverageNum.tdiv 2 ∨ s.counted.curAverageNum ≤ s.maxAverageNum) :
    s.addFreqNum walk = .error .outOfRange ∧ 2 ^ 31 ≤ n + 1 ∨
    ∃ s' L', s.addFreqNum walk = .ok s' ∧ Good (n + 1) s' L' ∧ Accessed s L s' L' := by
  obtain hhigh | hhigh := lt_or_ge (s.curTotalNum + 1) (2 ^ 31)
  · rw [addFreqNum_eq walk hlow hhigh]
    have hn' : s.curTotalNum + 1 ≤ (n + 1 : Nat) := by omega
    obtain hle | hgt := le_or_gt s.counted.curAverageNum s.maxAverageNum
    · refine .inr ⟨s.counted, L, if_neg (by omega), ⟨h.counted, hsum, hn', hhigh⟩, h.counted, ?_,
        .inl ⟨hle, rfl, rfl⟩⟩
      exact .refl _
    · have hd := hd.resolve_right (by omega)
      have hd' : s.maxAverageNum.tdiv 2 < 2 ^ 31 := by
        have havg : s.counted.curAverageNum ≤ s.curTotalNum + 1 :=
          Int.ediv_le_self _ (by omega)
        have := tdiv_two_le s.maxAverageNum
        omega
      obtain ⟨s', L', hage, hinv, hframe, hnode, hupdate⟩ :=
        h.counted.handleOverMaxAverageNum walk hd hd' fun p hp => by
          have := h.freq_le_sum hp
          change (s.node p).freq < 2 ^ 31
          omega
      have hsum' : s'.freqSum ≤ s.counted.freqSum := freqSum_le hframe.nodeMap fun p hp => by
        rw [hnode p hp]
        exact aged_le hd (h.freq_pos hp)
      have htotal : s'.curTotalNum = s.curTotalNum + 1 := hframe.curTotalNum
      refine .inr ⟨s', L', by rw [if_pos hgt, hage], ⟨hinv, ?_, by omega, by omega⟩, hinv, hframe,
        .inr ⟨hgt, hnode, hupdate⟩⟩
      rw [htotal]
      exact Int.le_trans hsum' hsum
  · refine .inl ⟨addFreqNum_overflow walk hhigh, ?_⟩
    omega

theorem Inv.promote_overflow (h : Inv s L) (hp : s.Cached p) (hlt : 2 ^ 31 ≤ (s.node p).freq + 1) :
    s.promote p = .error .outOfRange := by
  have hint : int32 (((s.unlinked p).node p).freq + 1) = .error .outOfRange :=
    if_neg fun hrange => Int.not_lt.mpr hlt hrange.2
  rw [LfuCache.promote, h.removeFromFreqList (h.mem hp)]
  simp only [Except.bind, hint]

theorem Good.getInternal (h : Good n s L) (hp : s.Cached p) (walk : Traversal Key)
    (hd : 0 ≤ s.maxAverageNum.tdiv 2 ∨ s.counted.curAverageNum ≤ s.maxAverageNum) :
    s.getInternal p walk = .error .outOfRange ∧ 2 ^ 31 ≤ n + 1 ∨
    ∃ s₁ L₁ s' L', s.getInternal p walk = .ok (s', (s.node p).value) ∧ Good (n + 1) s' L' ∧
      Promoted s L p s₁ L₁ ∧ Accessed s₁ L₁ s' L' := by
  have hsum := h.freq_le_sum hp
  have hpos := h.freq_pos hp
  have hle := h.sum_le
  have hn := h.total_le
  rw [LfuCache.getInternal]
  obtain hlt | hlt := lt_or_ge ((s.node p).freq + 1) (2 ^ 31)
  · obtain ⟨s₁, hpromote, hinv, hframe, hleast, hnode⟩ := h.promote hp hlt
    have hmap : s₁.nodeMap = s.nodeMap := hframe.nodeMap
    have htotal : s₁.curTotalNum = s.curTotalNum := hframe.curTotalNum
    have hmax : s₁.maxAverageNum = s.maxAverageNum := hframe.maxAverageNum
    have havg : s₁.counted.curAverageNum = s.counted.curAverageNum := by
      rw [LfuCache.counted, LfuCache.counted]
      simp only [htotal, LfuCache.size, hmap]
    have hsum₁ := h.freqSum_move hp hmap hnode
    obtain ⟨herr, hover⟩ | ⟨s', L', hadd, hgood, haccessed⟩ := hinv.access (n := n) walk
      (by omega) (by omega) (by omega) (by rwa [hmax, havg])
    · refine .inl ⟨?_, hover⟩
      simp only [hpromote, Except.bind, herr]
      rfl
    · refine .inr ⟨s₁, _, s', L', ?_, hgood, ⟨hinv, rfl, hframe, hleast, hnode⟩, haccessed⟩
      simp only [hpromote, Except.bind, hadd]
      rfl
  · refine .inl ⟨?_, by omega⟩
    rw [h.promote_overflow hp hlt]
    rfl

/-! ### The call -/

/-- `putInternal` behind the eviction. -/
theorem Good.putNode (h : Good n s L) (value : Value) (hkey : s.nodeMap.lookup key = none)
    (walk : Traversal Key)
    (hd : 0 ≤ s.maxAverageNum.tdiv 2 ∨ (s.curTotalNum + 1) / (s.size + 1) ≤ s.maxAverageNum) :
    s.putNode key value walk = .error .outOfRange ∧ 2 ^ 31 ≤ n + 1 ∨
    ∃ s₁ L₁ s' L', s.putNode key value walk = .ok { s' with minFreq := min s'.minFreq 1 } ∧
      Good (n + 1) { s' with minFreq := min s'.minFreq 1 } L' ∧ Inserted s L key value s₁ L₁ ∧
      Accessed s₁ L₁ s' L' := by
  have hle := h.sum_le
  have hn := h.total_le
  have hnonneg := h.freqSum_nonneg
  obtain ⟨s₁, hadd, hinv, hframe, hnew, hnode⟩ := h.insertNode value hkey
  have htotal : s₁.curTotalNum = s.curTotalNum := hframe.curTotalNum
  have hmax : s₁.maxAverageNum = s.maxAverageNum := hframe.maxAverageNum
  have hsize : s₁.size = s.size + 1 := by
    rw [LfuCache.size, hframe.nodeMap]
    exact size_insertNode hkey
  have hsum : s₁.freqSum = s.freqSum + 1 := by
    refine freqSum_insert hkey hframe.nodeMap (congrArg LfuNode.freq hnew) fun q hq => ?_
    exact hnode q (h.lt_fresh_of_cached hq)
  have havg : s₁.counted.curAverageNum = (s.curTotalNum + 1) / (s.size + 1) := by
    rw [LfuCache.counted]
    simp only [htotal, hsize, Nat.cast_succ]
  rw [LfuCache.putNode, hadd]
  simp only [Except.bind]
  obtain ⟨herr, hover⟩ | ⟨s', L', hcount, hgood, haccessed⟩ := hinv.access (n := n) walk
    (by omega) (by omega) (by omega) (by rwa [hmax, havg])
  · refine .inl ⟨?_, hover⟩
    rw [herr]
    rfl
  · refine .inr ⟨s₁, _, s', L', ?_, ⟨hgood.with_minFreq ?_, hgood.sum_le, hgood.total_le,
      hgood.total_lt⟩, ⟨hinv, rfl, hframe, hnew, hnode⟩, haccessed⟩
    · rw [hcount]
      rfl
    · exact le_min hgood.minFreq_pos (Int.le_refl _)

/-- A call overflows an `int`, which takes 2 ^ 31 calls, or does one of the things in `Called`. -/
theorem Good.call (h : Good n s L) (i : LfuInput Key Value)
    (hd : 0 ≤ s.maxAverageNum.tdiv 2 ∨ ¬s.Ages i) (hroom : s.Evicts i → L s.minFreq ≠ []) :
    s.call i = .error .outOfRange ∧ 2 ^ 31 ≤ n + 1 ∨
    ∃ s' L' v, s.call i = .ok (s', v) ∧ Good (n + 1) s' L' ∧ Called s L i s' L' v := by
  have hsucc : Good (n + 1) s L :=
    ⟨h.toInv, h.sum_le, Int.le_trans h.total_le (by omega), h.total_lt⟩
  cases i with
  | purge =>
    have hsum := h.freqSum_nonneg
    refine .inr ⟨_, _, _, rfl, ⟨h.purge, ?_, hsucc.total_le, hsucc.total_lt⟩, .purge⟩
    exact Int.le_trans hsum h.sum_le
  | get key walk =>
    rw [LfuCache.call, LfuCache.get]
    obtain hkey | ⟨p, hkey⟩ := Option.eq_none_or_eq_some (s.nodeMap.lookup key)
    · rw [hkey]
      exact .inr ⟨s, L, none, rfl, hsucc, .miss hkey⟩
    · rw [hkey]
      have hd : 0 ≤ s.maxAverageNum.tdiv 2 ∨ s.counted.curAverageNum ≤ s.maxAverageNum := by
        refine hd.imp_right fun hages => Int.not_lt.mp fun hlt => hages ⟨?_, ?_⟩
        · rw [hkey]
          exact Option.some_ne_none p
        · rwa [LfuCache.nextAverage, hkey]
      obtain ⟨herr, hover⟩ | ⟨s₁, L₁, s', L', heq, hgood, hpromoted, haccessed⟩ :=
        h.getInternal ⟨key, hkey⟩ walk hd
      · exact .inl ⟨by simp only [herr]; rfl, hover⟩
      · exact .inr ⟨s', L', _, by simp only [heq]; rfl, hgood, .hit hkey hpromoted haccessed⟩
  | put key value walk =>
    rw [LfuCache.call, LfuCache.put]
    by_cases hcapacity : s.capacity = 0
    · rw [if_pos hcapacity]
      exact .inr ⟨s, L, none, rfl, hsucc, .ignored hcapacity⟩
    · rw [if_neg hcapacity]
      have hd := hd.imp_right fun hages => Int.not_lt.mp fun hlt => hages ⟨hcapacity, hlt⟩
      obtain hkey | ⟨p, hkey⟩ := Option.eq_none_or_eq_some (s.nodeMap.lookup key)
      · obtain ⟨s₁, L₁, hkick, hgood, hr⟩ := h.room fun hsize => hroom ⟨hcapacity, hkey, hsize⟩
        rw [← hr.nextAverage h.toInv hkey, ← hr.maxAverageNum] at hd
        rw [hkey]
        simp only [LfuCache.putInternal, hkick, Except.bind]
        obtain ⟨herr, hover⟩ | ⟨s₂, L₂, s', L', heq, hgood, hinserted, haccessed⟩ :=
          hgood.putNode value (hr.lookup hkey) walk hd
        · exact .inl ⟨by rw [herr]; rfl, hover⟩
        · exact .inr ⟨_, L', none, by rw [heq]; rfl, hgood,
            .insert hcapacity hkey hr hinserted haccessed⟩
      · rw [hkey]
        rw [LfuCache.nextAverage, hkey] at hd
        obtain ⟨herr, hover⟩ | ⟨s₁, L₁, s', L', heq, hgood, hpromoted, haccessed⟩ :=
          (h.setValue : Good n (s.setValue p value) L).getInternal ⟨key, hkey⟩ walk hd
        · exact .inl ⟨by simp only [herr]; rfl, hover⟩
        · exact .inr ⟨s', L', none, by simp only [heq]; rfl, hgood,
            .overwrite hcapacity hkey hpromoted haccessed⟩

omit [Inhabited Key] [Inhabited Value] in
theorem Called.frame {i : LfuInput Key Value} {v : Option Value} (h : Called s L i s' L' v) :
    s'.capacity = s.capacity ∧ s'.maxAverageNum = s.maxAverageNum := by
  cases h with
  | ignored | miss | purge => exact ⟨rfl, rfl⟩
  | hit _ hpromoted haccessed | overwrite _ _ hpromoted haccessed =>
    exact ⟨haccessed.frame.capacity.trans hpromoted.frame.capacity,
      haccessed.frame.maxAverageNum.trans hpromoted.frame.maxAverageNum⟩
  | insert _ _ hroom hinserted haccessed =>
    refine ⟨haccessed.frame.capacity.trans (hinserted.frame.capacity.trans ?_),
      haccessed.frame.maxAverageNum.trans (hinserted.frame.maxAverageNum.trans ?_)⟩
    · obtain ⟨-, rfl, -⟩ | ⟨-, p, ps, -, rfl, -⟩ := hroom <;> rfl
    · exact hroom.maxAverageNum

/-! ### Runs -/

theorem good_new (capacity maxAverageNum : Int) :
    Good 0 (new capacity maxAverageNum : LfuCache Key Value) fun _ => [] where
  toInv := inv_new capacity maxAverageNum
  sum_le := Int.le_refl _
  total_le := Int.le_refl _
  total_lt := by
    change (0 : Int) < 2 ^ 31
    decide

theorem run_error {e : Fault} {is : List (LfuInput Key Value)} :
    Run.run step (.error e) is = some (.error e) := by
  induction is with
  | nil => rfl
  | cons i is ih => exact Run.run_cons.mpr ⟨_, rfl, ih⟩

/-- What holds of the cache, of the calls so far and of their results, and is kept by `Called`, holds
after every run, if `G` keeps the run from what `Good.call` excludes. -/
theorem Good.run {G : LfuCache Key Value → LfuInput Key Value → Prop}
    {I : List (LfuInput Key Value) → LfuCache Key Value → (Int → List NodePtr) →
      List (Option Value) → Prop}
    (hG : ∀ done s L rs i, Good done.length s L → I done s L rs → G s i →
      (0 ≤ s.maxAverageNum.tdiv 2 ∨ ¬s.Ages i) ∧ (s.Evicts i → L s.minFreq ≠ []))
    (hI : ∀ done s L rs i s' L' v, Good done.length s L → I done s L rs → G s i →
      Good (done.length + 1) s' L' → Called s L i s' L' v → I (done ++ [i]) s' L' (rs ++ [v]))
    {done is : List (LfuInput Key Value)} {rs : List (Option Value)} (h : Good done.length s L)
    (hinit : I done s L rs) (hrun : Run.Along step (Before G) (.ok (s, rs)) is) :
    Run.run step (.ok (s, rs)) is = some (.error .outOfRange) ∧ 2 ^ 31 ≤ (done ++ is).length ∨
    ∃ s' rs' L', Run.run step (.ok (s, rs)) is = some (.ok (s', rs')) ∧
      Good (done ++ is).length s' L' ∧ I (done ++ is) s' L' rs' := by
  induction is generalizing done s L rs with
  | nil => exact .inr ⟨s, rs, L, rfl, by rwa [List.append_nil], by rwa [List.append_nil]⟩
  | cons i is ih =>
    have hbefore : G s i := hrun.1 _ rfl
    obtain ⟨hd, hroom⟩ := hG done s L rs i h hinit hbefore
    obtain ⟨herr, hover⟩ | ⟨s', L', v, hcall, hgood, hcalled⟩ := h.call i hd hroom
    · refine .inl ⟨Run.run_cons.mpr ⟨_, rfl, ?_⟩, ?_⟩
      · rw [Except.bind, herr]
        exact run_error
      · rw [List.length_append, List.length_cons]
        omega
    · have hstep : step (.ok (s, rs)) i = some (.ok (s', rs ++ [v])) := by
        rw [LfuCache.step, Except.bind, hcall]
        rfl
      have hinit' := hI done s L rs i s' L' v h hinit hbefore hgood hcalled
      have hgood : Good (done ++ [i]).length s' L' := by
        rw [List.length_append]
        exact hgood
      rw [List.append_cons]
      refine (ih hgood hinit' (hrun.2 _ hstep)).imp ?_ ?_
      · rintro ⟨herr, hover⟩
        exact ⟨Run.run_cons.mpr ⟨_, hstep, herr⟩, hover⟩
      · rintro ⟨t, rs', L'', hrun', h'⟩
        exact ⟨t, rs', L'', Run.run_cons.mpr ⟨_, hstep, hrun'⟩, h'⟩

theorem run_new {G : LfuCache Key Value → LfuInput Key Value → Prop}
    {I : List (LfuInput Key Value) → LfuCache Key Value → (Int → List NodePtr) →
      List (Option Value) → Prop} {capacity maxAverageNum : Int}
    (hG : ∀ done s L rs i, Good done.length s L → I done s L rs → G s i →
      (0 ≤ s.maxAverageNum.tdiv 2 ∨ ¬s.Ages i) ∧ (s.Evicts i → L s.minFreq ≠ []))
    (hI : ∀ done s L rs i s' L' v, Good done.length s L → I done s L rs → G s i →
      Good (done.length + 1) s' L' → Called s L i s' L' v → I (done ++ [i]) s' L' (rs ++ [v]))
    (hinit : I [] (new capacity maxAverageNum) (fun _ => []) []) {is : List (LfuInput Key Value)}
    (hrun : Run.Along step (Before G) (.ok (new capacity maxAverageNum, [])) is) :
    Run.run step (.ok (new capacity maxAverageNum, [])) is = some (.error .outOfRange) ∧
      2 ^ 31 ≤ is.length ∨
    ∃ s rs L, Run.run step (.ok (new capacity maxAverageNum, [])) is = some (.ok (s, rs)) ∧
      Good is.length s L ∧ I is s L rs :=
  Good.run hG hI (show Good ([] : List (LfuInput Key Value)).length _ _ from
    good_new capacity maxAverageNum) hinit hrun

end

end LfuCache

end MuduoX
