import MuduoX.Cache.MinFreq

/-! # The averages that a cache can age at

Aging takes half of `maxAverageNum_` off every frequency, and `updateMinFreq` finds what is below
`INT8_MAX`. Between 2 and 250 both are enough: there is always a node that has not been used more
often than `maxAverageNum_` says (`SomeLow`). At 1 nothing is taken off, and above 250 too little. -/

namespace MuduoX

namespace LfuCache

variable {Key Value : Type*} [DecidableEq Key] {s s' s₁ : LfuCache Key Value}
  {L L' L₁ : Int → List NodePtr} {p q : NodePtr} {key : Key} {value : Value}

def SomeLow (s : LfuCache Key Value) : Prop :=
  s.size ≠ 0 → ∃ q, s.Cached q ∧ (s.node q).freq ≤ s.maxAverageNum

/-! ### What keeps a node low -/

/-- The least of the frequencies is no more than their average. -/
theorem exists_freq_le {m : Int} (hsize : s.size ≠ 0) (h : s.freqSum / s.size ≤ m) :
    ∃ q, s.Cached q ∧ (s.node q).freq ≤ m := by
  by_contra hall
  push Not at hall
  have hle : ∀ f ∈ s.nodeMap.entries.map fun e => (s.node e.2).freq, m + 1 ≤ f := by
    intro f hf
    obtain ⟨e, he, rfl⟩ := List.mem_map.mp hf
    exact hall e.2 ⟨e.1, lookup_of_mem_entries he⟩
  have hsum := List.card_nsmul_le_sum _ _ hle
  have hlength : (s.nodeMap.entries.map fun e => (s.node e.2).freq).length = s.size := by
    rw [List.length_map]
    exact (List.length_map ..).symm
  rw [hlength, nsmul_eq_mul, mul_comm] at hsum
  have hpos : (0 : Int) < s.size := by omega
  have := Int.le_ediv_of_mul_le hpos hsum
  rw [freqSum] at h
  omega

/-- Behind a hit a node is low: the average says so, or aging by at least 1 undoes the hit. -/
theorem Promoted.someLow (h : Promoted s L p s₁ L₁) (haccessed : Accessed s₁ L₁ s' L')
    (hinv : Inv s L) (hp : s.Cached p) (hsum : s.freqSum ≤ s.curTotalNum)
    (hmax : 2 ≤ s.maxAverageNum) (hlow : s.SomeLow) : s'.SomeLow := by
  have hmax₁ : s₁.maxAverageNum = s.maxAverageNum := h.frame.maxAverageNum
  have hmax' : s'.maxAverageNum = s.maxAverageNum := haccessed.frame.maxAverageNum.trans hmax₁
  have hsize₁ : s₁.size = s.size := h.frame.size
  intro _
  rw [hmax']
  rcases haccessed.outcome with ⟨havg, rfl, rfl⟩ | ⟨-, hnode, -⟩
  · rw [h.curAverageNum, hmax₁] at havg
    have hsum₁ := hinv.freqSum_move hp h.frame.nodeMap h.node
    refine exists_freq_le (s := s₁) (hsize₁ ▸ hp.size_ne_zero) ?_
    rw [hsize₁]
    exact (Int.ediv_le_ediv (by have := hp.size_ne_zero; omega) (by omega)).trans havg
  · obtain ⟨q, hq, hle⟩ := hlow hp.size_ne_zero
    have hq₁ := h.frame.cached.mpr hq
    refine ⟨q, haccessed.frame.cached.mpr hq₁, ?_⟩
    have hfreq := h.freq hinv hq
    have hd : 1 ≤ s.maxAverageNum.tdiv 2 := by
      rw [Int.tdiv_eq_ediv_of_nonneg (by omega)]
      omega
    rw [hnode q hq₁, hmax₁]
    change aged (s.maxAverageNum.tdiv 2) (s₁.node q).freq ≤ s.maxAverageNum
    rw [aged]
    split at hfreq <;> split <;> omega

/-- The new node is low. -/
theorem Inserted.someLow (h : Inserted s L key value s₁ L₁) (haccessed : Accessed s₁ L₁ s' L')
    (hmax : 2 ≤ s.maxAverageNum) : s'.SomeLow := by
  have hmax' : s'.maxAverageNum = s.maxAverageNum :=
    haccessed.frame.maxAverageNum.trans h.frame.maxAverageNum
  have hcached : s₁.Cached s.fresh := by
    refine ⟨key, ?_⟩
    rw [h.frame.nodeMap]
    exact AList.lookup_insert _
  have hfreq : (s₁.node s.fresh).freq = 1 := congrArg LfuNode.freq h.new
  intro _
  refine ⟨s.fresh, haccessed.frame.cached.mpr hcached, ?_⟩
  rcases haccessed.outcome with ⟨-, rfl, -⟩ | ⟨-, hnode, -⟩
  · change (s₁.node s.fresh).freq ≤ s₁.maxAverageNum
    rw [hfreq, h.frame.maxAverageNum]
    change 1 ≤ s.maxAverageNum
    omega
  · have hd : 0 ≤ s₁.maxAverageNum.tdiv 2 := by
      rw [h.frame.maxAverageNum]
      exact Int.tdiv_nonneg (by change 0 ≤ s.maxAverageNum; omega) (by decide)
    have haged := aged_le hd (Int.le_of_eq hfreq.symm)
    rw [hnode _ hcached, hmax']
    exact haged.trans (by omega)

theorem Called.someLow {i : LfuInput Key Value} {v : Option Value} (h : Called s L i s' L' v)
    (hinv : Inv s L) (hsum : s.freqSum ≤ s.curTotalNum) (hmax : 2 ≤ s.maxAverageNum)
    (hlow : s.SomeLow) : s'.SomeLow := by
  cases h with
  | ignored | miss => exact hlow
  | purge => exact fun hsize => absurd rfl hsize
  | hit hkey hpromoted haccessed =>
    exact hpromoted.someLow haccessed hinv ⟨_, hkey⟩ hsum hmax hlow
  | @overwrite key value walk p s₁ _ _ _ _ hkey hpromoted haccessed =>
    have hset : Inv (s.setValue p value) L :=
      hinv.congr_node (fun _ => setValue_key) fun _ => setValue_freq
    have hsum' : (s.setValue p value).freqSum = s.freqSum :=
      freqSum_congr rfl fun _ _ => setValue_freq
    refine hpromoted.someLow haccessed hset ⟨key, hkey⟩ (hsum'.le.trans hsum) hmax fun hsize => ?_
    obtain ⟨q, hq, hle⟩ := hlow hsize
    exact ⟨q, hq, by rwa [setValue_freq]⟩
  | insert _ _ hroom hinserted haccessed =>
    have hlow' := hinserted.someLow haccessed (by rwa [hroom.maxAverageNum])
    exact hlow'

theorem SomeLow.minFreqFound (h : s.SomeLow) (hmax : s.maxAverageNum ≤ 250)
    (hmax' : 2 ≤ s.maxAverageNum) (i : LfuInput Key Value) : MinFreqFound s i := by
  intro p hp _
  have hcached : s.Cached p := by
    cases i with
    | put key value walk | get key walk => exact ⟨key, hp⟩
    | purge => cases hp
  obtain ⟨q, hq, hle⟩ := h hcached.size_ne_zero
  refine ⟨q, hq, ?_⟩
  rw [Int.tdiv_eq_ediv_of_nonneg (by omega), INT8_MAX]
  split <;> omega

/-! ### A key on its own -/

/-- Every one of `n` calls has counted for the one node, and no aging has taken anything off. -/
structure Sole (s : LfuCache Key Value) (m : Int) (key : Key) (n : Nat) : Prop where
  maxAverageNum : s.maxAverageNum = m
  size : s.size = 1
  curTotalNum : s.curTotalNum = n
  lookup : ∃ p, s.nodeMap.lookup key = some p ∧ (∀ q, s.Cached q → q = p) ∧ (s.node p).freq = n

variable {capacity m : Int} {n k : Nat} {walk : Traversal Key} {v : Option Value}

theorem Sole.hit (h : s.Sole m key n) (hinv : Inv s L) (hkeep : m.tdiv 2 = 0 ∨ (n : Int) + 1 ≤ m)
    (hcalled : Called s L (.get key walk) s' L' v) : s'.Sole m key (n + 1) := by
  obtain ⟨p, hp, honly, hfreq⟩ := h.lookup
  cases hcalled with
  | miss hkey => cases hkey.symm.trans hp
  | @hit _ _ _ s₁ _ _ _ hkey hpromoted haccessed =>
    cases hkey.symm.trans hp
    have hmap : s'.nodeMap = s.nodeMap := haccessed.frame.nodeMap.trans hpromoted.frame.nodeMap
    have hmax₁ : s₁.maxAverageNum = m := hpromoted.frame.maxAverageNum.trans h.maxAverageNum
    have htotal : s'.curTotalNum = s₁.curTotalNum + 1 := haccessed.frame.curTotalNum
    have htotal₁ : s₁.curTotalNum = s.curTotalNum := hpromoted.frame.curTotalNum
    have hp₁ : s₁.Cached p := hpromoted.frame.cached.mpr ⟨key, hp⟩
    have hfreq₁ := hpromoted.freq hinv ⟨key, hp⟩
    rw [if_pos rfl, hfreq] at hfreq₁
    have hfreq' : (s'.node p).freq = (s₁.node p).freq := by
      rcases haccessed.outcome with ⟨-, rfl, -⟩ | ⟨hlt, hnode, -⟩
      · rfl
      · rw [hpromoted.curAverageNum, h.curTotalNum, h.size, hmax₁] at hlt
        have hzero := hkeep.resolve_right (by omega)
        rw [hnode p hp₁, hmax₁]
        change aged (m.tdiv 2) _ = _
        rw [aged]
        split <;> omega
    refine ⟨haccessed.frame.maxAverageNum.trans hmax₁, ?_, ?_, p, ?_, fun q hq => ?_, ?_⟩
    · rw [LfuCache.size, hmap]
      exact h.size
    · rw [htotal, htotal₁, h.curTotalNum, Nat.cast_succ]
    · rw [hmap, hp]
    · rw [Cached, hmap] at hq
      exact honly q hq
    · rw [hfreq', hfreq₁, Nat.cast_succ]

/-- The first hit for which the average is too high, when aging leaves the node at `INT8_MAX`. -/
theorem Sole.not_found (h : s.Sole m key n) (hn : m ≤ n)
    (hlost : INT8_MAX ≤ (n : Int) + 1 - m.tdiv 2) : ¬MinFreqFound s (.get key walk) := by
  obtain ⟨p, hp, honly, hfreq⟩ := h.lookup
  have hages : s.Ages (.get key walk) := by
    refine ⟨?_, ?_⟩
    · rw [hp]
      exact Option.some_ne_none p
    · rw [nextAverage, hp]
      simp only [h.maxAverageNum, h.curTotalNum, h.size]
      omega
  intro hfound
  obtain ⟨q, hq, hlt⟩ := hfound p hp hages
  cases honly q hq
  rw [if_pos rfl, hfreq, h.maxAverageNum] at hlt
  omega

variable [Inhabited Key] [Inhabited Value]

theorem Called.sole (hcapacity : 1 ≤ capacity) (hm : 1 ≤ m)
    (h : Called (new capacity m) (fun _ => []) (.put key value walk) s' L' v) :
    s'.Sole m key 1 := by
  cases h with
  | ignored hzero =>
    change capacity = 0 at hzero
    omega
  | overwrite _ hkey => cases hkey
  | @insert _ _ _ _ _ s₂ _ _ _ _ hkey hroom hinserted haccessed =>
    rcases hroom with ⟨-, rfl, -⟩ | ⟨hsize, -⟩
    · have hmap : s₂.nodeMap = _ := hinserted.frame.nodeMap
      have hmax : s₂.maxAverageNum = m := hinserted.frame.maxAverageNum
      have htotal : s₂.curTotalNum = 0 := hinserted.frame.curTotalNum
      rcases haccessed.outcome with ⟨-, rfl, -⟩ | ⟨hlt, -⟩
      · refine ⟨hmax, (Frame.size hinserted.frame).trans (size_insertNode hkey), ?_, _,
          (congrArg (AList.lookup key) hmap).trans (AList.lookup_insert _), fun q hq => ?_,
          congrArg LfuNode.freq hinserted.new⟩
        · change s₂.curTotalNum + 1 = _
          rw [htotal]
          rfl
        · obtain ⟨key', hq⟩ := hq
          have hq := (congrArg (AList.lookup key') hmap).symm.trans hq
          rcases lookup_insertNode.mp hq with ⟨-, rfl⟩ | ⟨-, hnone⟩
          · rfl
          · cases hnone
      · rw [hinserted.curAverageNum hkey, hmax] at hlt
        change m < (0 + 1) / (0 + 1) at hlt
        omega
    · change (0 : Int) = capacity at hsize
      omega

theorem Sole.call (h : s.Sole m key n) (hgood : Good n s L) (hm : 1 ≤ m) (walk : Traversal Key)
    (hn : n + 1 < 2 ^ 31) : ∃ s' L' v, s.call (.get key walk) = .ok (s', v) ∧
      Good (n + 1) s' L' ∧ Called s L (.get key walk) s' L' v := by
  have hd : 0 ≤ s.maxAverageNum.tdiv 2 := by
    rw [h.maxAverageNum]
    exact Int.tdiv_nonneg (by omega) (by decide)
  refine (hgood.call (.get key walk) (.inl hd) (fun hevicts => hevicts.elim)).resolve_left ?_
  intro hover
  omega

theorem Sole.run (rs : List (Option Value)) (h : s.Sole m key n) (hgood : Good n s L) (hm : 1 ≤ m)
    (walk : Traversal Key) (hkeep : m.tdiv 2 = 0 ∨ ((n + k : Nat) : Int) ≤ m)
    (hn : n + k < 2 ^ 31) :
    ∃ s' rs' L', Run.run step (.ok (s, rs)) (List.replicate k (.get key walk)) =
      some (.ok (s', rs')) ∧ s'.Sole m key (n + k) ∧ Good (n + k) s' L' := by
  induction k generalizing n s L rs with
  | zero => exact ⟨s, rs, L, rfl, h, hgood⟩
  | succ k ih =>
    obtain ⟨s₁, L₁, v, hcall, hgood₁, hcalled⟩ := h.call hgood hm walk (by omega)
    have hsole₁ := h.hit hgood.toInv (hkeep.imp_right fun hle => by omega) hcalled
    rw [← Nat.add_assoc, Nat.add_right_comm] at hkeep
    obtain ⟨s', rs', L', hrun, h'⟩ := ih (rs ++ [v]) hsole₁ hgood₁ hkeep (by omega)
    rw [Nat.add_right_comm] at h'
    refine ⟨s', rs', L', Run.run_cons.mpr ⟨_, rfl, ?_⟩, h'⟩
    rw [Except.bind, hcall]
    exact hrun

variable (Value) in
/-- So many hits of one key that the first aging, or any at all, leaves the node too high. -/
theorem exists_not_wellFormed (key : Key) (hcapacity : 1 ≤ capacity) (hm : 1 ≤ m)
    (hkeep : m.tdiv 2 = 0 ∨ (n + 1 : Int) ≤ m) (hn : m ≤ n + 1)
    (hlost : INT8_MAX ≤ (n : Int) + 2 - m.tdiv 2) (hlt : n + 2 < 2 ^ 31) :
    ∃ (is : List (LfuInput Key Value)) (s : LfuCache Key Value) (rs : List (Option Value)),
      is.length = n + 2 ∧ Run.run step (.ok (new capacity m, [])) is = some (.ok (s, rs)) ∧
      ¬s.WellFormed := by
  let walk : Traversal Key := ⟨id, fun _ => .refl _⟩
  have hd : 0 ≤ (new capacity m : LfuCache Key Value).maxAverageNum.tdiv 2 :=
    Int.tdiv_nonneg (show 0 ≤ m by omega) (by decide)
  have hnot : ¬(new capacity m : LfuCache Key Value).Evicts (.put key default walk) := by
    rintro ⟨-, -, hsize⟩
    change (0 : Int) = capacity at hsize
    omega
  obtain ⟨s₀, L₀, v₀, hput, hgood, hcalled⟩ :=
    ((good_new capacity m).call (.put key (default : Value) walk) (.inl hd)
      fun hevicts => absurd hevicts hnot).resolve_left fun hover => absurd hover.2 (by decide)
  have hsole := hcalled.sole hcapacity hm
  obtain ⟨s₁, rs₁, L₁, hrun, hsole₁, hgood₁⟩ := hsole.run [v₀] (k := n) hgood hm walk
    (hkeep.imp_right fun hle => by omega) (by omega)
  obtain ⟨s₂, L₂, v₂, hcall, -, hcalled₂⟩ := hsole₁.call hgood₁ hm walk (by omega)
  have hlost' := hcalled₂.lost hgood₁.toInv (hsole₁.not_found (by omega) (by omega))
  refine ⟨.put key default walk :: List.replicate (n + 1) (.get key walk), s₂, rs₁ ++ [v₂], ?_, ?_,
    hlost'⟩
  · rw [List.length_cons, List.length_replicate]
  · refine Run.run_cons.mpr ⟨_, rfl, ?_⟩
    rw [Except.bind, hput, List.replicate_succ']
    refine Run.run_append.mpr ⟨_, hrun, Run.run_cons.mpr ⟨_, rfl, ?_⟩⟩
    rw [Except.bind, hcall]
    rfl

/-! ### Runs -/

theorem low_of_run (hcapacity : 1 ≤ capacity) (hmax : 2 ≤ m) (hmax' : m ≤ 250)
    (is : List (LfuInput Key Value)) :
    Run.run step (.ok (new capacity m, [])) is = some (.error .outOfRange) ∧
      2 ^ 31 ≤ is.length ∨
    ∃ (s : LfuCache Key Value) (rs : List (Option Value)),
      Run.run step (.ok (new capacity m, [])) is = some (.ok (s, rs)) ∧ s.capacity = capacity ∧
        s.WellFormed := by
  have hd : 0 ≤ m.tdiv 2 := Int.tdiv_nonneg (by omega) (by decide)
  let I : List (LfuInput Key Value) → LfuCache Key Value → (Int → List NodePtr) →
      List (Option Value) → Prop := fun _ s L _ =>
    s.capacity = capacity ∧ s.maxAverageNum = m ∧ (s.size : Int) ≤ s.capacity ∧
      Least s.minFreq L ∧ s.SomeLow
  have hinit : I [] (new capacity m) (fun _ => []) [] := by
    refine ⟨rfl, rfl, ?_, fun f hf => absurd rfl hf, fun hsize => absurd rfl hsize⟩
    change (0 : Int) ≤ capacity
    omega
  have hall : Run.Along step (Before fun _ _ => True)
      (.ok ((new capacity m : LfuCache Key Value), [])) is :=
    Run.Along.of_invariant (I := fun _ => True) (G := fun _ _ => True) (fun _ _ _ _ _ _ => trivial)
      (fun _ _ _ _ _ _ => trivial) trivial (Run.along_of_forall fun _ _ => trivial)
  refine (run_new (I := I) (fun done s L rs i h hI _ => ?_)
    (fun done s L rs i s' L' v h hI _ h' hcalled => ?_) hinit hall).imp id ?_
  · obtain ⟨hcap, hmaxn, -, hleast, -⟩ := hI
    refine ⟨.inl (hmaxn ▸ hd), fun hevicts => ?_⟩
    cases i with
    | put key value walk =>
      obtain ⟨-, -, hsize⟩ := hevicts
      obtain ⟨f, hf⟩ := h.exists_ne_nil (by omega : s.size ≠ 0)
      exact (hleast f hf).1
    | get | purge => cases hevicts
  · obtain ⟨hcap, hmaxn, hsize, hleast, hlow⟩ := hI
    have hfound := hlow.minFreqFound (by omega) (by omega) i
    exact ⟨hcalled.frame.1.trans hcap, hcalled.frame.2.trans hmaxn, hcalled.size_le h.toInv hsize,
      hcalled.least h.toInv (.inl (hmaxn ▸ hd)) hleast hfound,
      hcalled.someLow h.toInv h.sum_le (by omega) hlow⟩
  · rintro ⟨s, rs, L, hrun, h, hcap, -, hsize, hleast, -⟩
    exact ⟨s, rs, hrun, hcap, h.toInv.wellFormed hsize hleast⟩

/-- **The averages at which the cache keeps its invariant.** It does so in every run, as long as no
`int` has had the calls to overflow, exactly for `maxAverageNum_` from 2 to 250. -/
theorem wellFormed_iff (hcapacity : 1 ≤ capacity) (hmax : 1 ≤ m) (hlt : m < 2 ^ 31 - 1) :
    (∀ is : List (LfuInput Key Value), is.length < 2 ^ 31 →
      ∃ (s : LfuCache Key Value) (rs : List (Option Value)),
        Run.run step (.ok (new capacity m, [])) is = some (.ok (s, rs)) ∧ s.WellFormed) ↔
      2 ≤ m ∧ m ≤ 250 := by
  constructor
  · intro hall
    by_contra hrange
    -- at 1 the 127th call of one key loses it, above 250 the first call that ages
    obtain ⟨n, hkeep, hn, hlost, hn'⟩ : ∃ n : Nat, (m.tdiv 2 = 0 ∨ (n + 1 : Int) ≤ m) ∧
        m ≤ n + 1 ∧ INT8_MAX ≤ (n : Int) + 2 - m.tdiv 2 ∧ n + 2 < 2 ^ 31 := by
      rw [Int.tdiv_eq_ediv_of_nonneg (by omega), INT8_MAX]
      obtain rfl | hgt : m = 1 ∨ 250 < m := by omega
      · exact ⟨125, .inl (by decide), by decide, by decide, by decide⟩
      · refine ⟨(m - 1).toNat, .inr ?_, ?_, ?_, ?_⟩ <;> omega
    obtain ⟨is, s, rs, hlen, hrun, hnot⟩ :=
      exists_not_wellFormed Value (default : Key) hcapacity hmax hkeep hn hlost hn'
    obtain ⟨s', rs', hrun', hw⟩ := hall is (by omega)
    cases hrun.symm.trans hrun'
    exact hnot hw
  · rintro ⟨hlow, hhigh⟩ is hlen
    obtain ⟨s, rs, hrun, -, hw⟩ :=
      (low_of_run hcapacity hlow hhigh is).resolve_left fun hover => by omega
    exact ⟨s, rs, hrun, hw⟩

/-- The default of the constructor is in the range. -/
theorem wellFormed_iff_default :
    (∀ is : List (LfuInput Nat Nat), is.length < 2 ^ 31 →
      ∃ (s : LfuCache Nat Nat) (rs : List (Option Nat)),
        Run.run step (.ok (new 5 10, [])) is = some (.ok (s, rs)) ∧ s.WellFormed) ↔
      (2 : Int) ≤ 10 ∧ (10 : Int) ≤ 250 :=
  wellFormed_iff (by decide) (by decide) (by decide)

end LfuCache

end MuduoX
