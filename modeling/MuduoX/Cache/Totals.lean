import MuduoX.Cache.MinFreq

/-! # The totals

`curTotalNum_` follows the frequencies through hits, insertions and evictions. Aging and `purge()`
change the frequencies and leave the totals as they were. -/

namespace MuduoX

namespace LfuCache

section
variable {Key Value : Type*} [DecidableEq Key] {s s' s₁ : LfuCache Key Value}
  {L L' L₁ : Int → List NodePtr} {p q : NodePtr} {key : Key} {value : Value}

/-- The average of no nodes is 0, as `freqSum / 0` is. -/
structure CountersTrue (s : LfuCache Key Value) : Prop where
  total : s.curTotalNum = s.freqSum
  average : s.curAverageNum = s.freqSum / s.size

/-- The call purges an empty cache only, ages by 0 only, and evicts a real node only. -/
structure TotalsKept (s : LfuCache Key Value) (i : LfuInput Key Value) : Prop where
  purge : i = .purge → s.size = 0
  age : s.Ages i → s.maxAverageNum.tdiv 2 = 0
  evict : s.Evicts i → s.nodes s.minFreq ≠ []

omit [DecidableEq Key] in
theorem freqSum_of_size (h : s.size = 0) : s.freqSum = 0 := by
  have hentries : s.nodeMap.entries = [] :=
    List.map_eq_nil_iff.mp (List.length_eq_zero_iff.mp h : s.nodeMap.keys = [])
  rw [freqSum, hentries]
  rfl

theorem aged_zero {f : Int} (hf : 1 ≤ f) : aged 0 f = f := by
  rw [aged]
  split <;> omega

theorem Accessed.countersTrue (h : Accessed s L s' L') (hinv : Inv s L)
    (hsum : s.freqSum = s.curTotalNum + 1)
    (hd : s.maxAverageNum < s.counted.curAverageNum → s.maxAverageNum.tdiv 2 = 0) :
    s'.CountersTrue := by
  have htotal : s'.curTotalNum = s.curTotalNum + 1 := h.frame.curTotalNum
  have haverage : s'.curAverageNum = (s.curTotalNum + 1) / s.size := h.frame.curAverageNum
  have hfreqSum : s'.freqSum = s.freqSum := by
    refine freqSum_congr h.frame.nodeMap fun p hp => ?_
    obtain ⟨-, rfl, -⟩ | ⟨hages, hnode, -⟩ := h.outcome
    · rfl
    · rw [hnode p hp, hd hages]
      exact aged_zero (hinv.freq_pos hp)
  have hsize : s'.size = s.size := h.frame.size
  exact ⟨by rw [htotal, hfreqSum, hsum], by rw [haverage, hfreqSum, hsum, hsize]⟩

theorem Promoted.countersTrue (h : Promoted s L p s₁ L₁) (haccessed : Accessed s₁ L₁ s' L')
    (hinv : Inv s L) (hp : s.Cached p) (htotal : s.curTotalNum = s.freqSum)
    (hd : s.maxAverageNum < (s.curTotalNum + 1) / s.size → s.maxAverageNum.tdiv 2 = 0) :
    s'.CountersTrue := by
  have hmax : s₁.maxAverageNum = s.maxAverageNum := h.frame.maxAverageNum
  have htotal₁ : s₁.curTotalNum = s.curTotalNum := h.frame.curTotalNum
  have hsum := hinv.freqSum_move hp h.frame.nodeMap h.node
  refine haccessed.countersTrue h.inv (by omega) fun hages => ?_
  rw [h.curAverageNum, hmax] at hages
  rw [hmax]
  exact hd hages

theorem Inserted.countersTrue (h : Inserted s L key value s₁ L₁)
    (haccessed : Accessed s₁ L₁ s' L') (hinv : Inv s L) (hkey : s.nodeMap.lookup key = none)
    (htotal : s.curTotalNum = s.freqSum)
    (hd : s.maxAverageNum < (s.curTotalNum + 1) / (s.size + 1) → s.maxAverageNum.tdiv 2 = 0) :
    s'.CountersTrue := by
  have hmax : s₁.maxAverageNum = s.maxAverageNum := h.frame.maxAverageNum
  have htotal₁ : s₁.curTotalNum = s.curTotalNum := h.frame.curTotalNum
  have hsum := freqSum_insert hkey h.frame.nodeMap (congrArg LfuNode.freq h.new)
    fun q hq => h.node q (hinv.lt_fresh_of_cached hq)
  refine haccessed.countersTrue h.inv (by omega) fun hages => ?_
  rw [h.curAverageNum hkey, hmax] at hages
  rw [hmax]
  exact hd hages

theorem Room.total (h : Room s L s₁ L₁) (hinv : Inv s L) (htotal : s.curTotalNum = s.freqSum) :
    s₁.curTotalNum = s₁.freqSum := by
  obtain ⟨-, rfl, -⟩ | ⟨-, p, ps, hps, rfl, -⟩ := h
  · exact htotal
  · have hp := (hinv.mem_iff.mp (hps ▸ List.mem_cons_self : p ∈ L s.minFreq)).1
    rw [hinv.freqSum_evicted hp, ← htotal]
    rfl

theorem Called.countersTrue {i : LfuInput Key Value} {v : Option Value}
    (h : Called s L i s' L' v) (hinv : Inv s L) (hs : s.CountersTrue) (hkept : s.TotalsKept i) :
    s'.CountersTrue := by
  cases h with
  | ignored | miss => exact hs
  | purge =>
    have hsize := hkept.purge rfl
    have hsum := freqSum_of_size hsize
    refine ⟨hs.total.trans hsum, hs.average.trans ?_⟩
    rw [hsum, Int.zero_ediv]
    exact (Int.zero_ediv (s.purge.size : Int)).symm
  | hit hkey hpromoted haccessed =>
    refine hpromoted.countersTrue haccessed hinv ⟨_, hkey⟩ hs.total fun hages =>
      hkept.age ⟨?_, ?_⟩
    · rw [hkey]
      exact Option.some_ne_none _
    · rwa [nextAverage, hkey]
  | @overwrite key value walk p _ _ _ _ hcapacity hkey hpromoted haccessed =>
    have hset : Inv (s.setValue p value) L :=
      hinv.congr_node (fun _ => setValue_key) fun _ => setValue_freq
    have hsum : (s.setValue p value).freqSum = s.freqSum :=
      freqSum_congr rfl fun _ _ => setValue_freq
    refine hpromoted.countersTrue haccessed hset ⟨key, hkey⟩ (hs.total.trans hsum.symm)
      fun hages => hkept.age ⟨hcapacity, ?_⟩
    rwa [nextAverage, hkey]
  | insert hcapacity hkey hroom hinserted haccessed =>
    have hinserted' := hinserted.countersTrue haccessed (hroom.inv hinv) (hroom.lookup hkey)
      (hroom.total hinv hs.total) fun hages => by
        rw [hroom.maxAverageNum, hroom.nextAverage hinv hkey] at hages
        rw [hroom.maxAverageNum]
        exact hkept.age ⟨hcapacity, hages⟩
    exact ⟨hinserted'.total, hinserted'.average⟩

variable [Inhabited Key] [Inhabited Value]

/-- The counters are true after every run whose calls keep the totals. It takes 2 ^ 31 calls for an
`int` to overflow. -/
theorem countersTrue_of_run {capacity maxAverageNum : Int} {is : List (LfuInput Key Value)}
    (hG : Run.Along step (Before TotalsKept) (.ok (new capacity maxAverageNum, [])) is) :
    Run.run step (.ok (new capacity maxAverageNum, [])) is = some (.error .outOfRange) ∧
      2 ^ 31 ≤ is.length ∨
    ∃ (s : LfuCache Key Value) (rs : List (Option Value)),
      Run.run step (.ok (new capacity maxAverageNum, [])) is = some (.ok (s, rs)) ∧
      s.CountersTrue := by
  let I : List (LfuInput Key Value) → LfuCache Key Value → (Int → List NodePtr) →
      List (Option Value) → Prop := fun _ s _ _ => s.CountersTrue
  have hinit : I [] (new capacity maxAverageNum) (fun _ => []) [] :=
    ⟨rfl, (Int.zero_ediv _).symm⟩
  refine (run_new (I := I) (fun done s L rs i h hI hkept => ⟨?_, fun hevicts => ?_⟩)
    (fun done s L rs i s' L' v h hI hkept _ hcalled => hcalled.countersTrue h.toInv hI hkept)
    hinit hG).imp id ?_
  · by_cases hages : s.Ages i
    · exact .inl (Int.le_of_eq (hkept.age hages).symm)
    · exact .inr hages
  · exact h.nodes _ ▸ hkept.evict hevicts
  · rintro ⟨s, rs, L, hrun, -, htrue⟩
    exact ⟨s, rs, hrun, htrue⟩

/-- An insertion, a hit that ages by 0, and the eviction of the node. -/
theorem countersTrue_evicted : ∃ (s : LfuCache Nat Nat) (rs : List (Option Nat)),
    Run.run step (.ok (new 1 1, [])) [.put 5 0 ⟨id, fun _ => .refl _⟩,
      .get 5 ⟨id, fun _ => .refl _⟩, .put 6 0 ⟨id, fun _ => .refl _⟩] = some (.ok (s, rs)) ∧
    s.CountersTrue := by
  refine (countersTrue_of_run ?_).resolve_left fun h => absurd h.2 (by decide)
  refine ⟨?_, ?_⟩
  · rintro _ ⟨⟩
    exact ⟨nofun, fun _ => rfl, fun h => absurd h.2.2 (by decide)⟩
  · rintro _ ⟨⟩
    refine ⟨?_, ?_⟩
    · rintro _ ⟨⟩
      exact ⟨nofun, fun _ => rfl, fun h => h.elim⟩
    · rintro _ ⟨⟩
      refine ⟨?_, fun _ _ => trivial⟩
      rintro _ ⟨⟩
      exact ⟨nofun, fun _ => rfl, fun _ => by decide +kernel⟩

/-- `purge()` forgets the nodes and keeps the total; aging by 1 keeps the total too. -/
theorem not_countersTrue :
    (∃ (s : LfuCache Nat Nat) (rs : List (Option Nat)),
      Run.run step (.ok (new 2 10, [])) [.put 5 0 ⟨id, fun _ => .refl _⟩, .purge] =
        some (.ok (s, rs)) ∧ ¬s.CountersTrue) ∧
    ∃ (s : LfuCache Nat Nat) (rs : List (Option Nat)),
      Run.run step (.ok (new 1 2, [])) [.put 5 0 ⟨id, fun _ => .refl _⟩,
        .get 5 ⟨id, fun _ => .refl _⟩, .get 5 ⟨id, fun _ => .refl _⟩] =
        some (.ok (s, rs)) ∧ ¬s.CountersTrue := by
  refine ⟨⟨_, _, rfl, fun h => absurd h.total ?_⟩, ⟨_, _, rfl, fun h => absurd h.total ?_⟩⟩ <;>
    decide +kernel

end

end LfuCache

end MuduoX
