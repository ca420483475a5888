import MuduoX.Cache.Calls

/-! # The least frequency

In a cache that is `WellFormed`, `kickOut` takes a real node. What every call keeps up is `Least`, and
the one call that can lose it is a hit that ages the nodes: `updateMinFreq` looks below `INT8_MAX`
only, so a node has to come out of the aging below it. -/

namespace MuduoX

namespace LfuCache

section
variable {Key Value : Type*} [DecidableEq Key] {s s' s₁ : LfuCache Key Value}
  {L L' L₁ : Int → List NodePtr} {p q : NodePtr} {key : Key} {value : Value}

structure WellFormed (s : LfuCache Key Value) : Prop where
  size_le : (s.size : Int) ≤ s.capacity
  mem_nodes : ∀ {p f}, s.Cached p → (p ∈ s.nodes f ↔ (s.node p).freq = f)
  nodup : ∀ f, (s.nodes f).Nodup
  cached : ∀ {p f}, p ∈ s.nodes f → s.Cached p
  minFreq : s.size ≠ 0 → s.nodes s.minFreq ≠ [] ∧ ∀ f, s.nodes f ≠ [] → s.minFreq ≤ f

/-- The node that a call finds. -/
def hit (s : LfuCache Key Value) : LfuInput Key Value → Option NodePtr
  | .put key _ _ | .get key _ => s.nodeMap.lookup key
  | .purge => none

/-- If the call ages the nodes, then one of them comes out of it below `INT8_MAX`, the node of the
call being counted with the call. -/
def MinFreqFound (s : LfuCache Key Value) (i : LfuInput Key Value) : Prop :=
  ∀ p, s.hit i = some p → s.Ages i → ∃ q, s.Cached q ∧
    (s.node q).freq + (if q = p then 1 else 0) - s.maxAverageNum.tdiv 2 < INT8_MAX

/-! ### The size -/

theorem exists_cached (h : s.size ≠ 0) : ∃ p, s.Cached p := by
  obtain ⟨key, hkey⟩ := List.exists_mem_of_length_pos (Nat.pos_of_ne_zero h)
  obtain ⟨p, hp⟩ := Option.isSome_iff_exists.mp (AList.lookup_isSome.mpr (AList.mem_keys.mpr hkey))
  exact ⟨p, key, hp⟩

theorem Cached.size_ne_zero (h : s.Cached p) : s.size ≠ 0 := by
  obtain ⟨key, hkey⟩ := h
  have hmem : key ∈ s.nodeMap.keys :=
    AList.mem_keys.mp (AList.lookup_isSome.mp (Option.isSome_of_mem hkey))
  exact Nat.ne_of_gt (List.length_pos_of_mem hmem)

theorem Inv.exists_ne_nil (h : Inv s L) (hsize : s.size ≠ 0) : ∃ f, L f ≠ [] := by
  obtain ⟨p, hp⟩ := exists_cached hsize
  exact ⟨_, List.ne_nil_of_mem (h.mem hp)⟩

theorem Frame.cached (h : Frame s s') : s'.Cached q ↔ s.Cached q := by
  rw [Cached, h.nodeMap, Cached]

omit [DecidableEq Key] in
theorem Frame.size (h : Frame s s') : s'.size = s.size := by
  rw [LfuCache.size, h.nodeMap, LfuCache.size]

theorem Called.size_le {i : LfuInput Key Value} {v : Option Value} (h : Called s L i s' L' v)
    (hinv : Inv s L) (hsize : (s.size : Int) ≤ s.capacity) : (s'.size : Int) ≤ s'.capacity := by
  rw [h.frame.1]
  cases h with
  | ignored | miss => exact hsize
  | purge => exact Int.le_trans (Int.natCast_nonneg _) hsize
  | hit _ hpromoted haccessed | overwrite _ _ hpromoted haccessed =>
    rw [haccessed.frame.size]
    exact Int.le_trans (Int.ofNat_le.mpr (Nat.le_of_eq hpromoted.frame.size)) hsize
  | @insert key value _ s₁ _ s₂ _ s₃ _ hcapacity hkey hroom hinserted haccessed =>
    have hsucc : s₃.size = s₁.size + 1 := by
      have hinsert : s₂.size = (s₁.insertNode key value).size := hinserted.frame.size
      exact haccessed.frame.size.trans (hinsert.trans (size_insertNode (hroom.lookup hkey)))
    change (s₃.size : Int) ≤ s.capacity
    obtain ⟨hne, rfl, -⟩ | ⟨heq, p, ps, hps, rfl, -⟩ := hroom
    · omega
    · have hp := (hinv.mem_iff.mp (hps ▸ List.mem_cons_self : p ∈ L s.minFreq)).1
      have := size_evicted (hinv.lookup_key hp)
      omega

/-! ### Each call keeps the least frequency -/

/-- A node that is below `INT8_MAX` when it is aged is found by `updateMinFreq`. -/
theorem Accessed.least (h : Accessed s L s' L') (hleast : Least s.minFreq L)
    (hfound : s.maxAverageNum < s.counted.curAverageNum →
      ∃ q, s.Cached q ∧ (s.node q).freq - s.maxAverageNum.tdiv 2 < INT8_MAX) :
    Least s'.minFreq L' := by
  obtain ⟨-, rfl, rfl⟩ | ⟨hages, hnode, hupdate, -⟩ := h.outcome
  · exact hleast
  · obtain ⟨q, hq, hlt⟩ := hfound hages
    refine hupdate ⟨(s'.node q).freq, ?_, List.ne_nil_of_mem (h.inv.mem (h.frame.cached.mpr hq))⟩
    rw [hnode q hq]
    change aged _ _ < _
    rw [aged]
    split
    · decide
    · exact hlt

theorem Promoted.freq (h : Promoted s L p s₁ L₁) (hinv : Inv s L) (hq : s.Cached q) :
    (s₁.node q).freq = (s.node q).freq + if q = p then 1 else 0 := by
  rw [h.node q (hinv.lt_fresh_of_cached hq)]
  obtain rfl | hne := eq_or_ne q p
  · rw [Function.update_self, if_pos rfl]
  · rw [Function.update_of_ne hne, if_neg hne, Int.add_zero]

theorem Promoted.curAverageNum (h : Promoted s L p s₁ L₁) :
    s₁.counted.curAverageNum = (s.curTotalNum + 1) / s.size := by
  rw [LfuCache.counted, LfuCache.size]
  simp only [h.frame.curTotalNum, h.frame.nodeMap]
  rfl

theorem Inserted.curAverageNum (h : Inserted s L key value s₁ L₁)
    (hkey : s.nodeMap.lookup key = none) :
    s₁.counted.curAverageNum = (s.curTotalNum + 1) / (s.size + 1) := by
  have hsize : s₁.size = s.size + 1 := (Frame.size h.frame).trans (size_insertNode hkey)
  rw [LfuCache.counted]
  simp only [h.frame.curTotalNum, hsize, Nat.cast_succ]
  rfl

theorem Promoted.least_accessed (h : Promoted s L p s₁ L₁) (haccessed : Accessed s₁ L₁ s' L')
    (hinv : Inv s L) (hleast : Least s.minFreq L)
    (hfound : s.maxAverageNum < (s.curTotalNum + 1) / s.size → ∃ q, s.Cached q ∧
      (s.node q).freq + (if q = p then 1 else 0) - s.maxAverageNum.tdiv 2 < INT8_MAX) :
    Least s'.minFreq L' := by
  have hmax : s₁.maxAverageNum = s.maxAverageNum := h.frame.maxAverageNum
  refine haccessed.least (h.least hleast) fun hages => ?_
  rw [h.curAverageNum, hmax] at hages
  obtain ⟨q, hq, hlt⟩ := hfound hages
  refine ⟨q, h.frame.cached.mpr hq, ?_⟩
  rwa [h.freq hinv hq, hmax]

/-- The new node has the least frequency that there can be. -/
theorem Inserted.least (h : Inserted s L key value s₁ L₁) (haccessed : Accessed s₁ L₁ s' L')
    (hd : 0 ≤ s.maxAverageNum.tdiv 2 ∨ s₁.counted.curAverageNum ≤ s.maxAverageNum) :
    Least (min s'.minFreq 1) L' := by
  have hlookup : s₁.nodeMap.lookup key = some s.fresh := by
    rw [h.frame.nodeMap]
    exact AList.lookup_insert _
  have hcached : s₁.Cached s.fresh := ⟨key, hlookup⟩
  have hfreq : (s'.node s.fresh).freq = 1 := by
    obtain ⟨-, rfl, -⟩ | ⟨hages, hnode, -⟩ := haccessed.outcome
    · exact congrArg LfuNode.freq h.new
    · rw [h.frame.maxAverageNum] at hages
      have hd := hd.resolve_right (Int.not_le.mpr hages)
      rw [hnode _ hcached, h.new, h.frame.maxAverageNum]
      change aged (s.maxAverageNum.tdiv 2) 1 = 1
      rw [aged]
      split <;> omega
  have hmem := haccessed.inv.mem (haccessed.frame.cached.mpr hcached)
  rw [hfreq] at hmem
  rw [min_eq_right haccessed.inv.minFreq_pos]
  exact fun f hf => ⟨List.ne_nil_of_mem hmem, haccessed.inv.pos_of_ne_nil hf⟩

theorem Called.least {i : LfuInput Key Value} {v : Option Value} (h : Called s L i s' L' v)
    (hinv : Inv s L) (hd : 0 ≤ s.maxAverageNum.tdiv 2 ∨ ¬s.Ages i)
    (hleast : Least s.minFreq L) (hfound : MinFreqFound s i) : Least s'.minFreq L' := by
  cases h with
  | ignored | miss => exact hleast
  | purge => exact fun f hf => absurd rfl hf
  | @hit key walk p s₁ _ _ _ hkey hpromoted haccessed =>
    refine hpromoted.least_accessed haccessed hinv hleast fun hages => hfound p hkey ⟨?_, ?_⟩
    · rw [hkey]
      exact Option.some_ne_none p
    · rwa [nextAverage, hkey]
  | @overwrite key value walk p s₁ _ _ _ hcapacity hkey hpromoted haccessed =>
    have hset : Inv (s.setValue p value) L :=
      hinv.congr_node (fun _ => setValue_key) fun _ => setValue_freq
    refine hpromoted.least_accessed haccessed hset hleast fun hages => ?_
    obtain ⟨q, hq, hlt⟩ := hfound p hkey ⟨hcapacity, by rwa [nextAverage, hkey]⟩
    exact ⟨q, hq, by rwa [setValue_freq]⟩
  | insert hcapacity hkey hroom hinserted haccessed =>
    refine hinserted.least haccessed ?_
    rw [hinserted.curAverageNum (hroom.lookup hkey), hroom.nextAverage hinv hkey,
      hroom.maxAverageNum]
    exact hd.imp_right fun hages => Int.not_lt.mp fun hlt => hages ⟨hcapacity, hlt⟩

/-! ### The call that loses it -/

theorem Accessed.lost (h : Accessed s L s' L') (hp : s.Cached p)
    (hages : s.maxAverageNum < s.counted.curAverageNum)
    (hlost : ∀ q, s.Cached q → INT8_MAX ≤ (s.node q).freq - s.maxAverageNum.tdiv 2) :
    ¬s'.WellFormed := by
  obtain ⟨hle, -⟩ | ⟨-, hnode, -, hone⟩ := h.outcome
  · omega
  · have hbelow (f : Int) (hf : f < INT8_MAX) : L' f = [] := by
      rw [List.eq_nil_iff_forall_not_mem]
      intro q hq
      obtain ⟨hcached, rfl⟩ := h.inv.mem_iff.mp hq
      have hq := h.frame.cached.mp hcached
      rw [hnode q hq] at hf
      have := hlost q hq
      change aged _ _ < _ at hf
      rw [aged] at hf
      rw [INT8_MAX] at *
      split at hf <;> omega
    have hp' : s'.Cached p := h.frame.cached.mpr hp
    have hminFreq := hone ⟨_, List.ne_nil_of_mem (h.inv.mem hp')⟩ hbelow
    intro hw
    refine (hw.minFreq hp'.size_ne_zero).1 ?_
    rw [h.inv.nodes, hminFreq]
    exact hbelow 1 (by decide)

theorem Promoted.lost (h : Promoted s L p s₁ L₁) (haccessed : Accessed s₁ L₁ s' L')
    (hinv : Inv s L) (hp : s.Cached p) (hages : s.maxAverageNum < (s.curTotalNum + 1) / s.size)
    (hlost : ∀ q, s.Cached q → INT8_MAX ≤
      (s.node q).freq + (if q = p then 1 else 0) - s.maxAverageNum.tdiv 2) : ¬s'.WellFormed := by
  have hmax : s₁.maxAverageNum = s.maxAverageNum := h.frame.maxAverageNum
  refine haccessed.lost (h.frame.cached.mpr hp) ?_ fun q hq => ?_
  · rwa [h.curAverageNum, hmax]
  · have hq : s.Cached q := h.frame.cached.mp hq
    rw [h.freq hinv hq, hmax]
    exact hlost q hq

/-- The condition on the call is exact. -/
theorem Called.lost {i : LfuInput Key Value} {v : Option Value} (h : Called s L i s' L' v)
    (hinv : Inv s L) (hfound : ¬MinFreqFound s i) : ¬s'.WellFormed := by
  rw [MinFreqFound] at hfound
  push Not at hfound
  obtain ⟨p, hhit, hages, hlost⟩ := hfound
  cases h with
  | ignored hcapacity => exact absurd hcapacity hages.1
  | purge => cases hhit
  | miss hkey | insert _ hkey => cases hkey.symm.trans hhit
  | hit hkey hpromoted haccessed =>
    cases hkey.symm.trans hhit
    refine hpromoted.lost haccessed hinv ⟨_, hkey⟩ ?_ hlost
    have hages := hages.2
    rwa [nextAverage, hkey] at hages
  | overwrite hcapacity hkey hpromoted haccessed =>
    cases hkey.symm.trans hhit
    refine hpromoted.lost haccessed (hinv.congr_node (fun _ => setValue_key) fun _ => setValue_freq)
      ⟨_, hkey⟩ ?_ fun q hq => ?_
    · have hages := hages.2
      rwa [nextAverage, hkey] at hages
    · rw [setValue_freq]
      exact hlost q hq

/-! ### One key -/

/-- Every one of `n` calls has counted for the one node. -/
structure Single (s : LfuCache Key Value) (key : Key) (n : Nat) : Prop where
  maxAverageNum : s.maxAverageNum = 1
  size : s.size = 1
  curTotalNum : s.curTotalNum = n
  node : ∃ p, s.nodeMap.lookup key = some p ∧ (∀ q, s.Cached q → q = p) ∧ (s.node p).freq = n

theorem Single.hit {n : Nat} {walk : Traversal Key} {v : Option Value} (h : Single s key n)
    (hinv : Inv s L) (hcalled : Called s L (.get key walk) s' L' v) : Single s' key (n + 1) := by
  obtain ⟨p, hp, honly, hfreq⟩ := h.node
  cases hcalled with
  | miss hkey => cases hkey.symm.trans hp
  | @hit _ _ _ s₁ _ _ _ hkey hpromoted haccessed =>
    cases hkey.symm.trans hp
    have hmap : s'.nodeMap = s.nodeMap := haccessed.frame.nodeMap.trans hpromoted.frame.nodeMap
    have hmax : s₁.maxAverageNum = 1 := hpromoted.frame.maxAverageNum.trans h.maxAverageNum
    have htotal : s'.curTotalNum = s₁.curTotalNum + 1 := haccessed.frame.curTotalNum
    have htotal₁ : s₁.curTotalNum = s.curTotalNum := hpromoted.frame.curTotalNum
    have hfreq' : (s'.node p).freq = (s₁.node p).freq := by
      have hp₁ : s₁.Cached p := hpromoted.frame.cached.mpr ⟨key, hp⟩
      obtain ⟨-, rfl, -⟩ | ⟨-, hnode, -⟩ := haccessed.outcome
      · rfl
      · rw [hnode p hp₁, hmax]
        have := hpromoted.inv.freq_pos hp₁
        change aged 0 _ = _
        rw [aged]
        split <;> omega
    refine ⟨haccessed.frame.maxAverageNum.trans hmax, ?_, ?_, p, ?_, fun q hq => ?_, ?_⟩
    · rw [LfuCache.size, hmap]
      exact h.size
    · rw [htotal, htotal₁, h.curTotalNum, Nat.cast_succ]
    · rw [hmap, hp]
    · rw [Cached, hmap] at hq
      exact honly q hq
    · rw [hfreq', hpromoted.freq hinv ⟨key, hp⟩, if_pos rfl, hfreq, Nat.cast_succ]

theorem Single.not_found {n : Nat} {walk : Traversal Key} (h : Single s key n) (hn : 126 ≤ n) :
    ¬MinFreqFound s (.get key walk) := by
  obtain ⟨p, hp, honly, hfreq⟩ := h.node
  have hages : s.Ages (.get key walk) := by
    refine ⟨?_, ?_⟩
    · rw [hp]
      exact Option.some_ne_none p
    · rw [nextAverage, hp]
      simp only [h.maxAverageNum, h.curTotalNum, h.size]
      omega
  intro hfound
  obtain ⟨q, hq, hlt⟩ := hfound p hp hages
  cases honly q hq
  rw [if_pos rfl, hfreq, h.maxAverageNum, INT8_MAX] at hlt
  change (n : Int) + 1 - 0 < 127 at hlt
  omega

/-! ### Runs -/

theorem Inv.wellFormed (h : Inv s L) (hsize : (s.size : Int) ≤ s.capacity)
    (hleast : Least s.minFreq L) : s.WellFormed where
  size_le := hsize
  mem_nodes {p f} hp := by
    rw [h.nodes, h.mem_iff]
    exact and_iff_right hp
  nodup f := h.nodes f ▸ h.nodup f
  cached {p f} hp := (h.mem_iff.mp (h.nodes f ▸ hp)).1
  minFreq hne := by
    obtain ⟨f, hf⟩ := h.exists_ne_nil hne
    simp only [h.nodes]
    exact ⟨(hleast f hf).1, fun g hg => (hleast g hg).2⟩

variable [Inhabited Key] [Inhabited Value]

/-- The cache is well formed after every run in which aging leaves a node below `INT8_MAX`. It takes
2 ^ 31 calls for an `int` to overflow. -/
theorem wellFormed_of_run {capacity maxAverageNum : Int} (hcapacity : 1 ≤ capacity)
    (hmax : 1 ≤ maxAverageNum) {is : List (LfuInput Key Value)}
    (hG : Run.Along step (Before MinFreqFound) (.ok (new capacity maxAverageNum, [])) is) :
    Run.run step (.ok (new capacity maxAverageNum, [])) is = some (.error .outOfRange) ∧
      2 ^ 31 ≤ is.length ∨
    ∃ (s : LfuCache Key Value) (rs : List (Option Value)),
      Run.run step (.ok (new capacity maxAverageNum, [])) is = some (.ok (s, rs)) ∧
      s.WellFormed := by
  have htdiv : 0 ≤ maxAverageNum.tdiv 2 := Int.tdiv_nonneg (by omega) (by decide)
  let I : List (LfuInput Key Value) → LfuCache Key Value → (Int → List NodePtr) →
      List (Option Value) → Prop := fun _ s L _ =>
    s.capacity = capacity ∧ s.maxAverageNum = maxAverageNum ∧ (s.size : Int) ≤ s.capacity ∧
      Least s.minFreq L
  have hinit : I [] (new capacity maxAverageNum) (fun _ => []) [] := by
    refine ⟨rfl, rfl, ?_, fun f hf => absurd rfl hf⟩
    change (0 : Int) ≤ capacity
    omega
  refine (run_new (I := I) (fun done s L rs i h hI _ => ?_)
    (fun done s L rs i s' L' v h hI hfound h' hcalled => ?_)
    hinit hG).imp id ?_
  · obtain ⟨hcap, hmaxn, -, hleast⟩ := hI
    refine ⟨.inl (hmaxn ▸ htdiv), fun hevicts => ?_⟩
    cases i with
    | put key value walk =>
      obtain ⟨-, -, hsize⟩ := hevicts
      obtain ⟨f, hf⟩ := h.exists_ne_nil (by omega : s.size ≠ 0)
      exact (hleast f hf).1
    | get | purge => cases hevicts
  · obtain ⟨hcap, hmaxn, hsize, hleast⟩ := hI
    refine ⟨hcalled.frame.1.trans hcap, hcalled.frame.2.trans hmaxn, hcalled.size_le h.toInv hsize,
      hcalled.least h.toInv (.inl (hmaxn ▸ htdiv)) hleast hfound⟩
  · rintro ⟨s, rs, L, hrun, h, -, -, hsize, hleast⟩
    exact ⟨s, rs, hrun, h.toInv.wellFormed hsize hleast⟩

/-- A hit that ages the only node, at frequency 2. -/
theorem wellFormed_aged : ∃ (s : LfuCache Nat Nat) (rs : List (Option Nat)),
    Run.run step (.ok (new 1 1, [])) [.put 5 0 ⟨id, fun _ => .refl _⟩,
      .get 5 ⟨id, fun _ => .refl _⟩] = some (.ok (s, rs)) ∧ s.WellFormed := by
  refine (wellFormed_of_run (by decide) (by decide) ?_).resolve_left fun h => absurd h.2 (by decide)
  refine ⟨?_, ?_⟩
  · rintro _ ⟨⟩ p hp
    cases hp
  · rintro _ ⟨⟩
    refine ⟨?_, fun _ _ => trivial⟩
    rintro _ ⟨⟩ p hp -
    cases hp
    exact ⟨0, ⟨5, rfl⟩, by decide⟩

theorem Single.call {n : Nat} (h : Single s key n) (hgood : Good n s L) (walk : Traversal Key)
    (hn : n + 1 < 2 ^ 31) : ∃ s' L' v, s.call (.get key walk) = .ok (s', v) ∧
      Good (n + 1) s' L' ∧ Called s L (.get key walk) s' L' v := by
  have hd : 0 ≤ s.maxAverageNum.tdiv 2 := by rw [h.maxAverageNum]; decide
  refine (hgood.call (.get key walk) (.inl hd) nofun).resolve_left fun hover => ?_
  omega

theorem Single.run {n k : Nat} {rs : List (Option Value)} (h : Single s key n)
    (hgood : Good n s L) (walk : Traversal Key) (hn : n + k < 2 ^ 31) :
    ∃ s' rs' L', Run.run step (.ok (s, rs)) (List.replicate k (.get key walk)) =
      some (.ok (s', rs')) ∧ Single s' key (n + k) ∧ Good (n + k) s' L' := by
  induction k generalizing n s L rs with
  | zero => exact ⟨s, rs, L, rfl, h, hgood⟩
  | succ k ih =>
    obtain ⟨s₁, L₁, v, hcall, hgood₁, hcalled⟩ := h.call hgood walk (by omega)
    obtain ⟨s', rs', L', hrun, h'⟩ :=
      ih (h.hit hgood.toInv hcalled) hgood₁ (by omega)
    rw [Nat.add_right_comm] at h'
    refine ⟨s', rs', L', Run.run_cons.mpr ⟨_, rfl, ?_⟩, h'⟩
    rw [Except.bind, hcall]
    exact hrun

/-- A node whose frequency reaches `INT8_MAX`, and ages there by half of 1. -/
theorem not_wellFormed : ∃ (s : LfuCache Nat Nat) (rs : List (Option Nat)),
    Run.run step (.ok (new 1 1, [])) (.put 5 0 ⟨id, fun _ => .refl _⟩ ::
      List.replicate 126 (.get 5 ⟨id, fun _ => .refl _⟩)) = some (.ok (s, rs)) ∧
    ¬s.WellFormed := by
  obtain ⟨s₀, hput, hsingle⟩ : ∃ s₀, (new 1 1 : LfuCache Nat Nat).call
      (.put 5 0 ⟨id, fun _ => .refl _⟩) = .ok (s₀, none) ∧ s₀.Single 5 1 := by
    refine ⟨_, rfl, rfl, rfl, rfl, 0, rfl, ?_, rfl⟩
    rintro q ⟨key, hkey⟩
    have hinsert : ((new 1 1 : LfuCache Nat Nat).insertNode 5 0).nodeMap.lookup key = some q := hkey
    obtain ⟨-, rfl⟩ | ⟨-, hkey⟩ := lookup_insertNode.mp hinsert
    · rfl
    · cases hkey
  obtain ⟨L₀, hgood⟩ : ∃ L₀, Good 1 s₀ L₀ := by
    obtain ⟨-, hover⟩ | ⟨s', L', v, hcall, hgood, -⟩ := (good_new 1 1).call
      (.put 5 (0 : Nat) ⟨id, fun _ => .refl _⟩) (.inl (by decide)) (fun h => absurd h.2.2 (by decide))
    · exact absurd hover (by decide)
    · cases hcall.symm.trans hput
      exact ⟨L', hgood⟩
  obtain ⟨s, rs, L, hrun, hsingle, hgood⟩ :=
    hsingle.run hgood ⟨id, fun _ => .refl _⟩ (by decide : 1 + 125 < 2 ^ 31)
  obtain ⟨s', L', v, hcall, -, hcalled⟩ := hsingle.call hgood ⟨id, fun _ => .refl _⟩ (by decide)
  have hlost := hcalled.lost hgood.toInv (hsingle.not_found (by decide))
  refine ⟨s', rs ++ [v], Run.run_cons.mpr ⟨_, rfl, ?_⟩, hlost⟩
  rw [Except.bind, hput, List.replicate_succ']
  refine Run.run_append.mpr ⟨_, hrun, Run.run_cons.mpr ⟨_, rfl, ?_⟩⟩
  rw [Except.bind, hcall]
  rfl

end

end LfuCache

end MuduoX
