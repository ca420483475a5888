import MuduoX.Cache.MinFreq

/-! # The least-frequently-used cache

`ReferenceLfu` is what the cache is for: it counts the uses of each key, and it evicts a key of the
least count, among these the one that has had its count longest. Without aging, the cache with its
linked lists refines it: the list of a frequency holds its nodes in the order in which they reached
it. -/

namespace MuduoX

structure Use (Value : Type*) where
  value : Value
  count : Nat
  since : Nat

structure ReferenceLfu (Key Value : Type*) where
  capacity : Int
  clock : Nat
  uses : AList fun _ : Key => Use Value

namespace ReferenceLfu

variable {Key Value : Type*} [DecidableEq Key] {r : ReferenceLfu Key Value} {key key' : Key}

def new (capacity : Int) : ReferenceLfu Key Value := ⟨capacity, 0, ∅⟩

def use (key : Key) (value : Value) (count : Nat) (r : ReferenceLfu Key Value) :
    ReferenceLfu Key Value :=
  { r with
    clock := r.clock + 1
    uses := r.uses.insert key ⟨value, count, r.clock⟩ }

def victim (r : ReferenceLfu Key Value) : Option Key :=
  (r.uses.entries.argmin fun e => toLex (e.2.count, e.2.since)).map Sigma.fst

def evict (r : ReferenceLfu Key Value) : ReferenceLfu Key Value :=
  match r.victim with
  | none => r
  | some key => { r with uses := r.uses.erase key }

def call (r : ReferenceLfu Key Value) :
    LfuInput Key Value → ReferenceLfu Key Value × Option Value
  | .put key value _ =>
    match r.uses.lookup key with
    | some u => (r.use key value (u.count + 1), none)
    | none =>
      ((if (r.uses.keys.length : Int) = r.capacity then r.evict else r).use key value 1, none)
  | .get key _ =>
    match r.uses.lookup key with
    | some u => (r.use key u.value (u.count + 1), some u.value)
    | none => (r, none)
  | .purge => ({ r with uses := ∅ }, none)

/-- The cache after the calls, with their results. -/
def run (capacity : Int) (is : List (LfuInput Key Value)) :
    ReferenceLfu Key Value × List (Option Value) :=
  is.foldl (fun x i => ((x.1.call i).1, x.2 ++ [(x.1.call i).2])) (new capacity, [])

theorem run_concat {capacity : Int} {is : List (LfuInput Key Value)} {i : LfuInput Key Value} :
    run capacity (is ++ [i]) = (((run capacity is).1.call i).1,
      (run capacity is).2 ++ [((run capacity is).1.call i).2]) := by
  rw [run, List.foldl_concat]
  rfl

theorem lookup_use {value : Value} {count : Nat} : (r.use key value count).uses.lookup key' =
    if key' = key then some ⟨value, count, r.clock⟩ else r.uses.lookup key' := by
  split
  · rename_i heq
    rw [heq]
    exact AList.lookup_insert _
  · rename_i hne
    exact AList.lookup_insert_ne hne

/-- A key that comes before all others is the victim. -/
theorem victim_eq {u : Use Value} (hkey : r.uses.lookup key = some u)
    (hleast : ∀ key' u', r.uses.lookup key' = some u' → key' ≠ key →
      u.count < u'.count ∨ u.count = u'.count ∧ u.since < u'.since) : r.victim = some key := by
  have hmem : ⟨key, u⟩ ∈ r.uses.entries := AList.mem_lookup_iff.mp hkey
  obtain hnone | ⟨e, he⟩ := Option.eq_none_or_eq_some
    (r.uses.entries.argmin fun e => toLex (e.2.count, e.2.since))
  · rw [List.argmin_eq_none] at hnone
    rw [hnone] at hmem
    cases hmem
  · have hnot := List.not_lt_of_mem_argmin hmem he
    have he' := AList.mem_lookup_iff.mpr (List.argmin_mem he)
    rw [victim, he]
    by_contra hne
    refine hnot (Prod.Lex.toLex_lt_toLex.mpr (hleast e.1 e.2 he' fun heq => hne ?_))
    rw [← heq]
    rfl

end ReferenceLfu

namespace LfuCache

section
variable {Key Value : Type*} [DecidableEq Key] {s s' s₁ : LfuCache Key Value}
  {L L' L₁ : Int → List NodePtr} {p q : NodePtr} {f g : Int} {key : Key} {value : Value}
  {since : NodePtr → Nat} {r : ReferenceLfu Key Value}

/-- The use that a node stands for. -/
def useOf (s : LfuCache Key Value) (since : NodePtr → Nat) (p : NodePtr) : Use Value :=
  ⟨(s.node p).value, (s.node p).freq.toNat, since p⟩

structure Simulates (s : LfuCache Key Value) (L : Int → List NodePtr) (since : NodePtr → Nat)
    (r : ReferenceLfu Key Value) : Prop where
  capacity : r.capacity = s.capacity
  lookup : ∀ key, r.uses.lookup key = (s.nodeMap.lookup key).map (s.useOf since)
  order : ∀ f, (L f).Pairwise fun p q => since p < since q
  since_lt : ∀ {p}, s.Cached p → since p < r.clock

theorem Simulates.mem_keys (h : Simulates s L since r) :
    key ∈ s.nodeMap.keys ↔ key ∈ r.uses.keys := by
  rw [AList.mem_keys.symm, AList.mem_keys.symm, ← AList.lookup_isSome, ← AList.lookup_isSome,
    h.lookup, Option.isSome_map]

theorem Simulates.size (h : Simulates s L since r) : r.uses.keys.length = s.size :=
  ((List.perm_ext_iff_of_nodup r.uses.keys_nodup s.nodeMap.keys_nodup).mpr
    fun _ => h.mem_keys.symm).length_eq

/-! ### A use -/

/-- `p` has come to the end of its list. -/
def ToEnd (L : Int → List NodePtr) (p : NodePtr) (L' : Int → List NodePtr) : Prop :=
  ∀ f, ∃ ps, ps.Sublist (L f) ∧ p ∉ ps ∧ (L' f = ps ∨ L' f = ps ++ [p])

theorem toEnd_relist (hnodup : (L f).Nodup) (honly : ∀ h, p ∈ L h → h = f) :
    ToEnd L p (relist L p f g) := by
  intro h
  refine ⟨Function.update L f ((L f).erase p) h, ?_, ?_, ?_⟩
  · obtain rfl | hf := eq_or_ne h f
    · rw [Function.update_self]
      exact List.erase_sublist
    · rw [Function.update_of_ne hf]
  · obtain rfl | hf := eq_or_ne h f
    · rw [Function.update_self]
      exact hnodup.not_mem_erase
    · rw [Function.update_of_ne hf]
      exact fun hp => hf (honly h hp)
  · rw [relist]
    obtain rfl | hg := eq_or_ne h g
    · exact .inr (Function.update_self ..)
    · exact .inl (Function.update_of_ne hg ..)

theorem toEnd_insert (hp : ∀ f, p ∉ L f) : ToEnd L p (Function.update L g (L g ++ [p])) := by
  intro f
  refine ⟨L f, List.Sublist.refl _, hp f, ?_⟩
  obtain rfl | hg := eq_or_ne f g
  · exact .inr (Function.update_self ..)
  · exact .inl (Function.update_of_ne hg ..)

theorem Simulates.use (h : Simulates s L since r) (hinv : Inv s L)
    (hcapacity : s'.capacity = s.capacity) (hkey : s'.nodeMap.lookup key = some p)
    (hmap : ∀ key' ≠ key, s'.nodeMap.lookup key' = s.nodeMap.lookup key')
    (hne : ∀ key' ≠ key, s.nodeMap.lookup key' ≠ some p)
    (hnode : ∀ q ≠ p, s.Cached q → s'.node q = s.node q) (hend : ToEnd L p L') :
    Simulates s' L' (Function.update since p r.clock)
      (r.use key (s'.node p).value (s'.node p).freq.toNat) where
  capacity := h.capacity.trans hcapacity.symm
  lookup key' := by
    rw [ReferenceLfu.lookup_use]
    split
    · rename_i heq
      rw [heq, hkey, Option.map_some, useOf, Function.update_self]
    · rename_i hkey'
      rw [h.lookup, hmap key' hkey']
      obtain hnone | ⟨q, hq⟩ := Option.eq_none_or_eq_some (s.nodeMap.lookup key')
      · rw [hnone, Option.map_none, Option.map_none]
      · have hqp : q ≠ p := by
          rintro rfl
          exact hne key' hkey' hq
        rw [hq, Option.map_some, Option.map_some, useOf, useOf, hnode q hqp ⟨key', hq⟩,
          Function.update_of_ne hqp]
  order f := by
    obtain ⟨ps, hsub, hp, heq⟩ := hend f
    have hold : ps.Pairwise fun a b =>
        Function.update since p r.clock a < Function.update since p r.clock b := by
      refine ((h.order f).sublist hsub).imp_of_mem fun ha hb hlt => ?_
      rwa [Function.update_of_ne (ne_of_mem_of_not_mem ha hp),
        Function.update_of_ne (ne_of_mem_of_not_mem hb hp)]
    obtain heq | heq := heq <;> rw [heq]
    · exact hold
    · refine List.pairwise_append.mpr ⟨hold, List.pairwise_singleton .., fun a ha b hb => ?_⟩
      cases List.mem_singleton.mp hb
      rw [Function.update_self, Function.update_of_ne (ne_of_mem_of_not_mem ha hp)]
      exact h.since_lt (hinv.mem_iff.mp (hsub.subset ha)).1
  since_lt {q} hq := by
    obtain ⟨key', hq⟩ := hq
    obtain rfl | hqp := eq_or_ne q p
    · rw [Function.update_self]
      exact Nat.lt_succ_self _
    · rw [Function.update_of_ne hqp]
      obtain rfl | hkey' := eq_or_ne key' key
      · exact absurd (Option.some.inj (hq.symm.trans hkey)) hqp
      · exact Nat.lt_succ_of_lt (h.since_lt ⟨key', (hmap key' hkey').symm.trans hq⟩)

omit [DecidableEq Key] in
theorem setValue_self : s.setValue p (s.node p).value = s := by
  rw [setValue]
  exact congrArg (fun node => { s with node }) (Function.update_eq_self p s.node)

theorem Promoted.simulates (h : Promoted (s.setValue p value) L p s₁ L₁)
    (hs : Simulates s L since r) (hinv : Inv s L) (hkey : s.nodeMap.lookup key = some p) :
    Simulates s₁.counted L₁ (Function.update since p r.clock)
      (r.use key value ((s.node p).freq.toNat + 1)) := by
  have hmap : s₁.nodeMap = s.nodeMap := h.frame.nodeMap
  have hself : s₁.node p = ⟨(s.node p).freq + 1, (s.node p).key, value⟩ := by
    rw [h.node p (hinv.lt_fresh_of_cached ⟨key, hkey⟩), Function.update_self, setValue_node,
      if_pos rfl]
  have hcount : (s₁.node p).freq.toNat = (s.node p).freq.toNat + 1 := by
    have := hinv.freq_pos ⟨key, hkey⟩
    rw [hself]
    change ((s.node p).freq + 1).toNat = _
    omega
  have hend : ToEnd L p L₁ := by
    refine h.lists ▸ toEnd_relist (hinv.nodup _) fun f hf => ?_
    rw [setValue_freq]
    exact (hinv.mem_iff.mp hf).2.symm
  have huse : Simulates s₁.counted L₁ (Function.update since p r.clock)
      (r.use key (s₁.node p).value (s₁.node p).freq.toNat) := by
    refine hs.use hinv h.frame.capacity ((congrArg (AList.lookup key) hmap).trans hkey)
      (fun key' _ => congrArg (AList.lookup key') hmap) (fun key' hne hkey' => ?_)
      (fun q hne hq => ?_) hend
    · exact hne ((hinv.key hkey').symm.trans (hinv.key hkey))
    · change s₁.node q = s.node q
      rw [h.node q (hinv.lt_fresh_of_cached hq), Function.update_of_ne hne, setValue_node,
        if_neg hne]
  rwa [hcount, hself] at huse

/-! ### An eviction -/

/-- The first node of the list of the least frequency is the one to go. -/
theorem Simulates.victim {ps : List NodePtr} (h : Simulates s L since r) (hinv : Inv s L)
    (hleast : Least s.minFreq L) (hps : L s.minFreq = p :: ps) :
    r.victim = some (s.node p).key := by
  obtain ⟨hp, hfreq⟩ := hinv.mem_iff.mp (hps ▸ List.mem_cons_self : p ∈ L s.minFreq)
  have hkey := hinv.lookup_key hp
  refine ReferenceLfu.victim_eq (u := s.useOf since p) ?_ fun key' u' hu' hne => ?_
  · rw [h.lookup, hkey, Option.map_some]
  · rw [h.lookup, Option.map_eq_some_iff] at hu'
    obtain ⟨q, hq, rfl⟩ := hu'
    have hmem := hinv.mem ⟨key', hq⟩
    have hpos := hinv.minFreq_pos
    have hle := (hleast _ (List.ne_nil_of_mem hmem)).2
    change (s.node p).freq.toNat < (s.node q).freq.toNat ∨
      (s.node p).freq.toNat = (s.node q).freq.toNat ∧ since p < since q
    obtain heq | hlt := hle.eq_or_lt
    · rw [← heq, hps, List.mem_cons] at hmem
      refine .inr ⟨by rw [hfreq, heq], ?_⟩
      have hqp : q ≠ p := by
        rintro rfl
        exact hne (hinv.key hq).symm
      have horder := h.order s.minFreq
      rw [hps] at horder
      exact List.rel_of_pairwise_cons horder (hmem.resolve_left hqp)
    · exact .inl (by omega)

theorem Room.simulates (h : Room s L s₁ L₁) (hs : Simulates s L since r) (hinv : Inv s L)
    (hleast : Least s.minFreq L) : Simulates s₁ L₁ since
      (if (r.uses.keys.length : Int) = r.capacity then r.evict else r) := by
  rw [hs.size, hs.capacity]
  obtain ⟨hsize, rfl, rfl⟩ | ⟨hsize, p, ps, hps, rfl, rfl⟩ := h
  · rwa [if_neg hsize]
  · have hp := (hinv.mem_iff.mp (hps ▸ List.mem_cons_self : p ∈ L s.minFreq)).1
    rw [if_pos hsize, ReferenceLfu.evict, hs.victim hinv hleast hps]
    refine ⟨hs.capacity, fun key => ?_, fun f => ?_, fun hq => ?_⟩
    · change AList.lookup key (r.uses.erase (s.node p).key) =
        (AList.lookup key (s.nodeMap.erase (s.node p).key)).map (s.useOf since)
      obtain rfl | hne := eq_or_ne key (s.node p).key
      · rw [AList.lookup_erase, AList.lookup_erase, Option.map_none]
      · rw [AList.lookup_erase_ne hne, AList.lookup_erase_ne hne, hs.lookup]
    · obtain rfl | hne := eq_or_ne f s.minFreq
      · have horder := hs.order s.minFreq
        rw [hps] at horder
        rw [Function.update_self]
        exact (List.pairwise_cons.mp horder).2
      · rw [Function.update_of_ne hne]
        exact hs.order f
    · exact hs.since_lt ((hinv.cached_evicted hp).mp hq).1

theorem Inserted.simulates (h : Inserted s L key value s₁ L₁) (hs : Simulates s L since r)
    (hinv : Inv s L) (m : Int) :
    Simulates { s₁.counted with minFreq := m } L₁ (Function.update since s.fresh r.clock)
      (r.use key value 1) := by
  have hmap : s₁.nodeMap = s.nodeMap.insert key s.fresh := h.frame.nodeMap
  have hend : ToEnd L s.fresh L₁ :=
    h.lists ▸ toEnd_insert fun f hf => Nat.lt_irrefl _ (hinv.fresh_of_mem hf)
  have huse : Simulates { s₁.counted with minFreq := m } L₁ (Function.update since s.fresh r.clock)
      (r.use key (s₁.node s.fresh).value (s₁.node s.fresh).freq.toNat) := by
    refine hs.use hinv h.frame.capacity ?_ (fun key' hne => ?_) (fun key' _ hkey' => ?_)
      (fun q _ hq => ?_) hend
    · exact (congrArg (AList.lookup key) hmap).trans (AList.lookup_insert _)
    · exact (congrArg (AList.lookup key') hmap).trans (AList.lookup_insert_ne hne)
    · exact Nat.lt_irrefl _ (hinv.lt_fresh_of_cached ⟨key', hkey'⟩)
    · exact h.node q (hinv.lt_fresh_of_cached hq)
  rwa [h.new] at huse

/-! ### Runs -/

/-- Without aging, the counters alone change behind the lists. -/
theorem Accessed.counted (h : Accessed s L s' L')
    (hages : s.counted.curAverageNum ≤ s.maxAverageNum) : s' = s.counted ∧ L' = L := by
  obtain ⟨-, hs', hL'⟩ | ⟨hlt, -⟩ := h.outcome
  · exact ⟨hs', hL'⟩
  · omega

theorem Called.simulates {i : LfuInput Key Value} {v : Option Value} (h : Called s L i s' L' v)
    (hs : Simulates s L since r) (hinv : Inv s L) (hleast : Least s.minFreq L)
    (hcapacity : s.capacity ≠ 0) (hages : ¬s.Ages i) :
    ∃ since', Simulates s' L' since' (r.call i).1 ∧ (r.call i).2 = v := by
  cases h with
  | ignored hzero => exact absurd hzero hcapacity
  | miss hkey =>
    rw [ReferenceLfu.call, hs.lookup, hkey]
    exact ⟨since, hs, rfl⟩
  | purge => exact ⟨since, ⟨hs.capacity, fun _ => rfl, fun _ => .nil, by rintro p ⟨key, ⟨⟩⟩⟩, rfl⟩
  | @hit key walk p s₁ _ _ _ hkey hpromoted haccessed =>
    rw [← setValue_self (s := s) (p := p)] at hpromoted
    have hle : s₁.counted.curAverageNum ≤ s₁.maxAverageNum := by
      rw [hpromoted.curAverageNum, hpromoted.frame.maxAverageNum]
      refine Int.not_lt.mp fun hlt => hages ⟨?_, ?_⟩
      · rw [hkey]
        exact Option.some_ne_none p
      · rwa [nextAverage, hkey]
    obtain ⟨rfl, rfl⟩ := haccessed.counted hle
    rw [ReferenceLfu.call, hs.lookup, hkey]
    exact ⟨_, hpromoted.simulates hs hinv hkey, rfl⟩
  | @overwrite key value walk p s₁ _ _ _ _ hkey hpromoted haccessed =>
    have hle : s₁.counted.curAverageNum ≤ s₁.maxAverageNum := by
      rw [hpromoted.curAverageNum, hpromoted.frame.maxAverageNum]
      refine Int.not_lt.mp fun hlt => hages ⟨hcapacity, ?_⟩
      rwa [nextAverage, hkey]
    obtain ⟨rfl, rfl⟩ := haccessed.counted hle
    rw [ReferenceLfu.call, hs.lookup, hkey]
    exact ⟨_, hpromoted.simulates hs hinv hkey, rfl⟩
  | @insert key value walk s₁ _ s₂ _ s₃ _ _ hkey hroom hinserted haccessed =>
    have hle : s₂.counted.curAverageNum ≤ s₂.maxAverageNum := by
      rw [hinserted.curAverageNum (hroom.lookup hkey), hroom.nextAverage hinv hkey,
        hinserted.frame.maxAverageNum]
      change _ ≤ s₁.maxAverageNum
      rw [hroom.maxAverageNum]
      exact Int.not_lt.mp fun hlt => hages ⟨hcapacity, hlt⟩
    obtain ⟨rfl, rfl⟩ := haccessed.counted hle
    rw [ReferenceLfu.call, hs.lookup, hkey]
    exact ⟨_, hinserted.simulates (hroom.simulates hs hinv hleast) (hroom.inv hinv) _, rfl⟩

variable [Inhabited Key] [Inhabited Value]

/-- In every run without aging, the results are those of the reference, and so are the keys. It takes
2 ^ 31 calls for an `int` to overflow. -/
theorem refines_reference {capacity maxAverageNum : Int} (hcapacity : 1 ≤ capacity)
    {is : List (LfuInput Key Value)}
    (hG : Run.Along step (Before fun s i => ¬s.Ages i) (.ok (new capacity maxAverageNum, [])) is) :
    Run.run step (.ok (new capacity maxAverageNum, [])) is = some (.error .outOfRange) ∧
      2 ^ 31 ≤ is.length ∨
    ∃ s : LfuCache Key Value, Run.run step (.ok (new capacity maxAverageNum, [])) is =
        some (.ok (s, (ReferenceLfu.run capacity is).2)) ∧
      ∀ key, key ∈ s.nodeMap.keys ↔ key ∈ (ReferenceLfu.run capacity is).1.uses.keys := by
  let I : List (LfuInput Key Value) → LfuCache Key Value → (Int → List NodePtr) →
      List (Option Value) → Prop := fun done s L rs =>
    s.capacity = capacity ∧ Least s.minFreq L ∧ rs = (ReferenceLfu.run capacity done).2 ∧
      ∃ since, Simulates s L since (ReferenceLfu.run capacity done).1
  have hinit : I [] (new capacity maxAverageNum) (fun _ => []) [] := by
    refine ⟨rfl, fun f hf => absurd rfl hf, rfl, fun _ => 0, rfl, fun _ => rfl, fun _ => .nil, ?_⟩
    rintro p ⟨key, ⟨⟩⟩
  refine (run_new (I := I) (fun done s L rs i h hI hages => ⟨.inr hages, fun hevicts => ?_⟩)
    (fun done s L rs i s' L' v h hI hages h' hcalled => ?_) hinit hG).imp id ?_
  · obtain ⟨hcap, hleast, -⟩ := hI
    cases i with
    | put key value walk =>
      obtain ⟨-, -, hsize⟩ := hevicts
      obtain ⟨f, hf⟩ := h.exists_ne_nil (by omega : s.size ≠ 0)
      exact (hleast f hf).1
    | get | purge => cases hevicts
  · obtain ⟨hcap, hleast, hrs, since, hs⟩ := hI
    obtain ⟨since', hs', hv⟩ := hcalled.simulates hs h.toInv hleast (by omega) hages
    refine ⟨hcalled.frame.1.trans hcap, hcalled.least h.toInv (.inr hages) hleast
      fun p _ hages' => absurd hages' hages, ?_, since', ?_⟩
    · rw [ReferenceLfu.run_concat, hrs, hv]
    · rwa [ReferenceLfu.run_concat]
  · rintro ⟨s, rs, L, hrun, -, -, -, hrs, since, hs⟩
    exact ⟨s, hrs ▸ hrun, fun key => hs.mem_keys⟩

/-- The key that has had its count longer is evicted. -/
theorem refines_reference_evicted : ∃ s : LfuCache Nat Nat,
    Run.run step (.ok (new 2 10, [])) [.put 5 50 ⟨id, fun _ => .refl _⟩,
      .put 6 60 ⟨id, fun _ => .refl _⟩, .put 7 70 ⟨id, fun _ => .refl _⟩] =
        some (.ok (s, (ReferenceLfu.run 2 [.put 5 50 ⟨id, fun _ => .refl _⟩,
          .put 6 60 ⟨id, fun _ => .refl _⟩, .put 7 70 ⟨id, fun _ => .refl _⟩]).2)) ∧
      ∀ key, key ∈ s.nodeMap.keys ↔ key ∈ (ReferenceLfu.run 2 [.put 5 50 ⟨id, fun _ => .refl _⟩,
        .put 6 60 ⟨id, fun _ => .refl _⟩, .put 7 70 ⟨id, fun _ => .refl _⟩]).1.uses.keys := by
  refine (refines_reference (by decide) ?_).resolve_left fun h => absurd h.2 (by decide)
  refine ⟨?_, ?_⟩
  · rintro _ ⟨⟩ h
    exact absurd h.2 (by decide +kernel)
  · rintro _ ⟨⟩
    refine ⟨?_, ?_⟩
    · rintro _ ⟨⟩ h
      exact absurd h.2 (by decide +kernel)
    · rintro _ ⟨⟩
      refine ⟨?_, fun _ _ => trivial⟩
      rintro _ ⟨⟩ h
      exact absurd h.2 (by decide +kernel)

end

end LfuCache

end MuduoX
