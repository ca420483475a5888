import MuduoX.Cache.FreqLists

/-! # What the operations of the cache keep

`Inv s L`: the lists hold exactly the cached nodes, each under its frequency. Every piece of `put`
and `get` has one lemma here, which says what becomes of the lists (as a function `L` of the
frequency), of the map, and of the nodes. -/

namespace MuduoX

namespace LfuCache

section
variable {Key Value : Type*} [DecidableEq Key] {s s' : LfuCache Key Value}
  {L : Int → List NodePtr} {p q : NodePtr} {f g : Int} {key : Key}

def Cached (s : LfuCache Key Value) (p : NodePtr) : Prop := ∃ key, s.nodeMap.lookup key = some p

structure Inv (s : LfuCache Key Value) (L : Int → List NodePtr) : Prop extends Listed s L where
  mem_iff : ∀ {f p}, p ∈ L f ↔ s.Cached p ∧ (s.node p).freq = f
  key : ∀ {key p}, s.nodeMap.lookup key = some p → (s.node p).key = key
  freq_pos : ∀ {p}, s.Cached p → 1 ≤ (s.node p).freq
  minFreq_pos : 1 ≤ s.minFreq

theorem Inv.filed (h : Inv s L) : Filed s L {p | s.Cached p} := ⟨h.toListed, h.mem_iff, h.freq_pos⟩

theorem Inv.lt_fresh_of_cached (h : Inv s L) (hp : s.Cached p) : p < s.fresh :=
  h.fresh_of_mem (h.mem_iff.mpr ⟨hp, rfl⟩)

theorem Inv.mem (h : Inv s L) (hp : s.Cached p) : p ∈ L (s.node p).freq := h.mem_iff.mpr ⟨hp, rfl⟩

theorem Inv.lookup_key (h : Inv s L) (hp : s.Cached p) :
    s.nodeMap.lookup (s.node p).key = some p := by
  obtain ⟨key, hkey⟩ := hp
  rw [h.key hkey, hkey]

/-- The nodes matter through their keys and frequencies. -/
theorem Inv.congr_node {node : NodePtr → LfuNode Key Value} (h : Inv s L)
    (hkey : ∀ p, (node p).key = (s.node p).key) (hfreq : ∀ p, (node p).freq = (s.node p).freq) :
    Inv { s with node } L where
  isList := h.isList
  missing := h.missing
  unique := h.unique
  lt_fresh := h.lt_fresh
  mem_iff {f p} := by
    change p ∈ L f ↔ s.Cached p ∧ (node p).freq = f
    rw [hfreq]
    exact h.mem_iff
  key {key p} hp := (hkey p).trans (h.key hp)
  freq_pos {p} hp := (h.freq_pos hp).trans_eq (hfreq p).symm
  minFreq_pos := h.minFreq_pos

theorem Inv.with_minFreq {m : Int} (h : Inv s L) (hm : 1 ≤ m) : Inv { s with minFreq := m } L where
  isList := h.isList
  missing := h.missing
  unique := h.unique
  lt_fresh := h.lt_fresh
  mem_iff := h.mem_iff
  key := h.key
  freq_pos := h.freq_pos
  minFreq_pos := hm

/-! ### From one list to another -/

theorem mem_relist {h : Int} (hnodup : (L f).Nodup) (honly : ∀ h, p ∈ L h → h = f) :
    q ∈ relist L p f g h ↔ q = p ∧ h = g ∨ q ≠ p ∧ q ∈ L h := by
  have herase : q ∈ Function.update L f ((L f).erase p) h ↔ q ≠ p ∧ q ∈ L h := by
    obtain rfl | hf := eq_or_ne h f
    · rw [Function.update_self, hnodup.mem_erase_iff]
    · rw [Function.update_of_ne hf]
      refine ⟨fun hq => ⟨?_, hq⟩, And.right⟩
      rintro rfl
      exact hf (honly h hq)
  rw [relist]
  obtain rfl | hg := eq_or_ne h g
  · rw [Function.update_self, List.mem_append, List.mem_singleton, herase]
    tauto
  · rw [Function.update_of_ne hg, herase]
    tauto

/-! ### The least frequency -/

/-- `m` is the least frequency with a node, if there are nodes. -/
def Least (m : Int) (L : Int → List NodePtr) : Prop := ∀ f, L f ≠ [] → L m ≠ [] ∧ m ≤ f

theorem Inv.pos_of_ne_nil (h : Inv s L) (hf : L f ≠ []) : 1 ≤ f := by
  obtain ⟨q, hq⟩ := List.exists_mem_of_ne_nil _ hf
  obtain ⟨hcached, rfl⟩ := h.mem_iff.mp hq
  exact h.freq_pos hcached

/-- `minFreq_` is kept up when a node moves to the next list. -/
theorem Least.move {m : Int} (h : Least m L) (hp : p ∈ L f) (hnodup : (L f).Nodup)
    (honly : ∀ g, p ∈ L g → g = f) :
    Least (if f = m ∧ relist L p f (f + 1) f = [] then m + 1 else m) (relist L p f (f + 1)) := by
  obtain ⟨hm, hmf⟩ := h f (List.ne_nil_of_mem hp)
  have hself : relist L p f (f + 1) (f + 1) ≠ [] :=
    List.ne_nil_of_mem ((mem_relist hnodup honly).mpr (.inl ⟨rfl, rfl⟩))
  have hle (g : Int) (hg : relist L p f (f + 1) g ≠ []) : m ≤ g := by
    obtain ⟨q, hq⟩ := List.exists_mem_of_ne_nil _ hg
    obtain ⟨-, rfl⟩ | ⟨-, hq⟩ := (mem_relist hnodup honly).mp hq
    · omega
    · exact (h g (List.ne_nil_of_mem hq)).2
  split
  · -- the list of `m` has become empty
    rename_i hempty
    obtain ⟨rfl, hempty⟩ := hempty
    refine fun g hg => ⟨hself, ?_⟩
    have hne : g ≠ f := by
      rintro rfl
      exact hg hempty
    have := hle g hg
    omega
  · rename_i hempty
    refine fun g hg => ⟨?_, hle g hg⟩
    obtain rfl | hne := eq_or_ne f m
    · exact fun h => hempty ⟨rfl, h⟩
    · obtain ⟨q, hq⟩ := List.exists_mem_of_ne_nil _ hm
      refine List.ne_nil_of_mem ((mem_relist hnodup honly).mpr (.inr ⟨?_, hq⟩))
      rintro rfl
      exact hne (honly m hq).symm

/-! ### Eviction -/

/-- What `kickOut` makes of the cache when the first node is `p`. -/
def evicted (p : NodePtr) (s : LfuCache Key Value) : LfuCache Key Value :=
  { s with
    nodeMap := s.nodeMap.erase (s.node p).key
    links := s.links.unlink p
    curTotalNum := s.curTotalNum - (s.node p).freq
    curAverageNum := average (s.curTotalNum - (s.node p).freq)
      (s.nodeMap.erase (s.node p).key).keys.length }

theorem Inv.cached_evicted (h : Inv s L) (hp : s.Cached p) :
    (s.evicted p).Cached q ↔ s.Cached q ∧ q ≠ p := by
  have hself : s.nodeMap.lookup (s.node p).key = some p := h.lookup_key hp
  constructor
  · rintro ⟨key, hq⟩
    have hne : key ≠ (s.node p).key := by
      rintro rfl
      cases hq.symm.trans (AList.lookup_erase ..)
    have hlookup : s.nodeMap.lookup key = some q := (AList.lookup_erase_ne hne).symm.trans hq
    refine ⟨⟨key, hlookup⟩, ?_⟩
    rintro rfl
    exact hne (h.key hlookup).symm
  · rintro ⟨hq, hne⟩
    have hkey := h.lookup_key hq
    refine ⟨(s.node q).key, (AList.lookup_erase_ne fun heq => hne ?_).trans hkey⟩
    rw [heq] at hkey
    exact Option.some.inj (hkey.symm.trans hself)

theorem Inv.evicted {ps : List NodePtr} (h : Inv s L) (hps : L f = p :: ps) :
    Inv (s.evicted p) (Function.update L f ps) := by
  have hmem : p ∈ L f := hps ▸ List.mem_cons_self
  have hp := (h.mem_iff.mp hmem).1
  have herase : (L f).erase p = ps := by rw [hps, List.erase_cons_head]
  obtain ⟨hlisted, -⟩ := h.unlinked hmem
  rw [herase] at hlisted
  refine ⟨⟨hlisted.isList, hlisted.missing, hlisted.unique, hlisted.lt_fresh⟩, fun {g q} => ?_,
    fun {key q} hq => ?_, fun {q} hq => h.freq_pos ((h.cached_evicted hp).mp hq).1, h.minFreq_pos⟩
  · rw [h.cached_evicted hp, and_right_comm]
    change _ ↔ (s.Cached q ∧ (s.node q).freq = g) ∧ q ≠ p
    rw [← h.mem_iff]
    obtain rfl | hg := eq_or_ne g f
    · rw [Function.update_self, ← herase, (h.nodup g).mem_erase_iff, and_comm]
    · rw [Function.update_of_ne hg]
      refine ⟨fun hq => ⟨hq, ?_⟩, And.left⟩
      rintro rfl
      exact hg (h.eq_of_mem hq hmem)
  · have hne : key ≠ (s.node p).key := by
      rintro rfl
      cases hq.symm.trans (AList.lookup_erase ..)
    exact h.key ((AList.lookup_erase_ne hne).symm.trans hq)

/-- `kickOut` takes the first node of the list of `minFreq_`. -/
theorem Inv.kickOut {ps : List NodePtr} (h : Inv s L) (hps : L s.minFreq = p :: ps)
    (hlow : -2 ^ 31 ≤ s.curTotalNum - s.minFreq) (hhigh : s.curTotalNum - s.minFreq < 2 ^ 31) :
    s.kickOut = .ok (s.evicted p) := by
  have hmem : p ∈ L s.minFreq := hps ▸ List.mem_cons_self
  have hfreq := (h.mem_iff.mp hmem).2
  obtain ⟨l, hl⟩ := h.lookup_of_mem hmem
  have hnext := (h.isList hl).next_head
  rw [hps, List.headD_cons] at hnext
  have hremove := h.removeFromFreqList (hfreq.symm ▸ hmem)
  rw [← hfreq] at hlow hhigh
  have hint : int32 ((s.unlinked p).curTotalNum - ((s.unlinked p).node p).freq) =
      .ok (s.curTotalNum - (s.node p).freq) := int32_eq hlow hhigh
  rw [LfuCache.kickOut, hl]
  simp only [hnext, hremove, Except.bind, decreaseFreqNum, hint]
  rfl

theorem Inv.purge (h : Inv s L) : Inv s.purge fun _ => [] where
  isList := nofun
  missing _ := rfl
  unique := nofun
  lt_fresh := nofun
  mem_iff := by
    refine ⟨nofun, ?_⟩
    rintro ⟨⟨key, hq⟩, -⟩
    cases hq
  key := nofun
  freq_pos := by
    rintro p ⟨key, hq⟩
    cases hq
  minFreq_pos := h.minFreq_pos

theorem lookup_insertNode {value : Value} {key' : Key} :
    (s.insertNode key value).nodeMap.lookup key' = some q ↔
      key' = key ∧ q = s.fresh ∨ key' ≠ key ∧ s.nodeMap.lookup key' = some q := by
  obtain rfl | hne := eq_or_ne key' key
  · rw [show (s.insertNode key' value).nodeMap.lookup key' = some s.fresh from
      AList.lookup_insert _]
    simp [eq_comm]
  · rw [show (s.insertNode key value).nodeMap.lookup key' = s.nodeMap.lookup key' from
      AList.lookup_insert_ne hne]
    simp [hne]

/-! ### Moving a node -/

variable [Inhabited Key] [Inhabited Value]

/-- `Filed.move`, for a cached node. -/
theorem Inv.move (h : Inv s L) (hp : s.Cached p) (hf : 1 ≤ f) :
    s.removeFromFreqList p = .ok (s.unlinked p) ∧
    ∃ s', ((s.unlinked p).setFreq p f).addToFreqList p = .ok s' ∧
      Inv s' (relist L p (s.node p).freq f) ∧ Frame s s' ∧
      ∀ q < s.fresh, s'.node q = Function.update s.node p { s.node p with freq := f } q := by
  obtain ⟨hremove, s', hadd, hfiled, hframe, hnode, -⟩ := h.filed.move hp hf
  have hcached {q : NodePtr} : s'.Cached q ↔ s.Cached q := by rw [Cached, hframe.nodeMap, Cached]
  refine ⟨hremove, s', hadd, ⟨hfiled.toListed, fun {g q} => ?_, fun {key q} hq => ?_,
    fun {q} hq => hfiled.freq_pos (hcached.mp hq), h.minFreq_pos.trans_eq hframe.minFreq.symm⟩,
    hframe, hnode⟩
  · rw [hcached]
    exact hfiled.mem_iff
  · rw [hframe.nodeMap] at hq
    rw [hnode q (h.lt_fresh_of_cached ⟨key, hq⟩)]
    obtain rfl | hne := eq_or_ne q p
    · rw [Function.update_self]
      exact h.key hq
    · rw [Function.update_of_ne hne]
      exact h.key hq

/-- `getInternal` moves the node to the next list. -/
theorem Inv.promote (h : Inv s L) (hp : s.Cached p) (hlt : (s.node p).freq + 1 < 2 ^ 31) :
    ∃ s', s.promote p = .ok s' ∧
      Inv s' (relist L p (s.node p).freq ((s.node p).freq + 1)) ∧
      Frame { s with minFreq := s'.minFreq } s' ∧
      (Least s.minFreq L →
        Least s'.minFreq (relist L p (s.node p).freq ((s.node p).freq + 1))) ∧
      ∀ q < s.fresh, s'.node q =
        Function.update s.node p { s.node p with freq := (s.node p).freq + 1 } q := by
  have hpos := h.freq_pos hp
  obtain ⟨hremove, s₁, hadd, hinv, hframe, hnode⟩ :=
    h.move hp (f := (s.node p).freq + 1) (by omega)
  have hfreq : (s₁.node p).freq - 1 = (s.node p).freq := by
    rw [hnode p (h.lt_fresh_of_cached hp), Function.update_self]
    exact Int.add_sub_cancel ..
  obtain ⟨l, hl⟩ := h.lookup_of_mem (h.mem hp)
  have hl := hframe.lists hl
  have hempty := hinv.isEmpty hl
  generalize hL : relist L p (s.node p).freq ((s.node p).freq + 1) = L₁ at *
  have hraise : s₁.raiseMinFreq p = .ok { s₁ with
      minFreq := if (s.node p).freq = s.minFreq ∧ L₁ (s.node p).freq = [] then s.minFreq + 1
        else s.minFreq } := by
    rw [raiseMinFreq, hfreq, hl, hframe.minFreq]
    split
    · rename_i heq
      simp only [hempty, heq, true_and]
      split <;> simp only [← hframe.minFreq]
    · rename_i hne
      rw [if_neg fun hc => hne hc.1, ← hframe.minFreq]
  generalize hm : (if (s.node p).freq = s.minFreq ∧ L₁ (s.node p).freq = [] then s.minFreq + 1
    else s.minFreq) = m at hraise
  have hint : int32 (((s.unlinked p).node p).freq + 1) = .ok ((s.node p).freq + 1) :=
    int32_eq (by change -2 ^ 31 ≤ (s.node p).freq + 1; omega) hlt
  refine ⟨{ s₁ with minFreq := m }, ?_, hinv.with_minFreq ?_, ⟨hframe.capacity, rfl,
    hframe.maxAverageNum, hframe.curAverageNum, hframe.curTotalNum, hframe.nodeMap,
    hframe.fresh_le, hframe.lists⟩, fun hleast => ?_, hnode⟩
  · rw [LfuCache.promote, hremove]
    simp only [Except.bind, hint, hadd, hraise]
  · have := h.minFreq_pos
    rw [← hm]
    split <;> omega
  · have hleast := hleast.move (h.mem hp) (h.nodup _) fun g hg => (h.mem_iff.mp hg).2.symm
    rwa [hL, hm] at hleast

/-! ### Insertion -/

/-- `Filed.insertNode`, for a key that is not cached. -/
theorem Inv.insertNode (h : Inv s L) (value : Value) (hkey : s.nodeMap.lookup key = none) :
    ∃ s', (s.insertNode key value).addToFreqList s.fresh = .ok s' ∧
      Inv s' (Function.update L 1 (L 1 ++ [s.fresh])) ∧ Frame (s.insertNode key value) s' ∧
      s'.node s.fresh = ⟨1, key, value⟩ ∧ ∀ q < s.fresh, s'.node q = s.node q := by
  obtain ⟨s', hadd, hfiled, hframe, hself, hother, -⟩ := h.filed.insertNode key value
  have hlookup {key' : Key} {q : NodePtr} : s'.nodeMap.lookup key' = some q ↔
      key' = key ∧ q = s.fresh ∨ key' ≠ key ∧ s.nodeMap.lookup key' = some q := by
    rw [hframe.nodeMap]
    exact lookup_insertNode
  have hcached {q : NodePtr} : s'.Cached q ↔ q ∈ insert s.fresh {p | s.Cached p} := by
    constructor
    · rintro ⟨key', hq⟩
      obtain ⟨-, rfl⟩ | ⟨-, hq⟩ := hlookup.mp hq
      · exact .inl rfl
      · exact .inr ⟨key', hq⟩
    · rintro (rfl | ⟨key', hq⟩)
      · exact ⟨key, hlookup.mpr (.inl ⟨rfl, rfl⟩)⟩
      · refine ⟨key', hlookup.mpr (.inr ⟨?_, hq⟩)⟩
        rintro rfl
        cases hkey.symm.trans hq
  refine ⟨s', hadd, ⟨hfiled.toListed, fun {g q} => ?_, fun {key' q} hq => ?_,
    fun {q} hq => hfiled.freq_pos (hcached.mp hq), h.minFreq_pos.trans_eq hframe.minFreq.symm⟩,
    hframe, hself, hother⟩
  · rw [hcached]
    exact hfiled.mem_iff
  · obtain ⟨rfl, rfl⟩ | ⟨-, hq⟩ := hlookup.mp hq
    · rw [hself]
    · rw [hother q (h.lt_fresh_of_cached ⟨key', hq⟩), h.key hq]

theorem inv_new (capacity maxAverageNum : Int) :
    Inv (new capacity maxAverageNum : LfuCache Key Value) fun _ => [] where
  isList := nofun
  missing _ := rfl
  unique := nofun
  lt_fresh := nofun
  mem_iff := by
    refine ⟨nofun, ?_⟩
    rintro ⟨⟨key, hq⟩, -⟩
    cases hq
  key := nofun
  freq_pos := by
    rintro p ⟨key, hq⟩
    cases hq
  minFreq_pos := by
    change (1 : Int) ≤ 127
    decide

end

end LfuCache

end MuduoX
