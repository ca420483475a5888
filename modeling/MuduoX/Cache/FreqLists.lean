import MuduoX.Cache.Lfu

/-! # The frequency lists on the heap

`Listed s L` says that the list of each frequency `f` holds the nodes `L f`, and that the lists do
not share cells. Each operation on a list is an operation on `L`; what it leaves alone is in the
shape of its result. -/

namespace MuduoX

/-- A list with its sentinels. -/
def FreqList.cells (l : FreqList) (ps : List NodePtr) : List NodePtr := l.head :: ps ++ [l.tail]

theorem FreqList.mem_cells {l : FreqList} {ps : List NodePtr} {p : NodePtr} (h : p ∈ ps) :
    p ∈ l.cells ps := List.mem_append_left _ (List.mem_cons_of_mem _ h)

theorem FreqList.tail_mem_cells {l : FreqList} {ps : List NodePtr} : l.tail ∈ l.cells ps :=
  List.mem_append_right _ (List.mem_singleton_self _)

theorem FreqList.cells_mono {l : FreqList} {ps qs : List NodePtr} {p : NodePtr} (h : ps ⊆ qs)
    (hp : p ∈ l.cells ps) : p ∈ l.cells qs := by
  simp only [cells, List.mem_append, List.mem_cons] at hp ⊢
  exact hp.imp_left (Or.imp_right fun hp => h hp)

theorem FreqList.mem_cells_concat {l : FreqList} {ps : List NodePtr} {p q : NodePtr}
    (hq : q ∈ l.cells (ps ++ [p])) : q ∈ l.cells ps ∨ q = p := by
  simp only [cells, List.mem_append, List.mem_cons, List.not_mem_nil, or_false] at hq ⊢
  tauto

namespace LfuCache

variable {Key Value : Type*} {s : LfuCache Key Value} {L : Int → List NodePtr} {p : NodePtr}
  {f : Int} {l : FreqList}

structure Listed (s : LfuCache Key Value) (L : Int → List NodePtr) : Prop where
  isList : ∀ {f l}, s.freqToFreqList.lookup f = some l → s.links.IsList l.head (L f) l.tail
  missing : ∀ {f}, s.freqToFreqList.lookup f = none → L f = []
  unique : ∀ {f g l m q}, s.freqToFreqList.lookup f = some l → s.freqToFreqList.lookup g = some m →
    q ∈ l.cells (L f) → q ∈ m.cells (L g) → f = g
  lt_fresh : ∀ {f l q}, s.freqToFreqList.lookup f = some l → q ∈ l.cells (L f) → q < s.fresh

/-- `p` is in no list. -/
def Loose (s : LfuCache Key Value) (L : Int → List NodePtr) (p : NodePtr) : Prop :=
  ∀ {f l}, s.freqToFreqList.lookup f = some l → p ∉ l.cells (L f)

theorem Listed.lookup_of_mem (h : Listed s L) (hp : p ∈ L f) :
    ∃ l, s.freqToFreqList.lookup f = some l := by
  obtain hl | hl := Option.eq_none_or_eq_some (s.freqToFreqList.lookup f)
  · rw [h.missing hl] at hp
    cases hp
  · exact hl

theorem Listed.fresh_of_mem (h : Listed s L) (hp : p ∈ L f) : p < s.fresh := by
  obtain ⟨l, hl⟩ := h.lookup_of_mem hp
  exact h.lt_fresh hl (FreqList.mem_cells hp)

theorem Listed.eq_of_mem {g : Int} (h : Listed s L) (hf : p ∈ L f) (hg : p ∈ L g) : f = g := by
  obtain ⟨l, hl⟩ := h.lookup_of_mem hf
  obtain ⟨m, hm⟩ := h.lookup_of_mem hg
  exact h.unique hl hm (FreqList.mem_cells hf) (FreqList.mem_cells hg)

theorem Listed.nodup (h : Listed s L) (f : Int) : (L f).Nodup := by
  obtain hl | ⟨l, hl⟩ := Option.eq_none_or_eq_some (s.freqToFreqList.lookup f)
  · rw [h.missing hl]
    exact .nil
  · exact (List.nodup_cons.mp (List.nodup_append.mp (h.isList hl).nodup).1).2

theorem Listed.isEmpty (h : Listed s L) (hl : s.freqToFreqList.lookup f = some l) :
    s.isEmpty l = true ↔ L f = [] := by
  rw [LfuCache.isEmpty, decide_eq_true_iff]
  exact (h.isList hl).next_head_eq

/-- A node that has not been used is in no list. -/
theorem Listed.loose_fresh (h : Listed s L) : s.Loose L s.fresh :=
  fun hl hp => Nat.lt_irrefl _ (h.lt_fresh hl hp)

/-- The last sentinels are as `FreqList` made them. -/
structure Sentinels (s : LfuCache Key Value) : Prop where
  freq : ∀ {f l}, s.freqToFreqList.lookup f = some l → (s.node l.tail).freq = 1
  next : ∀ {f l}, s.freqToFreqList.lookup f = some l → s.links.next l.tail = none

theorem Sentinels.setFreq {g : Int} (h : Sentinels s) (hloose : s.Loose L p) :
    Sentinels (s.setFreq p g) where
  freq {f l} hl := by
    have hne : l.tail ≠ p := by
      rintro rfl
      exact hloose hl FreqList.tail_mem_cells
    change (Function.update s.node p _ l.tail).freq = 1
    rw [Function.update_of_ne hne]
    exact h.freq hl
  next := h.next

/-- What relinking leaves as it is. -/
structure Frame (s s' : LfuCache Key Value) : Prop where
  capacity : s'.capacity = s.capacity
  minFreq : s'.minFreq = s.minFreq
  maxAverageNum : s'.maxAverageNum = s.maxAverageNum
  curAverageNum : s'.curAverageNum = s.curAverageNum
  curTotalNum : s'.curTotalNum = s.curTotalNum
  nodeMap : s'.nodeMap = s.nodeMap
  fresh_le : s.fresh ≤ s'.fresh
  lists : ∀ {f l}, s.freqToFreqList.lookup f = some l → s'.freqToFreqList.lookup f = some l

theorem Frame.refl (s : LfuCache Key Value) : Frame s s :=
  ⟨rfl, rfl, rfl, rfl, rfl, rfl, Nat.le_refl _, id⟩

theorem Frame.trans {s' t : LfuCache Key Value} (h : Frame s s') (h' : Frame s' t) : Frame s t :=
  ⟨h'.capacity.trans h.capacity, h'.minFreq.trans h.minFreq,
    h'.maxAverageNum.trans h.maxAverageNum, h'.curAverageNum.trans h.curAverageNum,
    h'.curTotalNum.trans h.curTotalNum, h'.nodeMap.trans h.nodeMap,
    Nat.le_trans h.fresh_le h'.fresh_le, fun hl => h'.lists (h.lists hl)⟩

/-! ### Taking out -/

def unlinked (p : NodePtr) (s : LfuCache Key Value) : LfuCache Key Value :=
  { s with links := s.links.unlink p }

theorem Listed.unlinked (h : Listed s L) (hp : p ∈ L f) :
    Listed (s.unlinked p) (Function.update L f ((L f).erase p)) ∧
      Loose (s.unlinked p) (Function.update L f ((L f).erase p)) p := by
  obtain ⟨l, hl⟩ := h.lookup_of_mem hp
  have hsub {g : Int} : Function.update L f ((L f).erase p) g ⊆ L g := by
    obtain rfl | hg := eq_or_ne g f
    · rw [Function.update_self]
      exact List.erase_subset
    · rw [Function.update_of_ne hg]
      exact List.Subset.refl _
  refine ⟨⟨fun {g m} hm => ?_, fun {g} hg => ?_, fun hl hm hq hq' => ?_, fun hl hq => ?_⟩,
    fun {g m} hm hmem => ?_⟩
  · obtain rfl | hg := eq_or_ne g f
    · cases hl.symm.trans hm
      rw [Function.update_self]
      exact (h.isList hl).unlink hp
    · rw [Function.update_of_ne hg]
      exact (h.isList hm).congr fun q hq => (h.isList hl).unlink_frame hp
        fun hq' => hg (h.unique hm hl hq hq')
  · exact List.eq_nil_of_subset_nil (h.missing hg ▸ hsub)
  · exact h.unique hl hm (FreqList.cells_mono hsub hq) (FreqList.cells_mono hsub hq')
  · exact h.lt_fresh hl (FreqList.cells_mono hsub hq)
  · -- a cell is in one list only, and there only once
    obtain rfl := h.unique hm hl (FreqList.cells_mono hsub hmem) (FreqList.mem_cells hp)
    cases hl.symm.trans hm
    rw [Function.update_self] at hmem
    have hnodup := (h.isList hl).nodup
    obtain ⟨as, a, b, bs, heq, herase⟩ := (h.isList hl).split hp
    rw [FreqList.cells, herase] at hmem
    rw [heq, List.append_cons, List.nodup_middle, List.nodup_cons] at hnodup
    exact hnodup.1 (by simpa using hmem)

theorem Listed.sentinels_unlinked (h : Listed s L) (hp : p ∈ L f) (hs : Sentinels s) :
    Sentinels (s.unlinked p) where
  freq := hs.freq
  next {g m} hm := by
    obtain ⟨l, hl⟩ := h.lookup_of_mem hp
    refine Eq.trans ?_ (hs.next hm)
    obtain rfl | hg := eq_or_ne g f
    · cases hl.symm.trans hm
      exact (h.isList hl).unlink_next_tail hp
    · exact ((h.isList hl).unlink_frame hp
        fun hq => hg (h.unique hm hl FreqList.tail_mem_cells hq)).1

theorem Listed.removeFromFreqList (h : Listed s L) (hp : p ∈ L (s.node p).freq) :
    s.removeFromFreqList p = .ok (s.unlinked p) := by
  obtain ⟨l, hl⟩ := h.lookup_of_mem hp
  rw [LfuCache.removeFromFreqList, hl]
  rfl

/-! ### Putting in -/

theorem Listed.insertBefore (h : Listed s L) (hl : s.freqToFreqList.lookup f = some l)
    (hp : p < s.fresh) (hloose : s.Loose L p) :
    ∃ links, s.links.insertBefore l.tail p = some links ∧
      Listed { s with links } (Function.update L f (L f ++ [p])) ∧
      (Sentinels s → Sentinels { s with links }) := by
  obtain ⟨links, hinsert, hlist, hframe, htail⟩ := (h.isList hl).insertBefore (hloose hl)
  have hcells {g : Int} {m : FreqList} {q : NodePtr}
      (hq : q ∈ m.cells (Function.update L f (L f ++ [p]) g)) :
      q ∈ m.cells (L g) ∨ q = p ∧ g = f := by
    obtain rfl | hg := eq_or_ne g f
    · rw [Function.update_self] at hq
      exact (FreqList.mem_cells_concat hq).imp_right fun h => ⟨h, rfl⟩
    · rw [Function.update_of_ne hg] at hq
      exact .inl hq
  refine ⟨links, hinsert, ⟨fun {g m} hm => ?_, fun {g} hg => ?_,
    fun {g g' m m' q} hm hm' hq hq' => ?_, fun {g m q} hm hq => ?_⟩,
    fun hs => ⟨hs.freq, fun {g m} hm => ?_⟩⟩
  · obtain rfl | hg := eq_or_ne g f
    · cases hl.symm.trans hm
      rwa [Function.update_self]
    · rw [Function.update_of_ne hg]
      refine (h.isList hm).congr fun q hq => hframe q (fun hq' => hg (h.unique hm hl hq hq')) ?_
      rintro rfl
      exact hloose hm hq
  · obtain rfl | hgf := eq_or_ne g f
    · cases hl.symm.trans hg
    · rw [Function.update_of_ne hgf]
      exact h.missing hg
  · obtain h₁ | ⟨h₁, hg⟩ := hcells hq
    · obtain h₂ | ⟨h₂, -⟩ := hcells hq'
      · exact h.unique hm hm' h₁ h₂
      · exact absurd (h₂ ▸ h₁) (hloose hm)
    · obtain h₂ | ⟨-, hg'⟩ := hcells hq'
      · exact absurd (h₁ ▸ h₂) (hloose hm')
      · rw [hg, hg']
  · obtain hq | ⟨rfl, -⟩ := hcells hq
    · exact h.lt_fresh hm hq
    · exact hp
  · refine Eq.trans ?_ (hs.next hm)
    obtain rfl | hg := eq_or_ne g f
    · cases hl.symm.trans hm
      exact htail
    · refine (hframe m.tail (fun hq => hg (h.unique hm hl FreqList.tail_mem_cells hq)) ?_).1
      rintro rfl
      exact hloose hm FreqList.tail_mem_cells

section
variable [Inhabited Key] [Inhabited Value]

theorem lookup_newFreqList {g : Int} {m : FreqList}
    (hm : (newFreqList f s).2.freqToFreqList.lookup g = some m) :
    g = f ∧ m = (newFreqList f s).1 ∨ g ≠ f ∧ s.freqToFreqList.lookup g = some m := by
  obtain rfl | hg := eq_or_ne g f
  · exact .inl ⟨rfl, Option.some.inj (hm.symm.trans (AList.lookup_insert _))⟩
  · exact .inr ⟨hg, (AList.lookup_insert_ne hg).symm.trans hm⟩

theorem newFreqList_node {q : NodePtr} (hq : q < s.fresh) :
    (newFreqList f s).2.node q = s.node q :=
  (Function.update_of_ne (Nat.ne_of_lt (Nat.lt_succ_of_lt hq)) ..).trans
    (Function.update_of_ne (Nat.ne_of_lt hq) ..)

theorem Listed.newFreqList (h : Listed s L) (hf : s.freqToFreqList.lookup f = none) :
    Listed (LfuCache.newFreqList f s).2 L := by
  have hcells {q : NodePtr} (hq : q ∈ (LfuCache.newFreqList f s).1.cells (L f)) :
      s.fresh ≤ q ∧ q < s.fresh + 2 := by
    rw [h.missing hf] at hq
    obtain rfl | rfl := List.mem_pair.mp hq
    · exact ⟨Nat.le_refl _, Nat.lt_add_of_pos_right (by decide)⟩
    · exact ⟨Nat.le_succ _, Nat.lt_succ_self _⟩
  refine ⟨fun {g m} hm => ?_, fun {g} hg => ?_, fun {g g' m m' q} hm hm' hq hq' => ?_,
    fun {g m q} hm hq => ?_⟩
  · obtain ⟨rfl, rfl⟩ | ⟨-, hm⟩ := lookup_newFreqList hm
    · rw [h.missing hf]
      exact Links.isList_sentinels (Nat.ne_of_lt (Nat.lt_succ_self _))
    · refine (h.isList hm).congr fun q hq => Links.sentinels_frame ?_ ?_
      · exact Nat.ne_of_lt (h.lt_fresh hm hq)
      · exact Nat.ne_of_lt (Nat.lt_succ_of_lt (h.lt_fresh hm hq))
  · obtain rfl | hgf := eq_or_ne g f
    · cases hg.symm.trans (AList.lookup_insert _)
    · exact h.missing ((AList.lookup_insert_ne hgf).symm.trans hg)
  · obtain ⟨rfl, rfl⟩ | ⟨-, h₁⟩ := lookup_newFreqList hm
    · obtain ⟨rfl, -⟩ | ⟨-, h₂⟩ := lookup_newFreqList hm'
      · rfl
      · exact absurd (h.lt_fresh h₂ hq') (Nat.not_lt.mpr (hcells hq).1)
    · obtain ⟨rfl, rfl⟩ | ⟨-, h₂⟩ := lookup_newFreqList hm'
      · exact absurd (h.lt_fresh h₁ hq) (Nat.not_lt.mpr (hcells hq').1)
      · exact h.unique h₁ h₂ hq hq'
  · obtain ⟨rfl, rfl⟩ | ⟨-, hm⟩ := lookup_newFreqList hm
    · exact (hcells hq).2
    · exact Nat.lt_add_right 2 (h.lt_fresh hm hq)

theorem Listed.sentinels_newFreqList (h : Listed s L) (hs : Sentinels s) :
    Sentinels (LfuCache.newFreqList f s).2 where
  freq {g m} hm := by
    obtain ⟨rfl, rfl⟩ | ⟨-, hm⟩ := lookup_newFreqList hm
    · have hself : (LfuCache.newFreqList g s).2.node (s.fresh + 1) = default :=
        Function.update_self ..
      exact congrArg LfuNode.freq hself
    · rw [newFreqList_node (h.lt_fresh hm FreqList.tail_mem_cells)]
      exact hs.freq hm
  next {g m} hm := by
    obtain ⟨rfl, rfl⟩ | ⟨-, hm⟩ := lookup_newFreqList hm
    · exact (Function.update_of_ne (Nat.succ_ne_self s.fresh) ..).trans (Function.update_self ..)
    · have hlt := h.lt_fresh hm FreqList.tail_mem_cells
      refine Eq.trans ?_ (hs.next hm)
      exact (Links.sentinels_frame (Nat.ne_of_lt hlt) (Nat.ne_of_lt (Nat.lt_succ_of_lt hlt))).1

/-- The node goes to the end of the list of its frequency, which is made if there is none. -/
theorem Listed.addToFreqList (h : Listed s L) (hp : p < s.fresh) (hloose : s.Loose L p) :
    ∃ s', s.addToFreqList p = .ok s' ∧
      Listed s' (Function.update L (s.node p).freq (L (s.node p).freq ++ [p])) ∧ Frame s s' ∧
      (∀ q < s.fresh, s'.node q = s.node q) ∧ (Sentinels s → Sentinels s') := by
  rw [LfuCache.addToFreqList]
  obtain hl | ⟨l, hl⟩ := Option.eq_none_or_eq_some (s.freqToFreqList.lookup (s.node p).freq)
  · have hnew : (LfuCache.newFreqList (s.node p).freq s).2.freqToFreqList.lookup (s.node p).freq =
        some (LfuCache.newFreqList (s.node p).freq s).1 := AList.lookup_insert _
    have hp' : p < (LfuCache.newFreqList (s.node p).freq s).2.fresh := Nat.lt_add_right 2 hp
    have hloose' : (LfuCache.newFreqList (s.node p).freq s).2.Loose L p := by
      intro g m hm hq
      obtain rfl | hg := eq_or_ne g (s.node p).freq
      · cases hnew.symm.trans hm
        rw [h.missing hl] at hq
        obtain hq | hq := List.mem_pair.mp hq
        · exact Nat.ne_of_lt hp hq
        · exact Nat.ne_of_lt (Nat.lt_succ_of_lt hp) hq
      · exact hloose ((AList.lookup_insert_ne hg).symm.trans hm) hq
    obtain ⟨links, hinsert, hlisted, hsentinels⟩ :=
      (h.newFreqList hl).insertBefore hnew hp' hloose'
    simp only [hl, hinsert]
    refine ⟨_, rfl, hlisted, ⟨rfl, rfl, rfl, rfl, rfl, rfl, Nat.le_add_right .., fun {g m} hm => ?_⟩,
      fun q hq => newFreqList_node hq, fun hs => hsentinels (h.sentinels_newFreqList hs)⟩
    refine (AList.lookup_insert_ne ?_).trans hm
    rintro rfl
    cases hl.symm.trans hm
  · obtain ⟨links, hinsert, hlisted, hsentinels⟩ := h.insertBefore hl hp hloose
    simp only [hl, hinsert]
    exact ⟨_, rfl, hlisted, ⟨rfl, rfl, rfl, rfl, rfl, rfl, Nat.le_refl _, id⟩, fun _ _ => rfl,
      hsentinels⟩

end

/-! ### The nodes in the lists -/

/-- The lists hold the nodes of `C` and no others, each under its frequency. -/
structure Filed (s : LfuCache Key Value) (L : Int → List NodePtr) (C : Set NodePtr) : Prop
    extends Listed s L where
  mem_iff : ∀ {f p}, p ∈ L f ↔ p ∈ C ∧ (s.node p).freq = f
  freq_pos : ∀ {p}, p ∈ C → 1 ≤ (s.node p).freq

/-- `p` is taken out of the list of `f` and put into that of `g`. -/
def relist (L : Int → List NodePtr) (p : NodePtr) (f g : Int) : Int → List NodePtr :=
  let L := Function.update L f ((L f).erase p)
  Function.update L g (L g ++ [p])

section
variable {C : Set NodePtr}

theorem Filed.mem (h : Filed s L C) (hp : p ∈ C) : p ∈ L (s.node p).freq := h.mem_iff.mpr ⟨hp, rfl⟩

theorem Filed.lt_fresh_of_mem (h : Filed s L C) (hp : p ∈ C) : p < s.fresh :=
  h.fresh_of_mem (h.mem hp)

theorem Filed.notMem_of_loose (h : Filed s L C) (hloose : s.Loose L p) : p ∉ C := by
  intro hp
  obtain ⟨l, hl⟩ := h.lookup_of_mem (h.mem hp)
  exact hloose hl (FreqList.mem_cells (h.mem hp))

/-- The nodes matter through their frequencies. -/
theorem Filed.congr_node {node : NodePtr → LfuNode Key Value} (h : Filed s L C)
    (hfreq : ∀ p ∈ C, (node p).freq = (s.node p).freq) : Filed { s with node } L C where
  isList := h.isList
  missing := h.missing
  unique := h.unique
  lt_fresh := h.lt_fresh
  mem_iff {f p} := by
    refine h.mem_iff.trans (and_congr_right fun hp => ?_)
    rw [hfreq p hp]
  freq_pos {p} hp := (h.freq_pos hp).trans_eq (hfreq p hp).symm

theorem Filed.unlinked (h : Filed s L C) (hp : p ∈ C) :
    let L' := Function.update L (s.node p).freq ((L (s.node p).freq).erase p)
    Filed (s.unlinked p) L' (C \ {p}) ∧ Loose (s.unlinked p) L' p := by
  obtain ⟨hlisted, hloose⟩ := h.toListed.unlinked (h.mem hp)
  refine ⟨⟨hlisted, fun {g q} => ?_, fun hq => h.freq_pos hq.1⟩, hloose⟩
  change _ ↔ (q ∈ C ∧ q ≠ p) ∧ (s.node q).freq = g
  obtain rfl | hg := eq_or_ne g (s.node p).freq
  · rw [Function.update_self, (h.nodup _).mem_erase_iff, h.mem_iff]
    tauto
  · rw [Function.update_of_ne hg, h.mem_iff]
    refine ⟨fun hq => ⟨⟨hq.1, ?_⟩, hq.2⟩, fun hq => ⟨hq.1.1, hq.2⟩⟩
    rintro rfl
    exact hg hq.2.symm

variable [Inhabited Key] [Inhabited Value]

theorem Filed.addToFreqList (h : Filed s L C) (hp : p < s.fresh) (hloose : s.Loose L p)
    (hpos : 1 ≤ (s.node p).freq) :
    ∃ s', s.addToFreqList p = .ok s' ∧
      Filed s' (Function.update L (s.node p).freq (L (s.node p).freq ++ [p])) (insert p C) ∧
      Frame s s' ∧ (∀ q < s.fresh, s'.node q = s.node q) ∧ (Sentinels s → Sentinels s') := by
  obtain ⟨s', hadd, hlisted, hframe, hnode, hsentinels⟩ := h.toListed.addToFreqList hp hloose
  have hC := h.notMem_of_loose hloose
  have hsame {q : NodePtr} (hq : q ∈ insert p C) : s'.node q = s.node q := by
    obtain rfl | hq := hq
    · exact hnode q hp
    · exact hnode q (h.lt_fresh_of_mem hq)
  refine ⟨s', hadd, ⟨hlisted, fun {g q} => ?_, fun {q} hq => ?_⟩, hframe, hnode, hsentinels⟩
  · have hmem : q ∈ Function.update L (s.node p).freq (L (s.node p).freq ++ [p]) g ↔
        q = p ∧ (s.node p).freq = g ∨ q ∈ L g := by
      obtain rfl | hg := eq_or_ne g (s.node p).freq
      · rw [Function.update_self, List.mem_append, List.mem_singleton]
        tauto
      · rw [Function.update_of_ne hg]
        tauto
    rw [hmem, h.mem_iff, Set.mem_insert_iff]
    constructor
    · rintro (⟨rfl, hg⟩ | ⟨hq, hg⟩)
      · exact ⟨.inl rfl, by rwa [hsame (.inl rfl)]⟩
      · exact ⟨.inr hq, by rwa [hsame (.inr hq)]⟩
    · rintro ⟨rfl | hq, hg⟩
      · exact .inl ⟨rfl, by rwa [hsame (.inl rfl)] at hg⟩
      · exact .inr ⟨hq, by rwa [hsame (.inr hq)] at hg⟩
  · rw [hsame hq]
    obtain rfl | hq := hq
    · exact hpos
    · exact h.freq_pos hq

/-- Taking a node out of its list, changing its frequency, and putting it into the list of the new
one. -/
theorem Filed.move (h : Filed s L C) (hp : p ∈ C) (hf : 1 ≤ f) :
    s.removeFromFreqList p = .ok (s.unlinked p) ∧
    ∃ s', ((s.unlinked p).setFreq p f).addToFreqList p = .ok s' ∧
      Filed s' (relist L p (s.node p).freq f) C ∧ Frame s s' ∧
      (∀ q < s.fresh, s'.node q = Function.update s.node p { s.node p with freq := f } q) ∧
      (Sentinels s → Sentinels s') := by
  refine ⟨h.removeFromFreqList (h.mem hp), ?_⟩
  obtain ⟨hfiled, hloose⟩ := h.unlinked hp
  have hfreq : (((s.unlinked p).setFreq p f).node p).freq = f := by
    change (Function.update s.node p { s.node p with freq := f } p).freq = f
    rw [Function.update_self]
  have hfiled : Filed ((s.unlinked p).setFreq p f) _ (C \ {p}) := hfiled.congr_node fun q hq =>
    congrArg LfuNode.freq (Function.update_of_ne hq.2 ..)
  obtain ⟨s', hadd, hfiled, hframe, hnode, hsentinels⟩ :=
    hfiled.addToFreqList (h.lt_fresh_of_mem hp) hloose (hf.trans_eq hfreq.symm)
  rw [hfreq, Set.insert_sdiff_singleton, Set.insert_eq_of_mem hp] at hfiled
  refine ⟨s', hadd, hfiled, ⟨hframe.capacity, hframe.minFreq, hframe.maxAverageNum,
    hframe.curAverageNum, hframe.curTotalNum, hframe.nodeMap, hframe.fresh_le, hframe.lists⟩, hnode,
    fun hs => hsentinels (Sentinels.setFreq (h.sentinels_unlinked (h.mem hp) hs) hloose)⟩

/-- A new node goes to the list of frequency 1. -/
theorem Filed.insertNode [DecidableEq Key] (h : Filed s L C) (key : Key) (value : Value) :
    ∃ s', (s.insertNode key value).addToFreqList s.fresh = .ok s' ∧
      Filed s' (Function.update L 1 (L 1 ++ [s.fresh])) (insert s.fresh C) ∧
      Frame (s.insertNode key value) s' ∧ s'.node s.fresh = ⟨1, key, value⟩ ∧
      (∀ q < s.fresh, s'.node q = s.node q) ∧ (Sentinels s → Sentinels s') := by
  have hnew : (s.insertNode key value).node s.fresh = ⟨1, key, value⟩ := Function.update_self ..
  have hold {q : NodePtr} (hq : q < s.fresh) : (s.insertNode key value).node q = s.node q :=
    Function.update_of_ne (Nat.ne_of_lt hq) ..
  have hlisted : Listed (s.insertNode key value) L := by
    refine ⟨fun hl => (h.isList hl).congr fun q hq => ?_, h.missing, h.unique,
      fun hl hq => Nat.lt_succ_of_lt (h.lt_fresh hl hq)⟩
    have hne : q ≠ s.fresh := Nat.ne_of_lt (h.lt_fresh hl hq)
    exact ⟨Links.setNext_next_of_ne hne, Links.setPre_pre_of_ne hne⟩
  have hfiled : Filed (s.insertNode key value) L C := by
    refine ⟨hlisted, fun {f q} => h.mem_iff.trans (and_congr_right fun hq => ?_), fun hq => ?_⟩
    · rw [hold (h.lt_fresh_of_mem hq)]
    · rw [hold (h.lt_fresh_of_mem hq)]
      exact h.freq_pos hq
  have hsentinels (hs : Sentinels s) : Sentinels (s.insertNode key value) := by
    refine ⟨fun hl => ?_, fun hl => ?_⟩
    · rw [hold (h.lt_fresh hl FreqList.tail_mem_cells)]
      exact hs.freq hl
    · have hne := Nat.ne_of_lt (h.lt_fresh hl FreqList.tail_mem_cells)
      exact (Links.setNext_next_of_ne hne).trans (hs.next hl)
  obtain ⟨s', hadd, hfiled, hframe, hnode, hsentinels'⟩ :=
    hfiled.addToFreqList (Nat.lt_succ_self _) h.loose_fresh (by rw [hnew])
  rw [hnew] at hfiled
  exact ⟨s', hadd, hfiled, hframe, (hnode _ (Nat.lt_succ_self _)).trans hnew,
    fun q hq => (hnode q (Nat.lt_succ_of_lt hq)).trans (hold hq),
    fun hs => hsentinels' (hsentinels hs)⟩

end

/-! ### Reading a list -/

/-- The nodes in the list of a frequency, from the first one on. -/
def nodes (s : LfuCache Key Value) (f : Int) : List NodePtr :=
  match s.freqToFreqList.lookup f with
  | none => []
  | some l => s.links.walk l.tail s.fresh l.head

theorem Listed.nodes (h : Listed s L) (f : Int) : s.nodes f = L f := by
  rw [LfuCache.nodes]
  obtain hl | ⟨l, hl⟩ := Option.eq_none_or_eq_some (s.freqToFreqList.lookup f)
  · rw [hl, h.missing hl]
  · rw [hl]
    refine (h.isList hl).walk ?_
    have hsub : L f ⊆ List.range s.fresh := fun q hq => List.mem_range.mpr (h.fresh_of_mem hq)
    have := ((h.nodup f).subperm hsub).length_le
    rwa [List.length_range] at this

end LfuCache

end MuduoX
