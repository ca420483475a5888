import MuduoX.Bytes
import MuduoX.Memory.HashBucket

/-! # The blocks of the pools

What the pools take from `operator new` and give back to it. The blocks of a pool hang together by
their first bytes, which no slot and no region of a caller overlaps, so `~MemoryPool` finds each of
them once. A slot is carved only when no slot of the pool is free, so the blocks that a pool takes
are those that the slots in use at one time need. -/

namespace MuduoX.HashBucket

variable {s s' : HashBucket} {i j : Fin MEMORY_POOL_NUM} {size base : Nat} {r : Region}
  {free : Fin MEMORY_POOL_NUM → List Nat}

/-- The blocks of a pool, the newest one first. -/
def blocks (i : Fin MEMORY_POOL_NUM) (allocated : List Block) : List Nat :=
  (allocated.filter fun b => b.owner = some i).map fun b => b.base

/-- What `operator new` has given to callers. -/
def callers (allocated : List Block) : List Block := allocated.filter fun b => b.owner = none

/-- The live regions that are too large for the pools. -/
def large (live : List Region) : List Block :=
  (live.filter fun r => pool r.size = none).map (⟨·, none⟩)

/-! ### What `useMemory` does -/

/-- `allocateNewBlock` of a pool -/
def newBlock (i : Fin MEMORY_POOL_NUM) (base : Nat) (s : HashBucket) : HashBucket :=
  { s with
    memory := ((s.pools i).allocateNewBlock base s.memory).1
    allocated := ⟨⟨base, (s.pools i).blockSize⟩, some i⟩ :: s.allocated }.setPool i
      ((s.pools i).allocateNewBlock base s.memory).2

inductive Used (size base : Nat) (s : HashBucket) : HashBucket → Prop where
  | popFree {i : Fin MEMORY_POOL_NUM} (hpool : pool size = some i)
      (hne : (s.pools i).freeList ≠ 0) :
    Used size base s { s.setPool i ((s.pools i).popFree s.memory) with
      live := ⟨(s.pools i).freeList, size⟩ :: s.live }
  | carve {i : Fin MEMORY_POOL_NUM} (hpool : pool size = some i)
      (hempty : (s.pools i).freeList = 0)
      (hlt : (s.pools i).curSlot < (s.pools i).lastSlot) :
    Used size base s { s.setPool i (s.pools i).carve with
      live := ⟨(s.pools i).curSlot, size⟩ :: s.live }
  | newBlock {i : Fin MEMORY_POOL_NUM} (hpool : pool size = some i)
      (hempty : (s.pools i).freeList = 0)
      (hfull : (s.pools i).lastSlot ≤ (s.pools i).curSlot)
      (hfresh : s.Fresh ⟨base, (s.pools i).blockSize⟩) :
    Used size base s { (s.newBlock i base).setPool i ((s.newBlock i base).pools i).carve with
      live := ⟨((s.newBlock i base).pools i).curSlot, size⟩ :: s.live }
  | large (hpool : pool size = none) (hfresh : s.Fresh ⟨base, size⟩) :
    Used size base s { s with
      allocated := ⟨⟨base, size⟩, none⟩ :: s.allocated, live := ⟨base, size⟩ :: s.live }

theorem newBlock_pools : (s.newBlock i base).pools i =
    ((s.pools i).allocateNewBlock base s.memory).2 := Function.update_self ..

theorem newBlock_pools_of_ne (hne : j ≠ i) : (s.newBlock i base).pools j = s.pools j :=
  Function.update_of_ne hne ..

theorem used_of_useMemory (hs : s.useMemory size base = some s') : Used size base s s' := by
  rw [useMemory] at hs
  split at hs
  case h_1 i hpool =>
    obtain ⟨r, hr, rfl⟩ := Option.map_eq_some_iff.mp hs
    rw [allocate] at hr
    split at hr
    case isTrue hne =>
      cases hr
      exact .popFree hpool hne
    case isFalse hempty =>
      split at hr
      case isTrue hfull =>
        rw [operatorNew] at hr
        split at hr
        case isTrue hfresh =>
          cases hr
          have hused : Used size base s _ := .newBlock hpool (not_not.mp hempty) hfull hfresh
          rw [newBlock_pools] at hused
          simp only [newBlock, setPool, Function.update_idem] at hused
          exact hused
        case isFalse => cases hr
      case isFalse hroom =>
        cases hr
        exact .carve hpool (not_not.mp hempty) (not_le.mp hroom)
  case h_2 hpool =>
    obtain ⟨t, ht, rfl⟩ := Option.map_eq_some_iff.mp hs
    rw [operatorNew] at ht
    split at ht
    case isTrue hfresh =>
      cases ht
      exact .large hpool hfresh
    case isFalse => cases ht

/-! ### The chains of blocks -/

/-- The first bytes of a block, where the next one is found, are in no slot. -/
theorem Inv.header_disjoint {a : Nat} (h : Inv free s)
    (ha : a ∈ bases (some i) s.live ++ free i) {b : Block} (hb : b ∈ s.allocated)
    (hsize : ptrSize ≤ b.size) :
    (⟨b.base, ptrSize⟩ : Region).Disjoint ⟨a, (s.pools i).slotSize⟩ := by
  obtain ⟨b', hb', -, hheader, hin⟩ := (h.pool i).exists_block ha
  obtain rfl | hne := eq_or_ne b b'
  · exact .inl hheader
  · exact (h.heap.disjoint b hb b' hb' hne).mono
      ⟨Nat.le_refl _, Nat.add_le_add_left hsize _⟩ hin

/-- Nor are they in what a caller has. -/
theorem Inv.header_disjoint_live (h : Inv free s) (hr : r ∈ s.live) {b : Block}
    (hb : b ∈ s.allocated) (howner : b.owner ≠ none) (hsize : ptrSize ≤ b.size) :
    (⟨b.base, ptrSize⟩ : Region).Disjoint r := by
  obtain hlarge | ⟨i, hpool⟩ := Option.eq_none_or_eq_some (HashBucket.pool r.size)
  · refine (h.heap.disjoint b hb _ (h.heap.large r hr hlarge) ?_).mono
      ⟨Nat.le_refl _, Nat.add_le_add_left hsize _⟩ (Region.Within.refl r)
    rintro rfl
    exact howner rfl
  · exact (h.header_disjoint (List.mem_append_left _ (mem_bases hr hpool)) hb hsize).mono
      (Region.Within.refl _) (h.within_slot hpool)

theorem mem_blocks {allocated : List Block} {a : Nat} :
    a ∈ blocks i allocated ↔ ∃ b ∈ allocated, b.owner = some i ∧ b.base = a := by
  simp only [blocks, List.mem_map, List.mem_filter, decide_eq_true_eq, and_assoc]

theorem blocks_cons (b : Block) (allocated : List Block) : blocks i (b :: allocated) =
    if b.owner = some i then b.base :: blocks i allocated else blocks i allocated := by
  simp only [blocks, List.filter_cons, decide_eq_true_eq]
  split <;> rfl

theorem large_cons (r : Region) (live : List Region) :
    large (r :: live) = if pool r.size = none then ⟨r, none⟩ :: large live else large live := by
  simp only [large, List.filter_cons, decide_eq_true_eq]
  split <;> rfl

structure Chained (s : HashBucket) : Prop where
  blockSize : ∀ i, (s.pools i).blockSize = 4096
  size : ∀ b ∈ s.allocated, b.owner ≠ none → b.size = 4096
  chain : ∀ i, Threaded (MemoryPool.next s.memory) (s.pools i).firstBlock (blocks i s.allocated)
  callers : (callers s.allocated).Perm (large s.live)

theorem chained_new (memory : ByteMemory) : Chained (new memory) :=
  ⟨fun _ => rfl, fun _ hb => absurd hb List.not_mem_nil, fun _ => rfl, List.Perm.refl _⟩

/-- A step that takes no block and gives none back. -/
theorem Chained.congr (h : Chained s) (hallocated : s'.allocated = s.allocated)
    (hsize : ∀ i, (s'.pools i).blockSize = (s.pools i).blockSize)
    (hfirst : ∀ i, (s'.pools i).firstBlock = (s.pools i).firstBlock)
    (hlarge : (large s'.live).Perm (large s.live))
    (hnext : ∀ b ∈ s.allocated, b.owner ≠ none → ptrSize ≤ b.size →
      MemoryPool.next s'.memory b.base = MemoryPool.next s.memory b.base) : Chained s' := by
  refine ⟨fun i => (hsize i).trans (h.blockSize i), hallocated ▸ h.size, fun i => ?_, ?_⟩
  · rw [hfirst, hallocated]
    apply (h.chain i).congr
    intro a ha
    obtain ⟨b, hb, howner, rfl⟩ := mem_blocks.mp ha
    have hne : b.owner ≠ none := howner ▸ Option.some_ne_none i
    exact hnext b hb hne ((h.size b hb hne).symm ▸ by decide)
  · rw [hallocated]
    exact h.callers.trans hlarge.symm

theorem setPool_congr {α : Type} {p : MemoryPool} (f : MemoryPool → α)
    (hp : f p = f (s.pools i)) (j : Fin MEMORY_POOL_NUM) :
    f ((s.setPool i p).pools j) = f (s.pools j) := by
  obtain rfl | hne := eq_or_ne j i
  · exact (congrArg f (Function.update_self ..)).trans hp
  · exact congrArg f (Function.update_of_ne hne ..)

/-- A slot of a pool becomes live. -/
theorem Chained.cons {ptr : Nat} {p : MemoryPool} (h : Chained s) (hpool : pool size = some i)
    (hsize : p.blockSize = (s.pools i).blockSize) (hfirst : p.firstBlock = (s.pools i).firstBlock) :
    Chained { s.setPool i p with live := ⟨ptr, size⟩ :: s.live } := by
  refine h.congr rfl (setPool_congr _ hsize) (setPool_congr _ hfirst) ?_ fun _ _ _ _ => rfl
  rw [large_cons, if_neg (hpool ▸ Option.some_ne_none i)]

/-- The new block leads to the one that was the newest. -/
theorem Chained.newBlock (h : Chained s) (hinv : Inv free s)
    (hfresh : s.Fresh ⟨base, (s.pools i).blockSize⟩) : Chained (s.newBlock i base) := by
  have hlt : (s.pools i).firstBlock < 256 ^ ptrSize := by
    apply (h.chain i).head_lt (by decide)
    intro a ha
    obtain ⟨b, hb, -, rfl⟩ := mem_blocks.mp ha
    have hbound := hinv.heap.bounded b hb
    simp only [ptrSize]
    omega
  have hblock := h.blockSize i
  have hnext : ∀ b ∈ s.allocated, b.owner ≠ none → MemoryPool.next
      (s.newBlock i base).memory b.base = MemoryPool.next s.memory b.base := by
    intro b hb howner
    have hdisjoint := hfresh.2.2 b hb
    have hsize := h.size b hb howner
    simp only [Region.Disjoint] at hdisjoint
    apply ByteMemory.load_store_of_disjoint
    simp only [ptrSize]
    omega
  refine ⟨fun j => ?_, fun b hb howner => ?_, fun j => ?_, ?_⟩
  · exact (setPool_congr (p := ((s.pools i).allocateNewBlock base s.memory).2)
      MemoryPool.blockSize rfl j).trans (h.blockSize j)
  · obtain rfl | hb := List.mem_cons.mp hb
    · exact hblock
    · exact h.size b hb howner
  · have hold : Threaded (MemoryPool.next (s.newBlock i base).memory) (s.pools j).firstBlock
        (blocks j s.allocated) := by
      apply (h.chain j).congr
      intro a ha
      obtain ⟨b, hb, howner, rfl⟩ := mem_blocks.mp ha
      exact hnext b hb (howner ▸ Option.some_ne_none j)
    have hblocks : blocks j (s.newBlock i base).allocated = _ := blocks_cons ..
    rw [hblocks]
    obtain rfl | hne := eq_or_ne j i
    · rw [if_pos rfl, newBlock_pools]
      refine ⟨rfl, hfresh.1, ?_⟩
      have hlink : MemoryPool.next (s.newBlock j base).memory base = (s.pools j).firstBlock :=
        ByteMemory.load_store_same hlt
      rw [hlink]
      exact hold
    · rw [if_neg fun heq => hne (Option.some.inj heq).symm, newBlock_pools_of_ne hne]
      exact hold
  · exact h.callers

theorem Chained.useMemory (h : Chained s) (hinv : Inv free s)
    (hs : s.useMemory size base = some s') : Chained s' := by
  cases used_of_useMemory hs with
  | popFree hpool => exact h.cons hpool rfl rfl
  | carve hpool => exact h.cons hpool rfl rfl
  | newBlock hpool hempty hfull hfresh => exact (h.newBlock hinv hfresh).cons hpool rfl rfl
  | large hpool hfresh =>
    refine ⟨h.blockSize, fun b hb howner => ?_, h.chain, ?_⟩
    · obtain rfl | hb := List.mem_cons.mp hb
      · exact absurd rfl howner
      · exact h.size b hb howner
    · rw [large_cons, if_pos hpool]
      exact h.callers.cons _

theorem large_erase {live : List Region} (hr : r ∈ live) :
    (large live).Perm
      (if pool r.size = none then ⟨r, none⟩ :: large (live.erase r) else large (live.erase r)) := by
  rw [← large_cons]
  exact ((List.perm_cons_erase hr).filter _).map _

/-- What is given back to `operator delete` belongs to one pool, or to a caller. -/
theorem blocks_erase_of_ne {allocated : List Block} {b : Block} (hne : b.owner ≠ some i) :
    blocks i (allocated.erase b) = blocks i allocated := by
  rw [blocks, ← List.erase_filter, List.erase_of_not_mem, blocks]
  intro hmem
  exact hne (of_decide_eq_true (List.mem_filter.mp hmem).2)

theorem Chained.freeMemory {ptr : Nat} (h : Chained s) (hinv : Inv free s)
    (hr : ⟨ptr, size⟩ ∈ s.live) : Chained (s.freeMemory ptr size) := by
  have hlarge := large_erase hr
  rw [HashBucket.freeMemory]
  split
  case isTrue => exact h
  case isFalse hne =>
    split
    case h_1 i hpool =>
      rw [if_neg (hpool ▸ Option.some_ne_none i)] at hlarge
      rw [deallocate, if_pos hne]
      refine h.congr rfl (setPool_congr _ rfl) (setPool_congr _ rfl) hlarge.symm
        fun b hb howner hsize => ?_
      have hdisjoint := hinv.header_disjoint (i := i)
        (List.mem_append_left _ (mem_bases hr hpool)) hb hsize
      apply ByteMemory.load_store_of_disjoint
      exact (hdisjoint.mono (Region.Within.refl _) (hinv.pool i).inv.link_within).symm
    case h_2 hpool =>
      rw [if_pos hpool] at hlarge
      refine ⟨h.blockSize, fun b hb => h.size b (List.mem_of_mem_erase hb), fun i => ?_, ?_⟩
      · rw [blocks_erase_of_ne (Option.some_ne_none i).symm]
        exact h.chain i
      · have herase := (h.callers.trans hlarge).erase ⟨⟨ptr, size⟩, none⟩
        rwa [List.erase_cons_head, HashBucket.callers, List.erase_filter] at herase

theorem Chained.step {input : Input} (h : Chained s) (hinv : Inv free s)
    (hs : s.step input = some s') : Chained s' := by
  cases input with
  | useMemory size base =>
    obtain ⟨-, hs⟩ := Option.ite_none_right_eq_some.mp hs
    exact h.useMemory hinv hs
  | freeMemory ptr size =>
    obtain ⟨hr, hs⟩ := Option.ite_none_right_eq_some.mp hs
    cases hs
    exact h.freeMemory hinv hr
  | write p byte =>
    obtain ⟨⟨r, hr, hp⟩, hs⟩ := Option.ite_none_right_eq_some.mp hs
    cases hs
    refine h.congr rfl (fun _ => rfl) (fun _ => rfl) (List.Perm.refl _) fun b hb howner hsize => ?_
    have hdisjoint := hinv.header_disjoint_live hr hb howner hsize
    simp only [Region.Disjoint] at hdisjoint
    refine ByteMemory.load_congr fun q hq hq' => Function.update_of_ne ?_ ..
    omega

theorem chained_run {memory : ByteMemory} {inputs : List Input}
    (h : Run.run HashBucket.step (new memory) inputs = some s) :
    (∃ free, Inv free s) ∧ Chained s :=
  Run.run_invariant' (I := fun s => (∃ free, Inv free s) ∧ Chained s)
    (fun _ _ _ hI hs => hI.1.elim fun _ hinv => ⟨hinv.step hs, hI.2.step hinv hs⟩)
    ⟨⟨_, inv_new memory⟩, chained_new memory⟩ h

/-! ### `~MemoryPool` -/

/-- `::operator delete` of a block of a pool. What it leaves there is anything. -/
def delete (i : Fin MEMORY_POOL_NUM) (trash : ByteMemory) (cur : Nat) (s : HashBucket) :
    Except Fault HashBucket :=
  let b : Block := ⟨⟨cur, (s.pools i).blockSize⟩, some i⟩
  if b ∈ s.allocated then
    .ok { s with
      memory := fun a => if cur ≤ a ∧ a < cur + b.size then trash a else s.memory a
      allocated := s.allocated.erase b }
  else .error .invalidArgument

/-- The loop of `~MemoryPool`. -/
def destroyLoop (i : Fin MEMORY_POOL_NUM) (trash : ByteMemory) :
    Nat → Nat → HashBucket → Except Fault HashBucket
  | 0, _, _ => .error .diverge
  | fuel + 1, cur, s =>
    if cur = 0 then .ok s
    else
      let next := MemoryPool.next s.memory cur
      (s.delete i trash cur).bind (destroyLoop i trash fuel next)

-- every round but the last deletes something
def destroy (trash : ByteMemory) (s : HashBucket) (i : Fin MEMORY_POOL_NUM) :
    Except Fault HashBucket :=
  destroyLoop i trash (s.allocated.length + 1) (s.pools i).firstBlock s

/-- At exit: the elements of the static array are destroyed, the last one first. -/
def exit (trash : ByteMemory) (s : HashBucket) : Except Fault HashBucket :=
  (List.finRange MEMORY_POOL_NUM).reverse.foldlM (destroy trash) s

/-- While the pools are destroyed: what is left of their chains. -/
structure Closing (heads : Fin MEMORY_POOL_NUM → Nat) (s : HashBucket) : Prop where
  blockSize : ∀ i, (s.pools i).blockSize = 4096
  size : ∀ b ∈ s.allocated, b.owner ≠ none → b.size = 4096
  chain : ∀ i, Threaded (MemoryPool.next s.memory) (heads i) (blocks i s.allocated)
  disjoint : ∀ b ∈ s.allocated, ∀ b' ∈ s.allocated, b ≠ b' → b.toRegion.Disjoint b'.toRegion

theorem Chained.closing (h : Chained s) (hinv : Inv free s) :
    Closing (fun i => (s.pools i).firstBlock) s :=
  ⟨h.blockSize, h.size, h.chain, hinv.heap.disjoint⟩

variable {heads : Fin MEMORY_POOL_NUM → Nat} {trash : ByteMemory}

theorem blocks_erase_head {allocated : List Block} {b : Block} {rest : List Nat}
    (heq : ∀ c ∈ allocated, c.owner = some i → c.base = b.base → c = b)
    (h : blocks i allocated = b.base :: rest) : blocks i (allocated.erase b) = rest := by
  obtain ⟨c, cs, hfilter, hc, hcs⟩ := List.map_eq_cons_iff.mp h
  have hmem := List.mem_filter.mp (hfilter ▸ List.mem_cons_self ..)
  obtain rfl := heq c hmem.1 (of_decide_eq_true hmem.2) hc
  rw [blocks, ← List.erase_filter, hfilter, List.erase_cons_head, hcs]

/-- One round of the loop. -/
theorem Closing.delete (h : Closing heads s) (trash : ByteMemory) (hne : heads i ≠ 0) :
    ∃ s', s.delete i trash (heads i) = .ok s' ∧
      Closing (Function.update heads i (MemoryPool.next s.memory (heads i))) s' ∧
      s'.pools = s.pools ∧ s'.live = s.live ∧ callers s'.allocated = callers s.allocated ∧
      s'.allocated.length + 1 = s.allocated.length := by
  obtain ⟨rest, hblocks, hrest⟩ := (h.chain i).pop hne
  have hnodup := (h.chain i).nodup
  rw [hblocks] at hnodup
  obtain ⟨hhead, -⟩ := List.nodup_cons.mp hnodup
  have hunique : ∀ c ∈ s.allocated, c.owner = some i → c.base = heads i →
      c = ⟨⟨heads i, (s.pools i).blockSize⟩, some i⟩ := by
    intro c hc howner hbase
    have hsize := h.size c hc (howner ▸ Option.some_ne_none i)
    obtain ⟨⟨base, size⟩, owner⟩ := c
    simp only at howner hbase hsize
    rw [howner, hbase, hsize, h.blockSize]
  obtain ⟨b, hb, howner, hbase⟩ := mem_blocks.mp (hblocks ▸ List.mem_cons_self ..)
  obtain rfl := hunique b hb howner hbase
  have hself := blocks_erase_head (b := ⟨⟨heads i, (s.pools i).blockSize⟩, some i⟩) hunique hblocks
  refine ⟨_, if_pos hb, ⟨h.blockSize, fun c hc => h.size c (List.mem_of_mem_erase hc),
    fun j => ?_, fun c hc c' hc' => ?_⟩, rfl, rfl, ?_, ?_⟩
  · have hold : Threaded (MemoryPool.next s.memory)
        (Function.update heads i (MemoryPool.next s.memory (heads i)) j)
        (blocks j (s.allocated.erase ⟨⟨heads i, (s.pools i).blockSize⟩, some i⟩)) := by
      obtain rfl | hj := eq_or_ne j i
      · rwa [Function.update_self, hself]
      · rw [Function.update_of_ne hj, blocks_erase_of_ne fun heq => hj (Option.some.inj heq).symm]
        exact h.chain j
    apply hold.congr
    intro a ha
    -- the other blocks are elsewhere
    obtain ⟨c, hc, hcowner, rfl⟩ := mem_blocks.mp ha
    have hcne : ⟨⟨heads i, (s.pools i).blockSize⟩, some i⟩ ≠ c := by
      rintro rfl
      obtain rfl := Option.some.inj hcowner
      rw [hself] at ha
      exact hhead ha
    have hdisjoint := h.disjoint _ hb c (List.mem_of_mem_erase hc) hcne
    have hsize := h.size c (List.mem_of_mem_erase hc) (hcowner ▸ Option.some_ne_none j)
    simp only [Region.Disjoint] at hdisjoint
    refine ByteMemory.load_congr fun q hq hq' => if_neg ?_
    simp only [ptrSize] at hq' ⊢
    omega
  · exact h.disjoint c (List.mem_of_mem_erase hc) c' (List.mem_of_mem_erase hc')
  · rw [callers, ← List.erase_filter, List.erase_of_not_mem, callers]
    intro hmem
    cases of_decide_eq_true (List.mem_filter.mp hmem).2
  · rw [List.length_erase_of_mem hb]
    exact Nat.sub_add_cancel (List.length_pos_of_mem hb)

theorem Closing.destroyLoop {fuel : Nat} (h : Closing heads s) (i : Fin MEMORY_POOL_NUM)
    (trash : ByteMemory) (hfuel : s.allocated.length < fuel) :
    ∃ s', destroyLoop i trash fuel (heads i) s = .ok s' ∧
      Closing (Function.update heads i 0) s' ∧ s'.pools = s.pools ∧ s'.live = s.live ∧
      callers s'.allocated = callers s.allocated := by
  induction fuel generalizing heads s with
  | zero => exact absurd hfuel (Nat.not_lt_zero _)
  | succ fuel ih =>
    rw [HashBucket.destroyLoop]
    split
    case isTrue hzero =>
      refine ⟨s, rfl, ?_, rfl, rfl, rfl⟩
      rwa [← hzero, Function.update_eq_self]
    case isFalse hne =>
      obtain ⟨t, ht, hclosing, hpools, hlive, hcallers, hlen⟩ := h.delete trash hne
      obtain ⟨s', hs', hclosing', hpools', hlive', hcallers'⟩ := ih hclosing (by omega)
      rw [Function.update_self] at hs'
      rw [Function.update_idem] at hclosing'
      simp only [ht, Except.bind]
      exact ⟨s', hs', hclosing', hpools'.trans hpools, hlive'.trans hlive,
        hcallers'.trans hcallers⟩

/-- Destroying some of the pools leaves nothing of their chains. -/
theorem Closing.foldlM {is : List (Fin MEMORY_POOL_NUM)} (h : Closing heads s)
    (trash : ByteMemory) (his : is.Nodup) (hheads : ∀ i ∈ is, heads i = (s.pools i).firstBlock) :
    ∃ s' heads', is.foldlM (destroy trash) s = .ok s' ∧ Closing heads' s' ∧
      (∀ i, heads' i = if i ∈ is then 0 else heads i) ∧ s'.live = s.live ∧
      callers s'.allocated = callers s.allocated := by
  induction is generalizing heads s with
  | nil => exact ⟨s, heads, rfl, h, fun _ => rfl, rfl, rfl⟩
  | cons i is ih =>
    obtain ⟨hi, his⟩ := List.nodup_cons.mp his
    obtain ⟨t, ht, hclosing, hpools, hlive, hcallers⟩ :=
      h.destroyLoop i trash (Nat.lt_succ_self _)
    obtain ⟨s', heads', hs', hclosing', hheads', hlive', hcallers'⟩ := ih hclosing his (by
      intro j hj
      have hne : j ≠ i := ne_of_mem_of_not_mem hj hi
      rw [Function.update_of_ne hne, hpools]
      exact hheads j (List.mem_cons_of_mem _ hj))
    refine ⟨s', heads', ?_, hclosing', fun j => ?_, hlive'.trans hlive, hcallers'.trans hcallers⟩
    · rw [hheads i (List.mem_cons_self ..)] at ht
      rw [List.foldlM_cons, destroy, ht]
      exact hs'
    · obtain rfl | hne := eq_or_ne j i
      · rw [hheads', if_neg hi, if_pos (List.mem_cons_self ..), Function.update_self]
      · simp only [hheads', List.mem_cons, hne, false_or, Function.update_of_ne hne]

/-- **Exit gives every block back, once.** After every run, whatever the callers have written to
their memory, the loops of `~MemoryPool` end, delete nothing that is not a block of the pool or has
been deleted before, and leave of what `operator new` has given out only what callers hold that is
too large for the pools. -/
theorem exit_of_run (memory trash : ByteMemory) (inputs : List Input) (s : HashBucket)
    (h : Run.run step (new memory) inputs = some s) :
    ∃ s', s.exit trash = .ok s' ∧ s'.live = s.live ∧
      s'.allocated.Perm ((s.live.filter fun r => pool r.size = none).map (⟨·, none⟩)) := by
  obtain ⟨⟨free, hinv⟩, hchained⟩ := chained_run h
  obtain ⟨s', heads, hs', hclosing, hheads, hlive, hcallers⟩ :=
    (hchained.closing hinv).foldlM trash
      (List.nodup_reverse.mpr (List.nodup_finRange MEMORY_POOL_NUM)) fun _ _ => rfl
  refine ⟨s', hs', hlive, ?_⟩
  have hall : callers s'.allocated = s'.allocated := by
    apply List.filter_eq_self.mpr
    intro b hb
    obtain howner | ⟨i, howner⟩ := Option.eq_none_or_eq_some b.owner
    · exact decide_eq_true howner
    · -- the chain of its pool has ended
      have hchain := hclosing.chain i
      rw [hheads i, if_pos (List.mem_reverse.mpr (List.mem_finRange i))] at hchain
      have hmem := mem_blocks.mpr ⟨b, hb, howner, rfl⟩
      rw [hchain.eq_nil] at hmem
      exact absurd hmem List.not_mem_nil
  rw [← hall, hcallers]
  exact hchained.callers

/-- Two pools have a block each, and a caller has a large region and writes to a small one. -/
theorem exit_of_run_three : ∃ s s', Run.run step (new fun _ => 0) [.useMemory 8 4096,
      .useMemory 600 65536, .useMemory 16 8192, .write 4104 1, .freeMemory 4104 8] = some s ∧
    s.exit (fun _ => 255) = .ok s' ∧ s'.allocated = [⟨⟨65536, 600⟩, none⟩] := by
  obtain ⟨s, hs, hlive⟩ : ∃ s, Run.run step (new fun _ => 0) [.useMemory 8 4096,
      .useMemory 600 65536, .useMemory 16 8192, .write 4104 1, .freeMemory 4104 8] = some s ∧
    s.live = [⟨8208, 16⟩, ⟨65536, 600⟩] := ⟨_, rfl, rfl⟩
  obtain ⟨s', hs', -, hperm⟩ := exit_of_run _ (fun _ => 255) _ s hs
  rw [hlive] at hperm
  exact ⟨s, s', hs, hs', List.perm_singleton.mp hperm⟩

/-! ### How many blocks -/

/-- The slots that a block has room for, wherever it lies. -/
def perBlock (i : Fin MEMORY_POOL_NUM) : Nat :=
  (4096 - ptrSize - ((i + 1) * SLOT_BASE_SIZE - 1)) / ((i + 1) * SLOT_BASE_SIZE)

/-- The slots of the pool that have been carved. -/
def slots (i : Fin MEMORY_POOL_NUM) (free : List Nat) (s : HashBucket) : Nat :=
  (bases (some i) s.live).length + free.length

/-- `c` slots of the newest block have been carved, and all of the others. -/
structure Filled (n used c : Nat) (i : Fin MEMORY_POOL_NUM) (p : MemoryPool) : Prop where
  pos : 0 < c
  last : p.lastSlot = p.firstBlock + p.blockSize - p.slotSize + 1
  cursor : p.curSlot ≤ p.firstBlock + ptrSize + (p.slotSize - 1) + c * p.slotSize
  used : (n - 1) * perBlock i + c ≤ used

/-- The blocks of a pool are filled before another one is taken. -/
def Economy (n used : Nat) (i : Fin MEMORY_POOL_NUM) (p : MemoryPool) : Prop :=
  n = 0 ∧ p.lastSlot ≤ p.curSlot ∨ 0 < n ∧ ∃ c, Filled n used c i p

theorem Economy.carve {n used : Nat} {p : MemoryPool} (h : Economy n used i p)
    (hlt : p.curSlot < p.lastSlot) : Economy n (used + 1) i p.carve := by
  obtain ⟨-, hle⟩ | ⟨hn, c, hc⟩ := h
  · exact absurd hlt (not_lt.mpr hle)
  · refine .inr ⟨hn, c + 1, Nat.succ_pos c, hc.last, ?_, Nat.add_le_add_right hc.used 1⟩
    have hcursor := hc.cursor
    simp only [MemoryPool.carve]
    rw [Nat.succ_mul]
    omega

/-- A block that is full has as many slots as fit anywhere. -/
theorem Filled.perBlock_le {n used c : Nat} {p : MemoryPool} (h : Filled n used c i p)
    (hblock : p.blockSize = 4096) (hslot : p.slotSize = (i + 1) * SLOT_BASE_SIZE)
    (hfull : p.lastSlot ≤ p.curSlot) : perBlock i ≤ c := by
  have hlast := h.last
  have hcursor := h.cursor
  have hmul := Nat.div_mul_le_self (4096 - ptrSize - (p.slotSize - 1)) p.slotSize
  have hi : (i : Nat) < 64 := i.isLt
  rw [perBlock, ← hslot]
  apply Nat.le_of_lt_succ
  apply lt_of_mul_lt_mul_right (a := p.slotSize) _ (Nat.zero_le _)
  refine lt_of_le_of_lt hmul ?_
  rw [Nat.succ_mul]
  simp only [ptrSize, SLOT_BASE_SIZE] at *
  omega

/-- A block is taken when the newest one is full, and its first slot is carved. -/
theorem Economy.newBlock {n used : Nat} {p : MemoryPool} (h : Economy n used i p) (base : Nat)
    (m : ByteMemory) (hblock : p.blockSize = 4096) (hslot : p.slotSize = (i + 1) * SLOT_BASE_SIZE)
    (hfull : p.lastSlot ≤ p.curSlot) :
    Economy (n + 1) (used + 1) i (p.allocateNewBlock base m).2.carve := by
  refine .inr ⟨Nat.succ_pos n, 1, Nat.one_pos, rfl, ?_, Nat.add_le_add_right ?_ 1⟩
  · have hpos : 0 < p.slotSize := hslot ▸ Nat.mul_pos (Nat.succ_pos _) (by decide)
    obtain ⟨-, hle⟩ := MemoryPool.Inv.padding_spec p.slotSize (base + ptrSize) hpos
    simp only [MemoryPool.carve, MemoryPool.allocateNewBlock, Nat.one_mul]
    omega
  · obtain ⟨rfl, -⟩ | ⟨hn, c, hc⟩ := h
    · rw [Nat.add_sub_cancel, Nat.zero_mul]
      exact Nat.zero_le used
    · calc (n + 1 - 1) * perBlock i = (n - 1) * perBlock i + perBlock i := by
            rw [← Nat.succ_mul, Nat.succ_eq_add_one, Nat.sub_add_cancel hn, Nat.add_sub_cancel]
        _ ≤ (n - 1) * perBlock i + c := Nat.add_le_add_left (hc.perBlock_le hblock hslot hfull) _
        _ ≤ used := hc.used

theorem Economy.congr {n used : Nat} {p p' : MemoryPool} (h : Economy n used i p)
    (hp : { p' with freeList := p.freeList } = p) : Economy n used i p' := by
  rw [← hp] at h
  exact h.imp id fun ⟨hn, c, hc⟩ => ⟨hn, c, hc.pos, hc.last, hc.cursor, hc.used⟩

/-- What a step leaves: the pool has not carved a slot, or none of its slots was free. -/
structure Stepped (i : Fin MEMORY_POOL_NUM) (f : List Nat) (s : HashBucket)
    (free : Fin MEMORY_POOL_NUM → List Nat) (s' : HashBucket) : Prop where
  inv : Inv free s'
  economy : Economy (blocks i s'.allocated).length (slots i (free i) s') i (s'.pools i)
  carved : slots i (free i) s' = slots i f s ∨ free i = []

theorem slots_congr {f f' : List Nat} (hf : f' = f)
    (hbases : bases (some i) s'.live = bases (some i) s.live) : slots i f' s' = slots i f s := by
  rw [slots, slots, hf, hbases]

section
variable {free' : Fin MEMORY_POOL_NUM → List Nat}
  (h : Economy (blocks i s.allocated).length (slots i (free i) s) i (s.pools i))
include h

/-- A step that leaves the slots of the pool as they are. -/
theorem Stepped.of_slots (hinv : Inv free' s')
    (hblocks : blocks i s'.allocated = blocks i s.allocated)
    (hp : { s'.pools i with freeList := (s.pools i).freeList } = s.pools i)
    (hslots : slots i (free' i) s' = slots i (free i) s) : Stepped i (free i) s free' s' :=
  ⟨hinv, by rw [hblocks, hslots]; exact h.congr hp, .inl hslots⟩

/-- A step of another pool. -/
theorem Stepped.of_ne (hpool : pool size = some j) (hne : i ≠ j) {ptr : Nat} (hinv : Inv free' s')
    (hblocks : blocks i s'.allocated = blocks i s.allocated) (hp : s'.pools i = s.pools i)
    (hlive : s'.live = ⟨ptr, size⟩ :: s.live) (hfree : free' i = free i) :
    Stepped i (free i) s free' s' := by
  refine Stepped.of_slots h hinv hblocks (by rw [hp]) (slots_congr hfree ?_)
  rw [hlive, bases_cons_of_ne fun heq => hne (Option.some.inj (heq.symm.trans hpool))]

/-- A slot is taken from the free list. -/
theorem Stepped.pop {head ptr : Nat} {rest : List Nat} (hinv : Inv free s)
    (hpool : pool size = some j) (hfree : free j = ptr :: rest)
    (hrest : Threaded (MemoryPool.next s.memory) head rest)
    (hinv' : Inv free' { s.setPool j { s.pools j with freeList := head } with
      live := ⟨ptr, size⟩ :: s.live }) :
    Stepped i (free i) s free' { s.setPool j { s.pools j with freeList := head } with
      live := ⟨ptr, size⟩ :: s.live } := by
  have hthreaded := (hinv'.pool i).threaded
  obtain rfl | hij := eq_or_ne i j
  · have hself : (s.setPool i { s.pools i with freeList := head }).pools i =
      { s.pools i with freeList := head } := Function.update_self ..
    rw [hself] at hthreaded
    refine Stepped.of_slots h hinv' rfl (by rw [hself]) ?_
    rw [slots, slots, hthreaded.unique hrest, hfree, bases_cons_self hpool, List.length_cons,
      List.length_cons]
    omega
  · have hsame : (s.setPool j { s.pools j with freeList := head }).pools i = s.pools i :=
      Function.update_of_ne hij ..
    rw [hsame] at hthreaded
    exact Stepped.of_ne h hpool hij hinv' rfl hsame rfl
      (hthreaded.unique (hinv.pool i).threaded)

theorem Stepped.popFree (hinv : Inv free s) (hpool : pool size = some j) (hpos : 1 ≤ size)
    (hne : (s.pools j).freeList ≠ 0) :
    ∃ free', Stepped i (free i) s free' { s.setPool j ((s.pools j).popFree s.memory) with
      live := ⟨(s.pools j).freeList, size⟩ :: s.live } := by
  obtain ⟨rest, hfree, hrest⟩ := (hinv.pool j).threaded.pop hne
  obtain ⟨free', hinv'⟩ := hinv.popFree hpool hpos hne
  -- unfolding the link is slow
  rw [MemoryPool.popFree] at hinv' ⊢
  generalize MemoryPool.next s.memory (s.pools j).freeList = head at hrest hinv' ⊢
  exact ⟨free', Stepped.pop h hinv hpool hfree hrest hinv'⟩

theorem Stepped.carve (hinv : Inv free s) (hpool : pool size = some j) (hpos : 1 ≤ size)
    (hempty : (s.pools j).freeList = 0) (hlt : (s.pools j).curSlot < (s.pools j).lastSlot) :
    Stepped i (free i) s free { s.setPool j (s.pools j).carve with
      live := ⟨(s.pools j).curSlot, size⟩ :: s.live } := by
  have hinv' := hinv.carve hpool hpos hlt
  obtain rfl | hij := eq_or_ne i j
  · have hthreaded := (hinv.pool i).threaded
    rw [hempty] at hthreaded
    refine ⟨hinv', ?_, .inr hthreaded.eq_nil⟩
    have hself : Function.update s.pools i (s.pools i).carve i = (s.pools i).carve :=
      Function.update_self ..
    simp only [setPool, hself, slots, bases_cons_self hpool, List.length_cons, Nat.succ_add]
    exact h.carve hlt
  · exact Stepped.of_ne h hpool hij hinv' rfl (Function.update_of_ne hij ..) rfl rfl

theorem Stepped.newBlock (hinv : Inv free s) (hchained : Chained s) (hpool : pool size = some j)
    (hpos : 1 ≤ size) (hempty : (s.pools j).freeList = 0)
    (hfull : (s.pools j).lastSlot ≤ (s.pools j).curSlot)
    (hfresh : s.Fresh ⟨base, (s.pools j).blockSize⟩) :
    Stepped i (free i) s free
      { (s.newBlock j base).setPool j ((s.newBlock j base).pools j).carve with
        live := ⟨((s.newBlock j base).pools j).curSlot, size⟩ :: s.live } := by
  have hroom := ((hinv.pool j).inv.newBlock (m := s.memory) fun b hb => hfresh.2.2 _ hb).2
  rw [← newBlock_pools] at hroom
  have hinv' := (hinv.newBlock hempty hfresh).carve hpool hpos hroom
  have hblocks : blocks i (s.newBlock j base).allocated = _ := blocks_cons ..
  obtain rfl | hij := eq_or_ne i j
  · have hthreaded := (hinv.pool i).threaded
    rw [hempty] at hthreaded
    refine ⟨hinv', ?_, .inr hthreaded.eq_nil⟩
    rw [if_pos rfl] at hblocks
    have hself : ((s.newBlock i base).setPool i ((s.newBlock i base).pools i).carve).pools i =
      ((s.newBlock i base).pools i).carve := Function.update_self ..
    have heconomy := h.newBlock base s.memory (hchained.blockSize i)
      (hinv.pool i).slotSize hfull
    rw [← newBlock_pools, ← hself] at heconomy
    simp only [slots, bases_cons_self hpool, List.length_cons, Nat.succ_add]
    have hlen : (blocks i (s.newBlock i base).allocated).length =
        (blocks i s.allocated).length + 1 := by rw [hblocks, List.length_cons]
    rw [← hlen] at heconomy
    exact heconomy
  · rw [if_neg fun heq => hij (Option.some.inj heq).symm] at hblocks
    exact Stepped.of_ne h hpool hij hinv' hblocks
      ((Function.update_of_ne hij ..).trans (newBlock_pools_of_ne hij)) rfl rfl

theorem Stepped.useMemory (hinv : Inv free s) (hchained : Chained s) (hpos : 1 ≤ size)
    (hs : s.useMemory size base = some s') : ∃ free', Stepped i (free i) s free' s' := by
  cases used_of_useMemory hs with
  | popFree hpool hne => exact Stepped.popFree h hinv hpool hpos hne
  | carve hpool hempty hlt => exact ⟨free, Stepped.carve h hinv hpool hpos hempty hlt⟩
  | newBlock hpool hempty hfull hfresh =>
    exact ⟨free, Stepped.newBlock h hinv hchained hpool hpos hempty hfull hfresh⟩
  | large hpool hfresh =>
    have hne : pool size ≠ some i := hpool ▸ (Option.some_ne_none i).symm
    refine ⟨free, Stepped.of_slots h (hinv.large hpool hpos hfresh) ?_ rfl
      (slots_congr rfl (bases_cons_of_ne hne))⟩
    rw [blocks_cons, if_neg (Option.some_ne_none i).symm]

end

theorem Stepped.freeMemory {ptr : Nat}
    (h : Economy (blocks i s.allocated).length (HashBucket.slots i (free i) s) i (s.pools i))
    (hinv : Inv free s) (hr : ⟨ptr, size⟩ ∈ s.live) :
    ∃ free', Stepped i (free i) s free' (s.freeMemory ptr size) := by
  rw [HashBucket.freeMemory]
  split
  case isTrue => exact ⟨free, hinv, h, .inl rfl⟩
  case isFalse hne =>
    split
    case h_1 j hpool =>
      have hinv' := hinv.deallocate hr hpool
      rw [deallocate, if_pos hne] at hinv' ⊢
      refine ⟨_, Stepped.of_slots h hinv' rfl ?_ ?_⟩
      · exact setPool_congr (p := { s.pools j with freeList := ptr })
          (fun p : MemoryPool => { p with freeList := (s.pools i).freeList }) rfl i
      · obtain rfl | hij := eq_or_ne i j
        · have hlen := (bases_erase (some i) hr).length_eq
          rw [bases_cons_self hpool, List.length_cons] at hlen
          simp only [HashBucket.slots, setPool, Function.update_self, List.length_cons, hlen]
          omega
        · have hlen := (bases_erase_of_ne (o := some i) hr fun heq =>
            hij (Option.some.inj (heq.symm.trans hpool))).length_eq
          simp only [HashBucket.slots, setPool, Function.update_of_ne hij, hlen]
    case h_2 hpool =>
      have hnone : pool size ≠ some i := hpool ▸ (Option.some_ne_none i).symm
      refine ⟨free, Stepped.of_slots h (hinv.delete hr hpool)
        (blocks_erase_of_ne (Option.some_ne_none i).symm) rfl ?_⟩
      simp only [HashBucket.slots, (bases_erase_of_ne hr hnone).length_eq]

theorem Stepped.step {input : Input}
    (h : Economy (blocks i s.allocated).length (HashBucket.slots i (free i) s) i (s.pools i))
    (hinv : Inv free s) (hchained : Chained s) (hs : s.step input = some s') :
    ∃ free', Stepped i (free i) s free' s' := by
  cases input with
  | useMemory size base =>
    obtain ⟨hpos, hs⟩ := Option.ite_none_right_eq_some.mp hs
    exact Stepped.useMemory h hinv hchained hpos hs
  | freeMemory ptr size =>
    obtain ⟨hr, hs⟩ := Option.ite_none_right_eq_some.mp hs
    cases hs
    exact Stepped.freeMemory h hinv hr
  | write p byte =>
    obtain ⟨⟨r, hr, hp⟩, hs⟩ := Option.ite_none_right_eq_some.mp hs
    cases hs
    exact ⟨free, hinv.write hr hp, h, .inl rfl⟩

/-- The regions of a pool that callers hold. -/
def held (i : Fin MEMORY_POOL_NUM) (s : HashBucket) : Nat := (bases (some i) s.live).length

/-- **A pool takes the blocks that its busiest moment needs.** In every run in which callers never
hold more than `M` regions of a pool at a time, however many they take and give back, the pool takes
no more blocks from `operator new` than `M` slots fill. -/
theorem blocks_le (memory : ByteMemory) (inputs : List Input) (s : HashBucket)
    (i : Fin MEMORY_POOL_NUM) (M : Nat)
    (hM : Run.Along step (fun s input => ∀ s' ∈ s.step input, s'.held i ≤ M) (new memory) inputs)
    (h : Run.run step (new memory) inputs = some s) :
    (s.allocated.filter fun b => b.owner = some i).length ≤ (M + perBlock i - 1) / perBlock i := by
  have hi : (i : Nat) < 64 := i.isLt
  obtain ⟨free, -, -, heconomy, hslots⟩ := Run.run_invariant
    (I := fun s => ∃ free, Inv free s ∧ Chained s ∧
      Economy (blocks i s.allocated).length (slots i (free i) s) i (s.pools i) ∧
      slots i (free i) s ≤ M)
    (fun s input s' hI hM hs => by
      obtain ⟨free, hinv, hchained, heconomy, hslots⟩ := hI
      obtain ⟨free', hstepped⟩ := Stepped.step heconomy hinv hchained hs
      refine ⟨free', hstepped.inv, hchained.step hinv hs, hstepped.economy, ?_⟩
      obtain heq | hnil := hstepped.carved
      · exact heq ▸ hslots
      · rw [slots, hnil]
        exact hM s' hs)
    ⟨_, inv_new memory, chained_new memory, .inl ⟨rfl, Nat.le_refl _⟩, Nat.zero_le M⟩ hM h
  have hpos : 0 < perBlock i := by
    apply Nat.div_pos _ (by simp only [SLOT_BASE_SIZE]; omega)
    simp only [ptrSize, SLOT_BASE_SIZE]
    omega
  rw [Nat.le_div_iff_mul_le hpos, ← List.length_map (f := fun b : Block => b.base)]
  change (blocks i s.allocated).length * _ ≤ _
  obtain ⟨hzero, -⟩ | ⟨hn, c, hc⟩ := heconomy
  · rw [hzero, Nat.zero_mul]
    exact Nat.zero_le _
  · have hused := hc.used
    have hcpos := hc.pos
    obtain ⟨n, hn⟩ := Nat.exists_eq_succ_of_ne_zero hn.ne'
    rw [hn, Nat.succ_sub_one] at hused
    rw [hn, Nat.succ_mul]
    omega

/-- One slot is taken, given back and taken again. -/
theorem blocks_le_one : ∃ s, Run.run step (new fun _ => 0) [.useMemory 512 4096,
      .freeMemory 4608 512, .useMemory 512 0] = some s ∧
    (s.allocated.filter fun b => b.owner = some 63).length ≤ 1 := by
  obtain ⟨s, hs⟩ := Option.isSome_iff_exists.mp (show (Run.run step (new fun _ => 0)
    [.useMemory 512 4096, .freeMemory 4608 512, .useMemory 512 0]).isSome by decide)
  exact ⟨s, hs, blocks_le _ _ s 63 1 (by decide) hs⟩

end MuduoX.HashBucket
