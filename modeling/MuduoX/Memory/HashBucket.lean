import MuduoX.Memory.MemoryPool
import MuduoX.Theory.Run

/-! # `HashBucket`: 64 pools and `operator new`

One thread that calls `useMemory` and `freeMemory` and writes to what it has been given. Which
regions are live and which blocks `operator new` has given out are ghosts; a fresh block overlaps
none of the latter. -/

namespace MuduoX

abbrev MEMORY_POOL_NUM : Nat := 64
abbrev SLOT_BASE_SIZE : Nat := 8
abbrev MAX_SLOT_SIZE : Nat := 512

/-- What `operator new` has given out: to a pool, or to the caller of `useMemory`. -/
structure Block extends Region where
  owner : Option (Fin MEMORY_POOL_NUM)
  deriving DecidableEq, Repr

structure HashBucket where
  memory : ByteMemory
  /-- `memoryPools` of `getMemoryPool` -/
  pools : Fin MEMORY_POOL_NUM → MemoryPool
  /-- ghost: what `operator new` has given out and has not got back -/
  allocated : List Block
  /-- ghost: what `useMemory` has returned, with the size that was asked for -/
  live : List Region

namespace HashBucket

/-- The pool for a size of at least 1, and `operator new` for those above `MAX_SLOT_SIZE`. -/
def pool (size : Nat) : Option (Fin MEMORY_POOL_NUM) :=
  if h : 1 ≤ size ∧ size ≤ MAX_SLOT_SIZE then
    some ⟨(size + 7) / SLOT_BASE_SIZE - 1, by
      obtain ⟨-, h⟩ := h
      simp only [MAX_SLOT_SIZE, SLOT_BASE_SIZE, MEMORY_POOL_NUM] at h ⊢
      omega⟩
  else none

/-- Behind `initMemoryPools()`. -/
def new (memory : ByteMemory) : HashBucket where
  memory := memory
  pools i := (MemoryPool.new 4096).init ((i + 1) * SLOT_BASE_SIZE)
  allocated := []
  live := []

inductive Input where
  /-- `base` is what `operator new` answers, if it is called. -/
  | useMemory (size base : Nat)
  | freeMemory (ptr size : Nat)
  /-- The caller writes a byte to memory that it has been given. -/
  | write (p : Nat) (byte : UInt8)
  deriving DecidableEq

def setPool (i : Fin MEMORY_POOL_NUM) (p : MemoryPool) (s : HashBucket) : HashBucket :=
  { s with pools := Function.update s.pools i p }

/-- Not null, inside the address space, and apart from everything else. -/
def Fresh (s : HashBucket) (r : Region) : Prop :=
  r.base ≠ 0 ∧ r.base + r.size < 2 ^ 64 ∧ ∀ b ∈ s.allocated, r.Disjoint b.toRegion

instance (s : HashBucket) (r : Region) : Decidable (s.Fresh r) :=
  inferInstanceAs (Decidable (_ ∧ _ ∧ _))

def operatorNew (base size : Nat) (owner : Option (Fin MEMORY_POOL_NUM)) (s : HashBucket) :
    Option HashBucket :=
  if s.Fresh ⟨base, size⟩ then some { s with allocated := ⟨⟨base, size⟩, owner⟩ :: s.allocated }
  else none

/-- `MemoryPool::allocate`: the slot and what is left. -/
def allocate (i : Fin MEMORY_POOL_NUM) (base : Nat) (s : HashBucket) : Option (Nat × HashBucket) :=
  let p := s.pools i
  if p.freeList ≠ 0 then some (p.freeList, s.setPool i (p.popFree s.memory))
  else if p.lastSlot ≤ p.curSlot then
    (s.operatorNew base p.blockSize (some i)).map fun s =>
      let (m, p) := p.allocateNewBlock base s.memory
      (p.curSlot, { s with memory := m }.setPool i p.carve)
  else some (p.curSlot, s.setPool i p.carve)

/-- `MemoryPool::deallocate` -/
def deallocate (i : Fin MEMORY_POOL_NUM) (ptr : Nat) (s : HashBucket) : HashBucket :=
  if ptr ≠ 0 then
    let (m, p) := (s.pools i).pushFree ptr s.memory
    { s with memory := m }.setPool i p
  else s

-- `size < 0` is never true, as `size` is unsigned
def useMemory (size base : Nat) (s : HashBucket) : Option HashBucket :=
  match pool size with
  | some i => (s.allocate i base).map fun r => { r.2 with live := ⟨r.1, size⟩ :: r.2.live }
  | none => (s.operatorNew base size none).map fun s => { s with live := ⟨base, size⟩ :: s.live }

def freeMemory (ptr size : Nat) (s : HashBucket) : HashBucket :=
  if ptr = 0 then s
  else
    let s := { s with live := s.live.erase ⟨ptr, size⟩ }
    match pool size with
    | some i => s.deallocate i ptr
    | none => { s with allocated := s.allocated.erase ⟨⟨ptr, size⟩, none⟩ }

def step (s : HashBucket) : Input → Option HashBucket
  | .useMemory size base => if 1 ≤ size then s.useMemory size base else none
  | .freeMemory ptr size => if ⟨ptr, size⟩ ∈ s.live then some (s.freeMemory ptr size) else none
  | .write p byte =>
    if ∃ r ∈ s.live, r.base ≤ p ∧ p < r.base + r.size then
      some { s with memory := Function.update s.memory p byte }
    else none

/-! ### The sizes of the pools -/

variable {s s' : HashBucket} {i j : Fin MEMORY_POOL_NUM} {size base : Nat} {r r' : Region}

/-- The slots of the pool for a size are as large as the size rounded up to 8. -/
theorem pool_some (h : pool size = some i) :
    (i + 1) * SLOT_BASE_SIZE = 8 * ((size + 7) / 8) ∧ size ≤ (i + 1) * SLOT_BASE_SIZE := by
  rw [pool] at h
  split at h
  · rename_i hsize
    cases h
    simp only [SLOT_BASE_SIZE]
    omega
  · cases h

theorem pool_eq_none (hpos : 1 ≤ size) : pool size = none ↔ MAX_SLOT_SIZE < size := by
  rw [pool]
  split
  · exact iff_of_false (Option.some_ne_none _) (by omega)
  · exact iff_of_true rfl (by omega)

/-! ### The invariant -/

/-- The live pointers that a pool, or `operator new`, has served. -/
def bases (o : Option (Fin MEMORY_POOL_NUM)) (live : List Region) : List Nat :=
  (live.filter fun r => pool r.size = o).map Region.base

/-- `b` is a block of the pool. -/
def IsBlock (s : HashBucket) (i : Fin MEMORY_POOL_NUM) (b : Nat) : Prop :=
  ⟨⟨b, (s.pools i).blockSize⟩, some i⟩ ∈ s.allocated

/-- The slots of a pool are its live pointers and its free list. -/
structure PoolInv (free : List Nat) (s : HashBucket) (i : Fin MEMORY_POOL_NUM) : Prop where
  slotSize : (s.pools i).slotSize = (i + 1) * SLOT_BASE_SIZE
  inv : (s.pools i).Inv (s.IsBlock i) (bases (some i) s.live ++ free)
  threaded : Threaded (MemoryPool.next s.memory) (s.pools i).freeList free

/-- What `operator new` has given out. -/
structure HeapInv (s : HashBucket) : Prop where
  disjoint : ∀ b ∈ s.allocated, ∀ b' ∈ s.allocated, b ≠ b' → b.toRegion.Disjoint b'.toRegion
  bounded : ∀ b ∈ s.allocated, b.base + b.size < 2 ^ 64
  large : ∀ r ∈ s.live, pool r.size = none → ⟨r, none⟩ ∈ s.allocated
  nodup : (bases none s.live).Nodup
  pos : ∀ r ∈ s.live, 1 ≤ r.size

structure Inv (free : Fin MEMORY_POOL_NUM → List Nat) (s : HashBucket) : Prop where
  pool : ∀ i, PoolInv (free i) s i
  heap : HeapInv s

theorem inv_new (memory : ByteMemory) : Inv (fun _ => []) (new memory) := by
  refine ⟨fun i => ⟨?_, ?_, rfl⟩, ⟨?_, ?_, ?_, List.nodup_nil, ?_⟩⟩
  · refine if_neg (not_lt.mpr ?_)
    simp only [ptrSize, SLOT_BASE_SIZE]
    omega
  · have hi : (i : Nat) < 64 := i.isLt
    refine MemoryPool.Inv.blocks_congr (MemoryPool.Inv.init ?_ ?_) fun b => ?_
    · simp only [ptrSize, SLOT_BASE_SIZE]
      omega
    · simp only [ptrSize, SLOT_BASE_SIZE]
      omega
    · exact iff_of_false List.not_mem_nil id
  all_goals exact fun _ hb => absurd hb List.not_mem_nil

theorem bases_cons (o : Option (Fin MEMORY_POOL_NUM)) (r : Region) (live : List Region) :
    bases o (r :: live) = if pool r.size = o then r.base :: bases o live else bases o live := by
  simp only [bases, List.filter_cons, decide_eq_true_eq]
  split <;> rfl

theorem bases_erase (o : Option (Fin MEMORY_POOL_NUM)) {live : List Region} (hr : r ∈ live) :
    (bases o live).Perm (bases o (r :: live.erase r)) :=
  ((List.perm_cons_erase hr).filter _).map _

theorem mem_bases {o : Option (Fin MEMORY_POOL_NUM)} {live : List Region} (hr : r ∈ live)
    (ho : pool r.size = o) : r.base ∈ bases o live :=
  List.mem_map_of_mem (List.mem_filter.mpr ⟨hr, by simpa using ho⟩)

/-! ### Apart -/

/-- A slot lies in a block of its pool. -/
theorem PoolInv.exists_block {free : List Nat} {a : Nat} (h : PoolInv free s i)
    (ha : a ∈ bases (some i) s.live ++ free) :
    ∃ b ∈ s.allocated, b.owner = some i ∧ b.base + ptrSize ≤ a ∧
      (⟨a, (s.pools i).slotSize⟩ : Region).Within b.toRegion := by
  obtain ⟨b, hb, hslot, -⟩ := h.inv.slot a ha
  have hheader := hslot.header
  exact ⟨_, hb, rfl, hheader, (Nat.le_add_right ..).trans hheader, hslot.le⟩

variable {free : Fin MEMORY_POOL_NUM → List Nat} {a a' : Nat}

/-- Two slots do not overlap, whichever pools they belong to. -/
theorem Inv.slots_disjoint (h : Inv free s) (ha : a ∈ bases (some i) s.live ++ free i)
    (ha' : a' ∈ bases (some j) s.live ++ free j) (hne : i = j → a ≠ a') :
    (⟨a, (s.pools i).slotSize⟩ : Region).Disjoint ⟨a', (s.pools j).slotSize⟩ := by
  obtain rfl | hij := eq_or_ne i j
  · exact (h.pool i).inv.disjoint ha ha' (hne rfl)
  · obtain ⟨b, hb, howner, -, hin⟩ := (h.pool i).exists_block ha
    obtain ⟨b', hb', howner', -, hin'⟩ := (h.pool j).exists_block ha'
    refine (h.heap.disjoint b hb b' hb' ?_).mono hin hin'
    rintro rfl
    exact hij (Option.some.inj (howner.symm.trans howner'))

/-- The link of a slot is not touched by what is written to another one. -/
theorem Inv.next_store {v : Nat} (h : Inv free s) (ha : a ∈ bases (some i) s.live ++ free i)
    (ha' : a' ∈ bases (some j) s.live ++ free j) (hne : i = j → a ≠ a') :
    MemoryPool.next (s.memory.store a v ptrSize) a' = MemoryPool.next s.memory a' :=
  ByteMemory.load_store_of_disjoint ((h.slots_disjoint ha ha' hne).mono
    (h.pool i).inv.link_within (h.pool j).inv.link_within)

/-- What `operator new` has given to a caller does not overlap a slot. -/
theorem Inv.large_disjoint (h : Inv free s) (hr : r ∈ s.live)
    (hlarge : HashBucket.pool r.size = none)
    (ha : a ∈ bases (some i) s.live ++ free i) : r.Disjoint ⟨a, (s.pools i).slotSize⟩ := by
  obtain ⟨b, hb, howner, -, hin⟩ := (h.pool i).exists_block ha
  have hdisjoint := h.heap.disjoint _ (h.heap.large r hr hlarge) b hb (by rintro rfl; cases howner)
  exact hdisjoint.mono (Region.Within.refl _) hin

/-- A live region is no larger than its slot. -/
theorem Inv.within_slot (h : Inv free s) (hpool : HashBucket.pool r.size = some i) :
    r.Within ⟨r.base, (s.pools i).slotSize⟩ := by
  refine ⟨Nat.le_refl _, Nat.add_le_add_left ?_ _⟩
  rw [(h.pool i).slotSize]
  exact (pool_some hpool).2

/-- A live region does not overlap a free slot. -/
theorem Inv.live_free_disjoint (h : Inv free s) (hr : r ∈ s.live) (ha : a ∈ free i) :
    r.Disjoint ⟨a, (s.pools i).slotSize⟩ := by
  have hmem : a ∈ bases (some i) s.live ++ free i := List.mem_append_right _ ha
  obtain hlarge | ⟨j, hpool⟩ := Option.eq_none_or_eq_some (HashBucket.pool r.size)
  · exact h.large_disjoint hr hlarge hmem
  · have hbase := mem_bases hr hpool
    refine (h.slots_disjoint (List.mem_append_left _ hbase) hmem ?_).mono (h.within_slot hpool)
      (Region.Within.refl _)
    rintro rfl
    exact (List.nodup_append.mp (h.pool j).inv.nodup).2.2 _ hbase _ ha

/-- Two live regions from different places do not overlap. -/
theorem Inv.live_disjoint (h : Inv free s) (hr : r ∈ s.live) (hr' : r' ∈ s.live)
    (hne : (HashBucket.pool r.size, r.base) ≠ (HashBucket.pool r'.size, r'.base)) :
    r.Disjoint r' := by
  obtain hlarge | ⟨i, hpool⟩ := Option.eq_none_or_eq_some (HashBucket.pool r.size) <;>
    obtain hlarge' | ⟨j, hpool'⟩ := Option.eq_none_or_eq_some (HashBucket.pool r'.size)
  · refine h.heap.disjoint _ (h.heap.large r hr hlarge) _ (h.heap.large r' hr' hlarge') ?_
    rintro heq
    cases heq
    exact hne rfl
  · exact (h.large_disjoint hr hlarge (List.mem_append_left _ (mem_bases hr' hpool'))).mono
      (Region.Within.refl _) (h.within_slot hpool')
  · exact ((h.large_disjoint hr' hlarge' (List.mem_append_left _ (mem_bases hr hpool))).mono
      (Region.Within.refl _) (h.within_slot hpool)).symm
  · refine (h.slots_disjoint (List.mem_append_left _ (mem_bases hr hpool))
      (List.mem_append_left _ (mem_bases hr' hpool')) ?_).mono (h.within_slot hpool)
      (h.within_slot hpool')
    rintro rfl heq
    exact hne (by rw [hpool, hpool', heq])

/-! ### Steps -/

theorem PoolInv.congr {free : List Nat} (h : PoolInv free s i) (hpool : s'.pools i = s.pools i)
    (hblock : ∀ b, s'.IsBlock i b ↔ s.IsBlock i b)
    (hbases : (bases (some i) s'.live).Perm (bases (some i) s.live))
    (hnext : ∀ a ∈ free, MemoryPool.next s'.memory a = MemoryPool.next s.memory a) :
    PoolInv free s' i := by
  refine ⟨hpool ▸ h.slotSize, ?_, hpool ▸ h.threaded.congr hnext⟩
  rw [hpool]
  exact (h.inv.blocks_congr hblock).of_perm (hbases.append_right _)

/-- The step is about one pool. -/
theorem Inv.of_pool {f : List Nat} (hother : ∀ j ≠ i, PoolInv (free j) s' j) (hi : PoolInv f s' i)
    (hheap : HeapInv s') : Inv (Function.update free i f) s' := by
  refine ⟨fun j => ?_, hheap⟩
  obtain rfl | hne := eq_or_ne j i
  · rwa [Function.update_self]
  · rw [Function.update_of_ne hne]
    exact hother j hne

theorem bases_cons_self {ptr : Nat} {live : List Region} (hpool : pool size = some i) :
    bases (some i) (⟨ptr, size⟩ :: live) = ptr :: bases (some i) live :=
  (bases_cons ..).trans (if_pos hpool)

theorem bases_cons_of_ne {ptr : Nat} {live : List Region} {o : Option (Fin MEMORY_POOL_NUM)}
    (hne : pool size ≠ o) : bases o (⟨ptr, size⟩ :: live) = bases o live :=
  (bases_cons ..).trans (if_neg hne)

/-- A region that a pool has served becomes live. -/
theorem HeapInv.cons {ptr : Nat} {pools : Fin MEMORY_POOL_NUM → MemoryPool} (h : HeapInv s)
    (hpool : pool size = some i) (hpos : 1 ≤ size) :
    HeapInv { s with pools := pools, live := ⟨ptr, size⟩ :: s.live } := by
  refine ⟨h.disjoint, h.bounded, fun r hr hlarge => ?_, ?_, fun r hr => ?_⟩
  · obtain rfl | hr := List.mem_cons.mp hr
    · cases hpool.symm.trans hlarge
    · exact h.large r hr hlarge
  · rw [bases_cons_of_ne (hpool ▸ Option.some_ne_none i)]
    exact h.nodup
  · obtain rfl | hr := List.mem_cons.mp hr
    · exact hpos
    · exact h.pos r hr

/-- The other pools see nothing of it. -/
theorem PoolInv.cons_of_ne {free : List Nat} {ptr : Nat} {p : MemoryPool} (h : PoolInv free s j)
    (hpool : pool size = some i) (hne : j ≠ i) :
    PoolInv free { s.setPool i p with live := ⟨ptr, size⟩ :: s.live } j := by
  have hsame : (s.setPool i p).pools j = s.pools j := Function.update_of_ne hne ..
  have hbases : bases (some j) (⟨ptr, size⟩ :: s.live) = bases (some j) s.live :=
    bases_cons_of_ne fun heq => hne (Option.some.inj (heq.symm.trans hpool))
  refine h.congr hsame (fun b => ?_) (hbases ▸ List.Perm.refl _) fun _ _ => rfl
  simp only [IsBlock, hsame]
  rfl

/-- The first free slot is taken. -/
theorem Inv.popFree (h : Inv free s) (hpool : HashBucket.pool size = some i) (hpos : 1 ≤ size)
    (hne : (s.pools i).freeList ≠ 0) :
    ∃ free', Inv free' { s.setPool i ((s.pools i).popFree s.memory) with
      live := ⟨(s.pools i).freeList, size⟩ :: s.live } := by
  have hi := h.pool i
  obtain ⟨rest, hfree, hrest⟩ := hi.threaded.pop hne
  -- unfolding the link is slow
  rw [MemoryPool.popFree]
  generalize MemoryPool.next s.memory (s.pools i).freeList = head at hrest ⊢
  refine ⟨Function.update free i rest, Inv.of_pool (fun j hj => (h.pool j).cons_of_ne hpool hj) ?_
    (h.heap.cons hpool hpos)⟩
  have hself : (s.setPool i { s.pools i with freeList := head }).pools i =
      { s.pools i with freeList := head } := Function.update_self ..
  refine ⟨?_, ?_, ?_⟩ <;> rw [hself]
  · exact hi.slotSize
  · have hinv := hi.inv.setFreeList head
    rw [hfree] at hinv
    rw [bases_cons_self hpool]
    refine MemoryPool.Inv.blocks_congr (hinv.of_perm List.perm_middle.symm) fun b => ?_
    simp only [IsBlock, hself]
    rfl
  · exact hrest

/-- A slot is carved. -/
theorem Inv.carve (h : Inv free s) (hpool : HashBucket.pool size = some i) (hpos : 1 ≤ size)
    (hlt : (s.pools i).curSlot < (s.pools i).lastSlot) :
    Inv free { s.setPool i (s.pools i).carve with
      live := ⟨(s.pools i).curSlot, size⟩ :: s.live } := by
  have hi := h.pool i
  have hself : (s.setPool i (s.pools i).carve).pools i = (s.pools i).carve :=
    Function.update_self ..
  rw [← Function.update_eq_self i free]
  refine Inv.of_pool (fun j hj => (h.pool j).cons_of_ne hpool hj) ?_ (h.heap.cons hpool hpos)
  refine ⟨?_, ?_, ?_⟩ <;> rw [hself]
  · exact hi.slotSize
  · rw [bases_cons_self hpool]
    refine (hi.inv.carve hlt).blocks_congr fun b => ?_
    simp only [IsBlock, hself]
    rfl
  · exact hi.threaded

/-- `operator new` has given out another block. -/
theorem HeapInv.operatorNew {o : Option (Fin MEMORY_POOL_NUM)} (h : HeapInv s)
    (hfresh : s.Fresh ⟨base, size⟩) (m : ByteMemory) (pools : Fin MEMORY_POOL_NUM → MemoryPool) :
    HeapInv { s with
      memory := m, pools := pools, allocated := ⟨⟨base, size⟩, o⟩ :: s.allocated } := by
  refine ⟨fun b hb b' hb' hne => ?_, fun b hb => ?_, fun r hr hlarge => ?_, h.nodup, h.pos⟩
  · obtain rfl | hb := List.mem_cons.mp hb <;> obtain rfl | hb' := List.mem_cons.mp hb'
    · exact absurd rfl hne
    · exact hfresh.2.2 b' hb'
    · exact (hfresh.2.2 b hb).symm
    · exact h.disjoint b hb b' hb' hne
  · obtain rfl | hb := List.mem_cons.mp hb
    · exact hfresh.2.1
    · exact h.bounded b hb
  · exact List.mem_cons_of_mem _ (h.large r hr hlarge)

/-- The links of the free slots are not in a fresh block. -/
theorem Inv.next_fresh {v : Nat} (h : Inv free s) (hfresh : s.Fresh ⟨base, size⟩)
    (hsize : ptrSize ≤ size) (ha : a ∈ free i) :
    MemoryPool.next (s.memory.store base v ptrSize) a = MemoryPool.next s.memory a := by
  obtain ⟨b, hb, -, -, hin⟩ := (h.pool i).exists_block (List.mem_append_right _ ha)
  have hheader : (⟨base, ptrSize⟩ : Region).Within ⟨base, size⟩ :=
    ⟨Nat.le_refl _, Nat.add_le_add_left hsize _⟩
  exact ByteMemory.load_store_of_disjoint (((hfresh.2.2 b hb).mono (Region.Within.refl _) hin).mono
    hheader (h.pool i).inv.link_within)

/-- A block is taken for a pool without free slots. -/
theorem Inv.newBlock (h : Inv free s) (hempty : (s.pools i).freeList = 0)
    (hfresh : s.Fresh ⟨base, (s.pools i).blockSize⟩) :
    Inv free ({ s with
      memory := ((s.pools i).allocateNewBlock base s.memory).1
      allocated := ⟨⟨base, (s.pools i).blockSize⟩, some i⟩ :: s.allocated }.setPool i
        ((s.pools i).allocateNewBlock base s.memory).2) := by
  have hi := h.pool i
  have hnext {j : Fin MEMORY_POOL_NUM} : ∀ a ∈ free j, MemoryPool.next
      ((s.pools i).allocateNewBlock base s.memory).1 a = MemoryPool.next s.memory a := by
    intro a ha
    refine h.next_fresh hfresh ?_ ha
    have hfits := hi.inv.fits
    omega
  have hnil : free i = [] := by
    have hthreaded := hi.threaded
    rw [hempty] at hthreaded
    exact hthreaded.eq_nil
  rw [← Function.update_eq_self i free]
  refine Inv.of_pool (fun j hj => ?_) ?_ (h.heap.operatorNew hfresh _ _)
  · have hsame : Function.update s.pools i ((s.pools i).allocateNewBlock base s.memory).2 j =
      s.pools j := Function.update_of_ne hj ..
    refine (h.pool j).congr hsame (fun b => ?_) (List.Perm.refl _) hnext
    simp only [IsBlock, setPool, hsame, List.mem_cons, Block.mk.injEq, Option.some.injEq, hj,
      and_false, false_or]
  · have hself : Function.update s.pools i ((s.pools i).allocateNewBlock base s.memory).2 i =
      ((s.pools i).allocateNewBlock base s.memory).2 := Function.update_self ..
    have hsize := congrArg MemoryPool.blockSize hself
    refine ⟨?_, ?_, ?_⟩ <;> simp only [setPool, hself]
    · exact hi.slotSize
    · refine (hi.inv.newBlock fun b hb => hfresh.2.2 _ hb).1.blocks_congr fun b => ?_
      simp only [IsBlock, hsize, List.mem_cons, Block.mk.injEq, Region.mk.injEq]
      simp only [MemoryPool.allocateNewBlock, and_true]
    · rw [hnil]
      rfl

/-- `MemoryPool::allocate` -/
theorem Inv.allocate {r : Nat × HashBucket} (h : Inv free s)
    (hpool : HashBucket.pool size = some i) (hpos : 1 ≤ size) (hr : s.allocate i base = some r) :
    ∃ free', Inv free' { r.2 with live := ⟨r.1, size⟩ :: r.2.live } := by
  rw [HashBucket.allocate] at hr
  split at hr
  case isTrue hne =>
    cases hr
    exact h.popFree hpool hpos hne
  case isFalse hempty =>
    split at hr
    case isTrue hfull =>
      rw [operatorNew] at hr
      split at hr
      case isTrue hfresh =>
        cases hr
        have hnew := h.newBlock (not_not.mp hempty) hfresh
        have hroom := ((h.pool i).inv.newBlock (m := s.memory) fun b hb => hfresh.2.2 _ hb).2
        have hself : Function.update s.pools i ((s.pools i).allocateNewBlock base s.memory).2 i =
          ((s.pools i).allocateNewBlock base s.memory).2 := Function.update_self ..
        have hcarve := hnew.carve hpool hpos (by simpa only [setPool, hself] using hroom)
        simp only [setPool, hself, Function.update_idem] at hcarve
        exact ⟨free, hcarve⟩
      case isFalse => cases hr
    case isFalse hroom =>
      cases hr
      exact ⟨free, h.carve hpool hpos (not_le.mp hroom)⟩

/-- `operator new` for what is too large for the pools. -/
theorem Inv.large (h : Inv free s) (hpool : HashBucket.pool size = none) (hpos : 1 ≤ size)
    (hfresh : s.Fresh ⟨base, size⟩) :
    Inv free { s with
      allocated := ⟨⟨base, size⟩, none⟩ :: s.allocated, live := ⟨base, size⟩ :: s.live } := by
  refine ⟨fun i => ?_, ?_⟩
  · have hbases : bases (some i) (⟨base, size⟩ :: s.live) = bases (some i) s.live :=
      bases_cons_of_ne (hpool ▸ (Option.some_ne_none i).symm)
    refine (h.pool i).congr rfl (fun b => ?_) (hbases ▸ List.Perm.refl _) fun _ _ => rfl
    simp only [IsBlock, List.mem_cons, Block.mk.injEq, reduceCtorEq, and_false, false_or]
  · have hheap := h.heap.operatorNew (o := none) hfresh s.memory s.pools
    refine ⟨hheap.disjoint, hheap.bounded, fun r hr hlarge => ?_, ?_, fun r hr => ?_⟩
    · obtain rfl | hr := List.mem_cons.mp hr
      · exact List.mem_cons_self ..
      · exact hheap.large r hr hlarge
    · -- a live region at the same place would overlap the fresh one
      have hbases : bases none (⟨base, size⟩ :: s.live) = base :: bases none s.live :=
        (bases_cons ..).trans (if_pos hpool)
      rw [hbases]
      refine List.nodup_cons.mpr ⟨fun hmem => ?_, h.heap.nodup⟩
      obtain ⟨r, hr, hbase⟩ := List.mem_map.mp hmem
      obtain ⟨hr, hlarge⟩ := List.mem_filter.mp hr
      have hdisjoint := hfresh.2.2 _ (h.heap.large r hr (of_decide_eq_true hlarge))
      have hsize := h.heap.pos r hr
      simp only [Region.Disjoint] at hdisjoint
      omega
    · obtain rfl | hr := List.mem_cons.mp hr
      · exact hpos
      · exact h.heap.pos r hr

theorem Inv.useMemory (h : Inv free s) (hpos : 1 ≤ size) (hs : s.useMemory size base = some s') :
    ∃ free', Inv free' s' := by
  rw [HashBucket.useMemory] at hs
  split at hs
  case h_1 i hpool =>
    obtain ⟨r, hr, rfl⟩ := Option.map_eq_some_iff.mp hs
    exact h.allocate hpool hpos hr
  case h_2 hpool =>
    obtain ⟨t, ht, rfl⟩ := Option.map_eq_some_iff.mp hs
    rw [operatorNew] at ht
    split at ht
    case isTrue hfresh =>
      cases ht
      exact ⟨free, h.large hpool hpos hfresh⟩
    case isFalse => cases ht

/-- A region is not live any more. -/
theorem HeapInv.erase (h : HeapInv s) (r : Region) (m : ByteMemory)
    (pools : Fin MEMORY_POOL_NUM → MemoryPool) :
    HeapInv { s with memory := m, pools := pools, live := s.live.erase r } :=
  ⟨h.disjoint, h.bounded, fun r' hr' => h.large r' (List.mem_of_mem_erase hr'),
    h.nodup.sublist ((List.erase_sublist.filter _).map _),
    fun r' hr' => h.pos r' (List.mem_of_mem_erase hr')⟩

theorem bases_erase_of_ne {o : Option (Fin MEMORY_POOL_NUM)} {live : List Region} (hr : r ∈ live)
    (hne : pool r.size ≠ o) : (bases o (live.erase r)).Perm (bases o live) := by
  have hperm := bases_erase o hr
  rw [bases_cons, if_neg hne] at hperm
  exact hperm.symm

/-- The slot of a live region is put before the free list. -/
theorem Inv.deallocate (h : Inv free s) (hr : r ∈ s.live)
    (hpool : HashBucket.pool r.size = some i) :
    Inv (Function.update free i (r.base :: free i))
      ({ s with live := s.live.erase r }.deallocate i r.base) := by
  have hi := h.pool i
  have hslot := List.mem_append_left (free i) (mem_bases hr hpool)
  have hne : r.base ≠ 0 := by
    obtain ⟨b, -, -, hheader, -⟩ := hi.exists_block hslot
    rw [ptrSize] at hheader
    omega
  rw [HashBucket.deallocate, if_pos hne]
  have hlt : (s.pools i).freeList < 256 ^ ptrSize := by
    refine hi.threaded.head_lt (by decide) fun a ha => ?_
    obtain ⟨b, hb, -, -, hin⟩ := hi.exists_block (List.mem_append_right _ ha)
    have hbound := h.heap.bounded b hb
    have hle : a + (s.pools i).slotSize ≤ b.base + b.size := hin.2
    simp only [ptrSize]
    omega
  have hfree : ∀ a ∈ free i, r.base ≠ a := (List.nodup_append.mp hi.inv.nodup).2.2 r.base
    (mem_bases hr hpool)
  refine Inv.of_pool (fun j hj => ?_) ?_ (h.heap.erase ..)
  · have hsame : Function.update s.pools i { s.pools i with freeList := r.base } j = s.pools j :=
      Function.update_of_ne hj ..
    refine (h.pool j).congr hsame (fun b => ?_) (bases_erase_of_ne hr ?_) fun a ha => ?_
    · simp only [IsBlock, MemoryPool.pushFree, setPool, hsame]
    · exact fun heq => hj (Option.some.inj (heq.symm.trans hpool))
    · exact h.next_store hslot (List.mem_append_right _ ha) fun heq => absurd heq.symm hj
  · have hself : Function.update s.pools i { s.pools i with freeList := r.base } i =
      { s.pools i with freeList := r.base } := Function.update_self ..
    refine ⟨?_, ?_, ?_⟩ <;> simp only [MemoryPool.pushFree, setPool, hself]
    · exact hi.slotSize
    · have hperm := (bases_erase (some i) hr).symm
      rw [bases_cons, if_pos hpool] at hperm
      refine ((hi.inv.setFreeList r.base).of_perm ?_).blocks_congr fun b => ?_
      · exact List.perm_middle.trans (hperm.append_right (free i))
      · simp only [IsBlock, hself]
    · refine ⟨rfl, hne, ?_⟩
      rw [MemoryPool.next, ByteMemory.load_store_same hlt]
      exact hi.threaded.congr fun a ha => h.next_store hslot (List.mem_append_right _ ha)
        fun _ => hfree a ha

/-- `operator delete` of what is too large for the pools. -/
theorem Inv.delete (h : Inv free s) (hr : r ∈ s.live) (hpool : HashBucket.pool r.size = none) :
    Inv free { s with
      live := s.live.erase r, allocated := s.allocated.erase ⟨r, none⟩ } := by
  refine ⟨fun i => ?_, ?_⟩
  · refine (h.pool i).congr rfl (fun b => ?_)
      (bases_erase_of_ne hr (hpool ▸ (Option.some_ne_none i).symm)) fun _ _ => rfl
    exact List.mem_erase_of_ne (by simp only [ne_eq, Block.mk.injEq, reduceCtorEq, and_false,
      not_false_eq_true])
  · have hheap := h.heap.erase r s.memory s.pools
    refine ⟨fun b hb b' hb' => ?_, fun b hb => ?_, fun r' hr' hlarge => ?_, hheap.nodup, hheap.pos⟩
    · exact h.heap.disjoint b (List.mem_of_mem_erase hb) b' (List.mem_of_mem_erase hb')
    · exact h.heap.bounded b (List.mem_of_mem_erase hb)
    · -- no other large region starts there
      have hnodup := (bases_erase none hr).nodup_iff.mp h.heap.nodup
      rw [bases_cons, if_pos hpool] at hnodup
      refine (List.mem_erase_of_ne ?_).mpr (hheap.large r' hr' hlarge)
      rintro heq
      cases heq
      exact (List.nodup_cons.mp hnodup).1 (mem_bases hr' hlarge)

theorem Inv.freeMemory {ptr : Nat} (h : Inv free s) (hr : ⟨ptr, size⟩ ∈ s.live) :
    ∃ free', Inv free' (s.freeMemory ptr size) := by
  rw [HashBucket.freeMemory]
  split
  case isTrue => exact ⟨free, h⟩
  case isFalse =>
    split
    case h_1 i hpool => exact ⟨_, h.deallocate hr hpool⟩
    case h_2 hpool => exact ⟨free, h.delete hr hpool⟩

/-- What the caller writes to its memory leaves the free lists alone. -/
theorem Inv.write {p : Nat} {byte : UInt8} (h : Inv free s) (hr : r ∈ s.live)
    (hp : r.base ≤ p ∧ p < r.base + r.size) :
    Inv free { s with memory := Function.update s.memory p byte } := by
  refine ⟨fun i => ?_, ⟨h.heap.disjoint, h.heap.bounded, h.heap.large, h.heap.nodup, h.heap.pos⟩⟩
  refine (h.pool i).congr rfl (fun b => Iff.rfl) (List.Perm.refl _) fun a ha => ?_
  have hdisjoint := (h.live_free_disjoint hr ha).mono (Region.Within.refl r)
    (h.pool i).inv.link_within
  simp only [Region.Disjoint] at hdisjoint
  refine ByteMemory.load_congr fun q hq hq' => Function.update_of_ne ?_ ..
  omega

theorem Inv.step {input : Input} (h : Inv free s) (hs : s.step input = some s') :
    ∃ free', Inv free' s' := by
  cases input with
  | useMemory size base =>
    obtain ⟨hpos, hs⟩ := Option.ite_none_right_eq_some.mp hs
    exact h.useMemory hpos hs
  | freeMemory ptr size =>
    obtain ⟨hr, hs⟩ := Option.ite_none_right_eq_some.mp hs
    cases hs
    exact h.freeMemory hr
  | write p byte =>
    obtain ⟨⟨r, hr, hp⟩, hs⟩ := Option.ite_none_right_eq_some.mp hs
    cases hs
    exact ⟨free, h.write hr hp⟩

theorem inv_run {memory : ByteMemory} {inputs : List Input}
    (h : Run.run step (new memory) inputs = some s) : ∃ free, Inv free s :=
  Run.run_invariant' (I := fun s => ∃ free, Inv free s)
    (fun _ _ _ hinv hs => hinv.elim fun _ hinv => hinv.step hs) ⟨_, inv_new memory⟩ h

/-! ### Live memory -/

/-- No two live regions are the same slot, or what `operator new` has given out once. -/
theorem pairwise_ne_of_nodup {live : List Region} (hlive : ∀ o, (bases o live).Nodup) :
    live.Pairwise fun r r' => (pool r.size, r.base) ≠ (pool r'.size, r'.base) := by
  induction live with
  | nil => exact List.Pairwise.nil
  | cons r live ih =>
    refine List.pairwise_cons.mpr ⟨fun r' hr' heq => ?_, ih fun o => ?_⟩
    · obtain ⟨hpool, hbase⟩ := Prod.mk.inj heq
      have hnodup := hlive (pool r.size)
      rw [bases_cons, if_pos rfl] at hnodup
      exact (List.nodup_cons.mp hnodup).1 (hbase ▸ mem_bases hr' hpool.symm)
    · exact (hlive o).sublist (((List.sublist_cons_self r live).filter _).map _)

theorem Inv.pairwise_disjoint (h : Inv free s) : s.live.Pairwise Region.Disjoint := by
  have hnodup : ∀ o, (bases o s.live).Nodup := by
    intro o
    cases o with
    | none => exact h.heap.nodup
    | some i => exact (List.nodup_append.mp (h.pool i).inv.nodup).1
  exact (pairwise_ne_of_nodup hnodup).imp_of_mem fun hr hr' => h.live_disjoint hr hr'

/-- A live region lies in a block, behind its link if it belongs to a pool. -/
theorem Inv.live_within (h : Inv free s) (hr : r ∈ s.live) :
    ∃ b ∈ s.allocated, b.owner = HashBucket.pool r.size ∧ r.Within b.toRegion ∧
      (b.owner ≠ none → b.base + ptrSize ≤ r.base) := by
  obtain hlarge | ⟨i, hpool⟩ := Option.eq_none_or_eq_some (HashBucket.pool r.size)
  · exact ⟨_, h.heap.large r hr hlarge, hlarge.symm, Region.Within.refl r,
      fun hne => absurd rfl hne⟩
  · obtain ⟨b, hb, howner, hheader, hin⟩ := (h.pool i).exists_block
      (List.mem_append_left _ (mem_bases hr hpool))
    exact ⟨b, hb, howner.trans hpool.symm, (h.within_slot hpool).trans hin, fun _ => hheader⟩

theorem Inv.live_dvd (h : Inv free s) (hr : r ∈ s.live) (hsize : r.size ≤ MAX_SLOT_SIZE) :
    8 * ((r.size + 7) / 8) ∣ r.base := by
  obtain hlarge | ⟨i, hpool⟩ := Option.eq_none_or_eq_some (HashBucket.pool r.size)
  · exact absurd ((pool_eq_none (h.heap.pos r hr)).mp hlarge) (not_lt.mpr hsize)
  · obtain ⟨b, -, hslot, -⟩ := (h.pool i).inv.slot r.base
      (List.mem_append_left _ (mem_bases hr hpool))
    rw [← (pool_some hpool).1, ← (h.pool i).slotSize]
    exact hslot.dvd

/-- The regions of the live pointers are disjoint, lie in what `operator new` has given out, outside
the links of the blocks, and are aligned. -/
theorem live_apart_of_run {memory : ByteMemory} {inputs : List Input}
    (h : Run.run step (new memory) inputs = some s) :
    s.live.Pairwise Region.Disjoint ∧
      ∀ r ∈ s.live,
        (∃ b ∈ s.allocated, b.owner = pool r.size ∧ r.Within b.toRegion ∧
          (b.owner ≠ none → b.base + ptrSize ≤ r.base)) ∧
        (r.size ≤ MAX_SLOT_SIZE → 8 * ((r.size + 7) / 8) ∣ r.base) := by
  obtain ⟨free, hinv⟩ := inv_run h
  exact ⟨hinv.pairwise_disjoint, fun r hr => ⟨hinv.live_within hr, hinv.live_dvd hr⟩⟩

/-- Two regions from a pool, one of which is taken again, and a large one. -/
theorem live_apart_of_run_reused : ∃ s, Run.run step (new fun _ => 0)
      [.useMemory 10 4096, .useMemory 600 65536, .useMemory 9 0, .write 4120 7,
        .freeMemory 4112 10, .useMemory 16 0] = some s ∧
    s.live = [⟨4112, 16⟩, ⟨4128, 9⟩, ⟨65536, 600⟩] ∧
    s.live.Pairwise Region.Disjoint ∧
    ∀ r ∈ s.live,
      (∃ b ∈ s.allocated, b.owner = pool r.size ∧ r.Within b.toRegion ∧
        (b.owner ≠ none → b.base + ptrSize ≤ r.base)) ∧
      (r.size ≤ MAX_SLOT_SIZE → 8 * ((r.size + 7) / 8) ∣ r.base) := by
  obtain ⟨s, hs, hlive⟩ : ∃ s, Run.run step (new fun _ => 0)
      [.useMemory 10 4096, .useMemory 600 65536, .useMemory 9 0, .write 4120 7,
        .freeMemory 4112 10, .useMemory 16 0] = some s ∧
      s.live = [⟨4112, 16⟩, ⟨4128, 9⟩, ⟨65536, 600⟩] := ⟨_, rfl, rfl⟩
  exact ⟨s, hs, hlive, live_apart_of_run hs⟩

end HashBucket

end MuduoX
