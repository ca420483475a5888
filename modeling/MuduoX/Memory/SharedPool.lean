import MuduoX.Loop.EventLoop
import MuduoX.Memory.HashBucket

/-! # `MemoryPool` between threads

Any number of threads call `allocate` and `deallocate` of one pool. A step is a locked section, the
test of `freeList_` without a lock, the return of a call, or a write of a caller to a slot that it
has been given. Which slots have been carved, which are live, and the blocks are ghosts. -/

namespace MuduoX

/-- Where a thread is in `allocate()`. -/
inductive Allocating where
  | outside
  /-- `freeList_` was not null; before the section of `mutexForFreeList_` -/
  | testedFreeList
  /-- before the section of `mutexForBlock_` -/
  | toBlock
  /-- `temp` is what it returns. -/
  | returning (temp : Nat)
  deriving DecidableEq, Repr

structure SharedPool where
  memory : ByteMemory
  pool : MemoryPool
  thread : ThreadId → Allocating
  /-- ghost: what `operator new` has answered -/
  blocks : List Nat
  /-- ghost: every slot that has been carved from a block -/
  carved : List Nat
  /-- ghost: the slots that have been returned and not been deallocated since -/
  live : List Nat

namespace SharedPool

/-- A pool behind `initMemoryPools()`. -/
def new (i : Fin MEMORY_POOL_NUM) (memory : ByteMemory) : SharedPool where
  memory := memory
  pool := (MemoryPool.new 4096).init ((i + 1) * SLOT_BASE_SIZE)
  thread _ := .outside
  blocks := []
  carved := []
  live := []

inductive Input where
  /-- `allocate()` is called, up to the first test of `freeList_`. -/
  | allocate (t : ThreadId)
  /-- the section of `mutexForFreeList_` in `allocate` -/
  | lockFreeList (t : ThreadId)
  /-- the section of `mutexForBlock_`; `base` is what `operator new` answers, if it is called -/
  | lockBlock (t : ThreadId) (base : Nat)
  | return (t : ThreadId)
  /-- `deallocate(ptr)`, which is one locked section -/
  | deallocate (t : ThreadId) (ptr : Nat)
  /-- A caller writes a byte to a slot that it has been given. -/
  | write (p : Nat) (byte : UInt8)
  deriving DecidableEq

/-- Not null, inside the address space, and apart from the other blocks. -/
def Fresh (s : SharedPool) (base : Nat) : Prop :=
  base ≠ 0 ∧ base + s.pool.blockSize < 2 ^ 64 ∧
    ∀ b ∈ s.blocks, (⟨base, s.pool.blockSize⟩ : Region).Disjoint ⟨b, s.pool.blockSize⟩

instance (s : SharedPool) (base : Nat) : Decidable (s.Fresh base) :=
  inferInstanceAs (Decidable (_ ∧ _ ∧ _))

def setThread (t : ThreadId) (a : Allocating) (s : SharedPool) : SharedPool :=
  { s with thread := Function.update s.thread t a }

def allocateNewBlock (base : Nat) (s : SharedPool) : SharedPool :=
  let (m, p) := s.pool.allocateNewBlock base s.memory
  { s with memory := m, pool := p, blocks := base :: s.blocks }

/-- `temp = curSlot_`, and behind it. -/
def carve (t : ThreadId) (s : SharedPool) : SharedPool :=
  { s with pool := s.pool.carve, carved := s.pool.curSlot :: s.carved }.setThread t
    (.returning s.pool.curSlot)

def step (s : SharedPool) : Input → Option SharedPool
  | .allocate t =>
    if s.thread t = .outside then
      some (s.setThread t (if s.pool.freeList ≠ 0 then .testedFreeList else .toBlock))
    else none
  | .lockFreeList t =>
    if s.thread t = .testedFreeList then
      some (if s.pool.freeList ≠ 0 then
        { s with pool := s.pool.popFree s.memory }.setThread t (.returning s.pool.freeList)
      else s.setThread t .toBlock)
    else none
  | .lockBlock t base =>
    if s.thread t = .toBlock then
      if s.pool.lastSlot ≤ s.pool.curSlot then
        if s.Fresh base then some ((s.allocateNewBlock base).carve t) else none
      else some (s.carve t)
    else none
  | .return t =>
    match s.thread t with
    | .returning temp => some ({ s with live := temp :: s.live }.setThread t .outside)
    | _ => none
  | .deallocate t ptr =>
    if s.thread t = .outside ∧ ptr ∈ s.live then
      if ptr ≠ 0 then
        let (m, p) := s.pool.pushFree ptr s.memory
        some { s with memory := m, pool := p, live := s.live.erase ptr }
      else some s
    else none
  | .write p byte =>
    if ∃ a ∈ s.live, a ≤ p ∧ p < a + s.pool.slotSize then
      some { s with memory := Function.update s.memory p byte }
    else none

/-! ### What becomes of a slot -/

/-- `freeList_` leads to the slot. -/
def InFreeList (s : SharedPool) (a : Nat) : Prop :=
  ∃ free, Threaded (MemoryPool.next s.memory) s.pool.freeList free ∧ a ∈ free

/-- No slot is leaked. -/
def Accounted (s : SharedPool) : Prop :=
  ∀ a ∈ s.carved, a ∈ s.live ∨ (∃ t, s.thread t = .returning a) ∨ s.InFreeList a

/-- No slot is handed to two callers. -/
structure HandedOnce (s : SharedPool) : Prop where
  live : s.live.Nodup
  returning : ∀ t a, s.thread t = .returning a → a ∉ s.live
  unique : ∀ t t' a, s.thread t = .returning a → s.thread t' = .returning a → t = t'

/-- A new block is only taken while the free list is empty. -/
def FreeListEmpty (s : SharedPool) : Input → Prop
  | .lockBlock _ _ => s.pool.lastSlot ≤ s.pool.curSlot → s.pool.freeList = 0
  | _ => True

instance (s : SharedPool) : ∀ i, Decidable (s.FreeListEmpty i)
  | .lockBlock _ _ =>
    inferInstanceAs (Decidable (s.pool.lastSlot ≤ s.pool.curSlot → s.pool.freeList = 0))
  | .allocate _ | .lockFreeList _ | .return _ | .deallocate _ _ | .write _ _ => isTrue trivial

/-! ### The place of every slot -/

inductive Place where
  | uncarved
  | live
  | returning (t : ThreadId)
  | free
  deriving DecidableEq

variable {s s' : SharedPool} {place : Nat → Place} {free rest live carved : List Nat}
  {thread : ThreadId → Allocating} {t : ThreadId} {a base : Nat}

/-- Every slot is in the one place that `place` says. -/
structure Placed (place : Nat → Place) (carved live free : List Nat)
    (thread : ThreadId → Allocating) : Prop where
  mem_carved : ∀ a, a ∈ carved ↔ place a ≠ .uncarved
  mem_live : ∀ a, a ∈ live ↔ place a = .live
  returning : ∀ a t, thread t = .returning a ↔ place a = .returning t
  mem_free : ∀ a, a ∈ free ↔ place a = .free
  live_nodup : live.Nodup
  free_nodup : free.Nodup

namespace Placed

/-- A thread gets on without a slot. -/
theorem setThread {x : Allocating} (h : Placed place carved live free thread)
    (hold : ∀ a, thread t ≠ .returning a) (hnew : ∀ a, x ≠ .returning a) :
    Placed place carved live free (Function.update thread t x) := by
  refine ⟨h.mem_carved, h.mem_live, fun a u => ?_, h.mem_free, h.live_nodup, h.free_nodup⟩
  obtain rfl | hu := eq_or_ne u t
  · rw [Function.update_self]
    exact iff_of_false (hnew a) (mt (h.returning a u).mpr (hold a))
  · rw [Function.update_of_ne hu]
    exact h.returning a u

/-- A thread takes a slot that is new, or the first free one. -/
theorem take (h : Placed place carved live free thread) (hold : ∀ b, thread t ≠ .returning b)
    {carved' : List Nat} (hcarved : ∀ b, b ∈ carved' ↔ b = a ∨ b ∈ carved)
    (hfree : ∀ b, b ∈ rest ↔ b ≠ a ∧ b ∈ free) (hlive : a ∉ live)
    (hreturning : ∀ u, thread u ≠ .returning a) (hnodup : rest.Nodup) :
    Placed (Function.update place a (.returning t)) carved' live rest
      (Function.update thread t (.returning a)) := by
  refine ⟨fun b => ?_, fun b => ?_, fun b u => ?_, fun b => ?_, h.live_nodup, hnodup⟩
  · obtain rfl | hb := eq_or_ne b a
    · rw [Function.update_self]
      exact iff_of_true ((hcarved b).mpr (.inl rfl)) nofun
    · rw [Function.update_of_ne hb, hcarved, ← h.mem_carved]
      exact or_iff_right hb
  · obtain rfl | hb := eq_or_ne b a
    · rw [Function.update_self]
      exact iff_of_false hlive nofun
    · rw [Function.update_of_ne hb]
      exact h.mem_live b
  · obtain rfl | hu := eq_or_ne u t <;> obtain rfl | hb := eq_or_ne b a
    · rw [Function.update_self, Function.update_self]
      exact iff_of_true rfl rfl
    · rw [Function.update_self, Function.update_of_ne hb]
      exact iff_of_false (fun heq => hb (Allocating.returning.inj heq).symm)
        (mt (h.returning b u).mpr (hold b))
    · rw [Function.update_of_ne hu, Function.update_self]
      exact iff_of_false (hreturning u) fun heq => hu (Place.returning.inj heq).symm
    · rw [Function.update_of_ne hu, Function.update_of_ne hb]
      exact h.returning b u
  · obtain rfl | hb := eq_or_ne b a
    · rw [Function.update_self]
      exact iff_of_false (fun hmem => ((hfree b).mp hmem).1 rfl) nofun
    · rw [Function.update_of_ne hb, hfree, ← h.mem_free]
      exact and_iff_right hb

/-- A thread returns its slot. -/
theorem hand (h : Placed place carved live free thread) (ha : thread t = .returning a) :
    Placed (Function.update place a .live) carved (a :: live) free
      (Function.update thread t .outside) := by
  have hplace := (h.returning a t).mp ha
  refine ⟨fun b => ?_, fun b => ?_, fun b u => ?_, fun b => ?_, ?_, h.free_nodup⟩
  · obtain rfl | hb := eq_or_ne b a
    · rw [Function.update_self]
      exact iff_of_true ((h.mem_carved b).mpr (hplace ▸ nofun)) nofun
    · rw [Function.update_of_ne hb]
      exact h.mem_carved b
  · obtain rfl | hb := eq_or_ne b a
    · rw [Function.update_self]
      exact iff_of_true (List.mem_cons_self ..) rfl
    · rw [Function.update_of_ne hb, List.mem_cons, ← h.mem_live]
      exact or_iff_right hb
  · obtain rfl | hu := eq_or_ne u t <;> obtain rfl | hb := eq_or_ne b a
    · rw [Function.update_self, Function.update_self]
      exact iff_of_false nofun nofun
    · rw [Function.update_self, Function.update_of_ne hb, ← h.returning, ha]
      exact iff_of_false nofun fun heq => hb (Allocating.returning.inj heq).symm
    · rw [Function.update_of_ne hu, Function.update_self, h.returning, hplace]
      exact iff_of_false (fun heq => hu (Place.returning.inj heq).symm) nofun
    · rw [Function.update_of_ne hu, Function.update_of_ne hb]
      exact h.returning b u
  · obtain rfl | hb := eq_or_ne b a
    · rw [Function.update_self, h.mem_free, hplace]
      exact iff_of_false nofun nofun
    · rw [Function.update_of_ne hb]
      exact h.mem_free b
  · refine List.nodup_cons.mpr ⟨?_, h.live_nodup⟩
    rw [h.mem_live, hplace]
    exact nofun

/-- A live slot is given back. -/
theorem give (h : Placed place carved live free thread) (ha : a ∈ live) :
    Placed (Function.update place a .free) carved (live.erase a) (a :: free) thread := by
  have hplace := (h.mem_live a).mp ha
  refine ⟨fun b => ?_, fun b => ?_, fun b u => ?_, fun b => ?_, h.live_nodup.erase a, ?_⟩
  · obtain rfl | hb := eq_or_ne b a
    · rw [Function.update_self]
      exact iff_of_true ((h.mem_carved b).mpr (hplace ▸ nofun)) nofun
    · rw [Function.update_of_ne hb]
      exact h.mem_carved b
  · rw [h.live_nodup.mem_erase_iff]
    obtain rfl | hb := eq_or_ne b a
    · rw [Function.update_self]
      exact iff_of_false (fun hmem => hmem.1 rfl) nofun
    · rw [Function.update_of_ne hb, ← h.mem_live]
      exact and_iff_right hb
  · obtain rfl | hb := eq_or_ne b a
    · rw [Function.update_self, h.returning, hplace]
      exact iff_of_false nofun nofun
    · rw [Function.update_of_ne hb]
      exact h.returning b u
  · obtain rfl | hb := eq_or_ne b a
    · rw [Function.update_self]
      exact iff_of_true (List.mem_cons_self ..) rfl
    · rw [Function.update_of_ne hb, List.mem_cons, ← h.mem_free]
      exact or_iff_right hb
  · refine List.nodup_cons.mpr ⟨?_, h.free_nodup⟩
    rw [h.mem_free, hplace]
    exact nofun

theorem handedOnce (h : Placed place s.carved s.live free s.thread) : s.HandedOnce := by
  refine ⟨h.live_nodup, fun t a ha hlive => ?_, fun t t' a ha ha' => ?_⟩
  · cases ((h.returning a t).mp ha).symm.trans ((h.mem_live a).mp hlive)
  · exact Place.returning.inj (((h.returning a t).mp ha).symm.trans ((h.returning a t').mp ha'))

end Placed

/-! ### The invariant -/

structure Inv (place : Nat → Place) (free : List Nat) (s : SharedPool) : Prop where
  pool : s.pool.Inv (fun b => b ∈ s.blocks) s.carved
  bounded : ∀ b ∈ s.blocks, b + s.pool.blockSize < 2 ^ 64
  threaded : Threaded (MemoryPool.next s.memory) s.pool.freeList free
  placed : Placed place s.carved s.live free s.thread

theorem inv_new (i : Fin MEMORY_POOL_NUM) (memory : ByteMemory) :
    Inv (fun _ => .uncarved) [] (new i memory) := by
  have hi : (i : Nat) < 64 := i.isLt
  refine ⟨(MemoryPool.Inv.init ?_ ?_).blocks_congr fun b => ?_, fun b hb => ?_, rfl, ?_⟩
  · simp only [ptrSize, SLOT_BASE_SIZE]
    omega
  · simp only [ptrSize, SLOT_BASE_SIZE]
    omega
  · exact iff_of_false List.not_mem_nil id
  · exact absurd hb List.not_mem_nil
  · refine ⟨fun a => ?_, fun a => ?_, fun a t => ?_, fun a => ?_, List.nodup_nil, List.nodup_nil⟩
    · exact iff_of_false List.not_mem_nil (not_not.mpr rfl)
    · exact iff_of_false List.not_mem_nil fun h => Place.noConfusion h
    · exact iff_of_false (fun h => Allocating.noConfusion h) fun h => Place.noConfusion h
    · exact iff_of_false List.not_mem_nil fun h => Place.noConfusion h

namespace Inv

theorem accounted (h : Inv place free s) : s.Accounted := by
  intro a ha
  have hplace := (h.placed.mem_carved a).mp ha
  cases heq : place a with
  | uncarved => exact absurd heq hplace
  | live => exact .inl ((h.placed.mem_live a).mpr heq)
  | returning t => exact .inr (.inl ⟨t, (h.placed.returning a t).mpr heq⟩)
  | free => exact .inr (.inr ⟨free, h.threaded, (h.placed.mem_free a).mpr heq⟩)

theorem carved_of_live (h : Inv place free s) (ha : a ∈ s.live) : a ∈ s.carved := by
  rw [h.placed.mem_carved, (h.placed.mem_live a).mp ha]
  exact nofun

theorem carved_of_free (h : Inv place free s) (ha : a ∈ free) : a ∈ s.carved := by
  rw [h.placed.mem_carved, (h.placed.mem_free a).mp ha]
  exact nofun

theorem carved_of_returning (h : Inv place free s) (ha : s.thread t = .returning a) :
    a ∈ s.carved := by
  rw [h.placed.mem_carved, (h.placed.returning a t).mp ha]
  exact nofun

theorem setThread {x : Allocating} (h : Inv place free s) (hold : ∀ a, s.thread t ≠ .returning a)
    (hnew : ∀ a, x ≠ .returning a) : Inv place free (s.setThread t x) :=
  ⟨h.pool, h.bounded, h.threaded, h.placed.setThread hold hnew⟩

/-- The first free slot is taken. -/
theorem popFree (h : Inv place free s) (hold : ∀ a, s.thread t ≠ .returning a)
    (hne : s.pool.freeList ≠ 0) :
    ∃ place' free', Inv place' free' ({ s with pool := s.pool.popFree s.memory }.setThread t
      (.returning s.pool.freeList)) := by
  obtain ⟨rest, rfl, hrest⟩ := h.threaded.pop hne
  have hplace := (h.placed.mem_free _).mp (List.mem_cons_self ..)
  obtain ⟨hhead, hnodup⟩ := List.nodup_cons.mp h.placed.free_nodup
  have hcarved (b : Nat) : b ∈ s.carved ↔ b = s.pool.freeList ∨ b ∈ s.carved := by
    refine (or_iff_right_of_imp ?_).symm
    rintro rfl
    exact h.carved_of_free (List.mem_cons_self ..)
  have hfree (b : Nat) : b ∈ rest ↔ b ≠ s.pool.freeList ∧ b ∈ s.pool.freeList :: rest := by
    constructor
    · intro hb
      exact ⟨fun heq => hhead (heq ▸ hb), List.mem_cons_of_mem _ hb⟩
    · rintro ⟨hb, hmem⟩
      exact (List.mem_cons.mp hmem).resolve_left hb
  have hplaced := h.placed.take hold hcarved hfree ?_ ?_ hnodup
  · -- unfolding the link is slow
    rw [MemoryPool.popFree]
    generalize MemoryPool.next s.memory s.pool.freeList = head at hrest ⊢
    exact ⟨_, rest, h.pool.setFreeList head, h.bounded, hrest, hplaced⟩
  · intro hlive
    cases hplace.symm.trans ((h.placed.mem_live _).mp hlive)
  · intro u hu
    cases hplace.symm.trans ((h.placed.returning _ u).mp hu)

/-- The slot at the cursor has not been carved. -/
theorem cursor_not_carved (h : Inv place free s) (hlt : s.pool.curSlot < s.pool.lastSlot) :
    s.pool.curSlot ∉ s.carved :=
  (List.nodup_cons.mp (h.pool.carve hlt).nodup).1

theorem carve (h : Inv place free s) (hold : ∀ a, s.thread t ≠ .returning a)
    (hlt : s.pool.curSlot < s.pool.lastSlot) : ∃ place', Inv place' free (s.carve t) := by
  have hnew := h.cursor_not_carved hlt
  refine ⟨_, h.pool.carve hlt, h.bounded, h.threaded, h.placed.take hold (fun b => List.mem_cons)
    (fun b => ?_) (fun hlive => hnew (h.carved_of_live hlive))
    (fun u hu => hnew (h.carved_of_returning hu)) h.placed.free_nodup⟩
  refine ⟨fun hb => ⟨?_, hb⟩, And.right⟩
  rintro rfl
  exact hnew (h.carved_of_free hb)

/-- A block is taken while no slot is free. -/
theorem allocateNewBlock (h : Inv place free s) (hempty : s.pool.freeList = 0)
    (hfresh : s.Fresh base) :
    Inv place [] (s.allocateNewBlock base) ∧
      (s.allocateNewBlock base).pool.curSlot < (s.allocateNewBlock base).pool.lastSlot := by
  obtain ⟨hpool, hroom⟩ := h.pool.newBlock (m := s.memory) hfresh.2.2
  have hthreaded := h.threaded
  rw [hempty] at hthreaded
  have hplaced := h.placed
  rw [hthreaded.eq_nil] at hplaced
  refine ⟨⟨hpool.blocks_congr fun b => List.mem_cons, fun b hb => ?_, rfl, hplaced⟩, hroom⟩
  obtain rfl | hb := List.mem_cons.mp hb
  · exact hfresh.2.1
  · exact h.bounded b hb

/-- Addresses of slots fit into a link. -/
theorem carved_lt (h : Inv place free s) (ha : a ∈ s.carved) : a < 256 ^ ptrSize := by
  obtain ⟨b, hb, hslot, -⟩ := h.pool.slot a ha
  have hbound := h.bounded b hb
  have hle := hslot.le
  simp only [ptrSize]
  omega

theorem carved_ne_zero (h : Inv place free s) (ha : a ∈ s.carved) : a ≠ 0 := by
  obtain ⟨b, -, hslot, -⟩ := h.pool.slot a ha
  have hheader := hslot.header
  rw [ptrSize] at hheader
  omega

/-- A slot is given back. -/
theorem pushFree (h : Inv place free s) (ha : a ∈ s.live) :
    ∃ place' free', Inv place' free' { s with
      memory := s.memory.store a s.pool.freeList ptrSize
      pool := { s.pool with freeList := a }
      live := s.live.erase a } := by
  have hcarved := h.carved_of_live ha
  have hlt : s.pool.freeList < 256 ^ ptrSize :=
    h.threaded.head_lt (by decide) fun b hb => h.carved_lt (h.carved_of_free hb)
  have hnext : MemoryPool.next (s.memory.store a s.pool.freeList ptrSize) a = s.pool.freeList :=
    ByteMemory.load_store_same hlt
  refine ⟨_, a :: free, h.pool.setFreeList a, h.bounded, ⟨rfl, h.carved_ne_zero hcarved, ?_⟩,
    h.placed.give ha⟩
  rw [hnext]
  refine h.threaded.congr fun b hb => h.pool.next_store hcarved (h.carved_of_free hb) ?_
  rintro rfl
  cases ((h.placed.mem_live _).mp ha).symm.trans ((h.placed.mem_free _).mp hb)

/-- What a caller writes to its slot leaves the free list alone. -/
theorem write {p : Nat} {byte : UInt8} (h : Inv place free s) (ha : a ∈ s.live)
    (hp : a ≤ p ∧ p < a + s.pool.slotSize) :
    Inv place free { s with memory := Function.update s.memory p byte } := by
  refine ⟨h.pool, h.bounded, h.threaded.congr fun b hb => ?_, h.placed⟩
  have hne : a ≠ b := by
    rintro rfl
    cases ((h.placed.mem_live _).mp ha).symm.trans ((h.placed.mem_free _).mp hb)
  have hdisjoint := h.pool.disjoint (h.carved_of_live ha) (h.carved_of_free hb) hne
  have hsize := h.pool.slotSize
  simp only [Region.Disjoint] at hdisjoint
  refine ByteMemory.load_congr fun q hq hq' => Function.update_of_ne ?_ ..
  omega

/-! ### Steps -/

theorem lockFreeList (h : Inv place free s) (ht : s.thread t = .testedFreeList) :
    ∃ place' free', Inv place' free' (if s.pool.freeList ≠ 0 then
      { s with pool := s.pool.popFree s.memory }.setThread t (.returning s.pool.freeList)
      else s.setThread t .toBlock) := by
  have hold : ∀ a, s.thread t ≠ .returning a := fun a => ht ▸ nofun
  split
  case isTrue hne => exact h.popFree hold hne
  case isFalse => exact ⟨place, free, h.setThread hold nofun⟩

theorem lockBlock (h : Inv place free s) (hempty : s.FreeListEmpty (.lockBlock t base))
    (hs : s.step (.lockBlock t base) = some s') : ∃ place' free', Inv place' free' s' := by
  simp only [step] at hs
  split at hs
  case isFalse => cases hs
  case isTrue ht =>
    have hold : ∀ a, s.thread t ≠ .returning a := fun a => ht ▸ nofun
    split at hs
    case isTrue hfull =>
      obtain ⟨hfresh, hs⟩ := Option.ite_none_right_eq_some.mp hs
      cases hs
      obtain ⟨hnew, hroom⟩ := h.allocateNewBlock (hempty hfull) hfresh
      obtain ⟨place', hinv⟩ := hnew.carve hold hroom
      exact ⟨place', [], hinv⟩
    case isFalse hroom =>
      cases hs
      obtain ⟨place', hinv⟩ := h.carve hold (not_le.mp hroom)
      exact ⟨place', free, hinv⟩

theorem step {input : Input} (h : Inv place free s) (hempty : s.FreeListEmpty input)
    (hs : s.step input = some s') : ∃ place' free', Inv place' free' s' := by
  cases input with
  | allocate t =>
    obtain ⟨ht, hs⟩ := Option.ite_none_right_eq_some.mp hs
    cases hs
    refine ⟨place, free, h.setThread (fun a => ht ▸ nofun) fun a => ?_⟩
    split <;> exact nofun
  | lockFreeList t =>
    obtain ⟨ht, hs⟩ := Option.ite_none_right_eq_some.mp hs
    cases hs
    exact h.lockFreeList ht
  | lockBlock t base => exact h.lockBlock hempty hs
  | «return» t =>
    simp only [SharedPool.step] at hs
    split at hs
    case h_1 temp ht =>
      cases hs
      exact ⟨_, free, h.pool, h.bounded, h.threaded, h.placed.hand ht⟩
    case h_2 => cases hs
  | deallocate t ptr =>
    obtain ⟨⟨-, hptr⟩, hs⟩ := Option.ite_none_right_eq_some.mp hs
    rw [if_pos (h.carved_ne_zero (h.carved_of_live hptr))] at hs
    cases hs
    exact h.pushFree hptr
  | write p byte =>
    obtain ⟨⟨a, ha, hp⟩, hs⟩ := Option.ite_none_right_eq_some.mp hs
    cases hs
    exact ⟨place, free, h.write ha hp⟩

end Inv

/-- Exactly a new block that is taken while a slot is free loses slots. -/
theorem accounted_lockBlock_iff (h : Inv place free s)
    (hs : s.step (.lockBlock t base) = some s') :
    s'.Accounted ↔ s.FreeListEmpty (.lockBlock t base) := by
  refine ⟨fun haccounted hfull => ?_, fun hempty => ?_⟩
  · by_contra hne
    obtain ⟨rest, rfl, -⟩ := h.threaded.pop hne
    have hplace := (h.placed.mem_free _).mp (List.mem_cons_self ..)
    have hcarved := h.carved_of_free (List.mem_cons_self ..)
    simp only [step, if_pos hfull] at hs
    obtain ⟨-, hs⟩ := Option.ite_none_right_eq_some.mp hs
    obtain ⟨hfresh, hs⟩ := Option.ite_none_right_eq_some.mp hs
    cases hs
    obtain ⟨hpool, hroom⟩ := h.pool.newBlock (m := s.memory) hfresh.2.2
    have hcursor := (List.nodup_cons.mp (hpool.carve hroom).nodup).1
    obtain hlive | ⟨u, hu⟩ | ⟨free', hthreaded, hmem⟩ :=
      haccounted s.pool.freeList (List.mem_cons_of_mem _ hcarved)
    · exact absurd (hplace.symm.trans ((h.placed.mem_live _).mp hlive)) nofun
    · simp only [carve, setThread, Function.update_apply] at hu
      split at hu
      · exact hcursor (Allocating.returning.inj hu ▸ hcarved)
      · exact absurd (hplace.symm.trans ((h.placed.returning _ u).mp hu)) nofun
    · rw [hthreaded.eq_nil] at hmem
      exact List.not_mem_nil hmem
  · obtain ⟨place', free', hinv⟩ := h.lockBlock hempty hs
    exact hinv.accounted

theorem inv_run {i : Fin MEMORY_POOL_NUM} {memory : ByteMemory} {inputs : List Input}
    (h : Run.run step (new i memory) inputs = some s)
    (hempty : Run.Along step FreeListEmpty (new i memory) inputs) :
    ∃ place free, Inv place free s :=
  Run.run_invariant (I := fun s => ∃ place free, Inv place free s)
    (fun _ _ _ hinv hempty hs => by
      obtain ⟨place, free, hinv⟩ := hinv
      exact hinv.step hempty hs)
    ⟨_, _, inv_new i memory⟩ hempty h

/-- As long as a new block is only taken while the free list is empty, every slot is live, about to be
returned, or free, and no slot is handed to two callers. -/
theorem slots_accounted_of_run {i : Fin MEMORY_POOL_NUM} {memory : ByteMemory}
    {inputs : List Input} (h : Run.run step (new i memory) inputs = some s)
    (hempty : Run.Along step FreeListEmpty (new i memory) inputs) :
    s.Accounted ∧ s.HandedOnce := by
  obtain ⟨place, free, hinv⟩ := inv_run h hempty
  exact ⟨hinv.accounted, hinv.placed.handedOnce⟩

/-- A slot is given back by one thread and taken again by another. -/
theorem slots_accounted_of_run_reused : ∃ s, Run.run step (new 63 fun _ => 0)
      [.allocate 1, .lockBlock 1 4096, .return 1, .allocate 2, .deallocate 1 4608,
        .lockBlock 2 0, .allocate 1, .lockFreeList 1, .return 1, .return 2] = some s ∧
    s.Accounted ∧ s.HandedOnce := by
  obtain ⟨s, hs⟩ := Option.isSome_iff_exists.mp (by decide +kernel :
    (Run.run step (new 63 fun _ => 0)
      [.allocate 1, .lockBlock 1 4096, .return 1, .allocate 2, .deallocate 1 4608,
        .lockBlock 2 0, .allocate 1, .lockFreeList 1, .return 1, .return 2]).isSome)
  exact ⟨s, hs, slots_accounted_of_run hs (by decide +kernel)⟩

/-- The seven slots of 512 bytes in a block are taken. A thread finds no free slot; before it takes a
new block, a slot is given back, and that slot is lost. -/
theorem not_accounted : ∃ s, Run.run step (new 63 fun _ => 0)
      ((List.replicate 7 [.allocate 1, .lockBlock 1 4096, .return 1]).flatten ++
        [.allocate 2, .deallocate 1 4608] ++ [.lockBlock 2 8192]) = some s ∧ ¬ s.Accounted := by
  obtain ⟨s, hs⟩ := Option.isSome_iff_exists.mp (by decide +kernel :
    (Run.run step (new 63 fun _ => 0)
      ((List.replicate 7 [.allocate 1, .lockBlock 1 4096, .return 1]).flatten ++
        [.allocate 2, .deallocate 1 4608] ++ [.lockBlock 2 8192])).isSome)
  have hlost : ∀ s ∈ Run.run step (new 63 fun _ => 0)
      ((List.replicate 7 [.allocate 1, .lockBlock 1 4096, .return 1]).flatten ++
        [.allocate 2, .deallocate 1 4608]), ¬ s.FreeListEmpty (.lockBlock 2 8192) := by
    decide +kernel
  obtain ⟨s₀, hs₀, hlast⟩ := Run.run_append.mp hs
  obtain ⟨s', hstep, hnil⟩ := Run.run_cons.mp hlast
  cases hnil
  obtain ⟨place, free, hinv⟩ := inv_run hs₀ (by decide +kernel)
  exact ⟨s, hs, mt (accounted_lockBlock_iff hinv hstep).mp (hlost s₀ hs₀)⟩

end SharedPool

end MuduoX
