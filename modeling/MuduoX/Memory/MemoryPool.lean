import MuduoX.Theory.FreeList

/-! `MemoryPool` (`include/MemoryPool.h`, `memory/MemoryPool.cpp`).

A pool carves the slots of one size out of blocks that it gets from `operator new`, and threads the
slots that are given back through their first bytes. The pieces of its member functions are kept
apart, as several threads may be between them; what `operator new` answers is an argument. -/

namespace MuduoX

/-- `sizeof(Slot*)`, the size of the link in a free slot and at the head of a block -/
def ptrSize : Nat := 8

/-- Pointers are addresses; 0 is null. -/
structure MemoryPool where
  blockSize : Nat
  slotSize : Nat
  firstBlock : Nat
  freeList : Nat
  curSlot : Nat
  lastSlot : Nat
  deriving DecidableEq, Repr

namespace MemoryPool

/-- `slot->next` -/
def next (m : ByteMemory) (slot : Nat) : Nat := m.load slot ptrSize

/-- The constructor leaves `SlotSize_` to `init`. -/
def new (blockSize : Nat) : MemoryPool := ⟨blockSize, 0, 0, 0, 0, 0⟩

def init (slotSize : Nat) (p : MemoryPool) : MemoryPool :=
  { p with slotSize := if slotSize < ptrSize then ptrSize else slotSize }

/-- `freeList_ = freeList_->next` -/
def popFree (m : ByteMemory) (p : MemoryPool) : MemoryPool :=
  { p with freeList := next m p.freeList }

/-- What `deallocate` writes to the slot, and what it does to the pool. -/
def pushFree (ptr : Nat) (m : ByteMemory) (p : MemoryPool) : ByteMemory × MemoryPool :=
  (m.store ptr p.freeList ptrSize, { p with freeList := ptr })

/-- What `allocateNewBlock` writes to the block, and what it does to the pool. -/
def allocateNewBlock (newBlock : Nat) (m : ByteMemory) (p : MemoryPool) :
    ByteMemory × MemoryPool :=
  let body := newBlock + ptrSize
  let panddingSize := (p.slotSize - body % p.slotSize) % p.slotSize
  (m.store newBlock p.firstBlock ptrSize,
    { p with
      firstBlock := newBlock
      curSlot := body + panddingSize
      lastSlot := newBlock + p.blockSize - p.slotSize + 1
      freeList := 0 })

/-- `curSlot_ += SlotSize_` -/
def carve (p : MemoryPool) : MemoryPool := { p with curSlot := p.curSlot + p.slotSize }

/-! ### Slots -/

variable {p : MemoryPool} {isBlock : Nat → Prop} {used : List Nat} {m : ByteMemory} {a b v : Nat}

/-- A place for a slot in the block at `b`, behind its link. -/
structure IsSlot (p : MemoryPool) (b a : Nat) : Prop where
  header : b + ptrSize ≤ a
  le : a + p.slotSize ≤ b + p.blockSize
  dvd : p.slotSize ∣ a

/-- The slots that have been carved are different places in the blocks of the pool, in the newest
block before `curSlot_`. -/
structure Inv (p : MemoryPool) (isBlock : Nat → Prop) (used : List Nat) : Prop where
  slotSize : ptrSize ≤ p.slotSize
  fits : ptrSize + (p.slotSize - 1) + p.slotSize ≤ p.blockSize
  blocks : ∀ b b', isBlock b → isBlock b' → b ≠ b' →
    (⟨b, p.blockSize⟩ : Region).Disjoint ⟨b', p.blockSize⟩
  cursor : p.lastSlot ≤ p.curSlot ∨ isBlock p.firstBlock ∧ p.firstBlock + ptrSize ≤ p.curSlot ∧
    p.slotSize ∣ p.curSlot ∧ p.lastSlot = p.firstBlock + p.blockSize - p.slotSize + 1
  slot : ∀ a ∈ used, ∃ b, isBlock b ∧ p.IsSlot b a ∧ (b = p.firstBlock → a < p.curSlot)
  nodup : used.Nodup

namespace Inv

theorem disjoint (h : Inv p isBlock used) (ha : a ∈ used) (hb : b ∈ used) (hne : a ≠ b) :
    (⟨a, p.slotSize⟩ : Region).Disjoint ⟨b, p.slotSize⟩ := by
  obtain ⟨_, -, hslot, -⟩ := h.slot a ha
  obtain ⟨_, -, hslot', -⟩ := h.slot b hb
  exact Region.disjoint_of_dvd hslot.dvd hslot'.dvd hne

/-- The link of a free slot is in the slot. -/
theorem link_within (h : Inv p isBlock used) : (⟨a, ptrSize⟩ : Region).Within ⟨a, p.slotSize⟩ :=
  ⟨Nat.le_refl a, Nat.add_le_add_left h.slotSize a⟩

/-- The link of a slot is not touched by what is written to another one. -/
theorem next_store (h : Inv p isBlock used) (ha : a ∈ used) (hb : b ∈ used) (hne : a ≠ b) :
    next (m.store a v ptrSize) b = next m b :=
  ByteMemory.load_store_of_disjoint ((h.disjoint ha hb hne).mono h.link_within h.link_within)

theorem of_perm {used' : List Nat} (h : Inv p isBlock used) (hperm : used'.Perm used) :
    Inv p isBlock used' :=
  ⟨h.slotSize, h.fits, h.blocks, h.cursor, fun a ha => h.slot a (hperm.mem_iff.mp ha),
    hperm.nodup_iff.mpr h.nodup⟩

/-- The free list decides nothing about the slots. -/
theorem setFreeList (h : Inv p isBlock used) (head : Nat) :
    Inv { p with freeList := head } isBlock used :=
  ⟨h.slotSize, h.fits, h.blocks, h.cursor, fun a ha => by
    obtain ⟨b, hb, hslot, hlt⟩ := h.slot a ha
    exact ⟨b, hb, ⟨hslot.header, hslot.le, hslot.dvd⟩, hlt⟩, h.nodup⟩

theorem blocks_congr {isBlock' : Nat → Prop} (h : Inv p isBlock used)
    (heq : ∀ b, isBlock' b ↔ isBlock b) : Inv p isBlock' used := by
  have : isBlock' = isBlock := funext fun b => propext (heq b)
  rwa [this]

/-- A pool that has not carved anything. -/
theorem init {blockSize slotSize : Nat} (hsize : ptrSize ≤ slotSize)
    (hfits : ptrSize + (slotSize - 1) + slotSize ≤ blockSize) :
    Inv ((new blockSize).init slotSize) (fun _ => False) [] := by
  have heq : ((new blockSize).init slotSize).slotSize = slotSize := if_neg (not_lt.mpr hsize)
  exact ⟨heq.symm ▸ hsize, heq.symm ▸ hfits, nofun, .inl (Nat.le_refl _),
    fun _ ha => absurd ha List.not_mem_nil, List.nodup_nil⟩

/-- The padding brings the first slot of a block to a multiple of the slot size. -/
theorem padding_spec (n body : Nat) (hn : 0 < n) :
    n ∣ body + (n - body % n) % n ∧ (n - body % n) % n ≤ n - 1 := by
  have hmod := Nat.mod_lt body hn
  refine ⟨Nat.dvd_of_mod_eq_zero ?_, Nat.le_sub_one_of_lt (Nat.mod_lt _ hn)⟩
  rw [Nat.add_mod_mod, Nat.add_mod]
  obtain hzero | hpos := Nat.eq_zero_or_pos (body % n)
  · rw [hzero, Nat.zero_add, Nat.mod_mod, Nat.sub_zero, Nat.mod_self]
  · rw [Nat.mod_eq_of_lt (Nat.sub_lt hn hpos), Nat.add_sub_cancel' hmod.le, Nat.mod_self]

/-- A fresh block has room for a slot. -/
theorem newBlock (h : Inv p isBlock used)
    (hfresh : ∀ b', isBlock b' → (⟨b, p.blockSize⟩ : Region).Disjoint ⟨b', p.blockSize⟩) :
    Inv (p.allocateNewBlock b m).2 (fun b' => b' = b ∨ isBlock b') used ∧
      (p.allocateNewBlock b m).2.curSlot < (p.allocateNewBlock b m).2.lastSlot := by
  have hsize := h.slotSize
  have hfits := h.fits
  rw [ptrSize] at hsize hfits
  obtain ⟨hdvd, hle⟩ := padding_spec p.slotSize (b + ptrSize) (by omega)
  have hne : ∀ b', isBlock b' → b' ≠ b := by
    rintro b' hb' rfl
    have hself := hfresh b' hb'
    simp only [Region.Disjoint] at hself
    omega
  refine ⟨⟨h.slotSize, h.fits, ?_, .inr ⟨.inl rfl, Nat.le_add_right .., hdvd, rfl⟩, fun a ha => ?_,
    h.nodup⟩, ?_⟩
  · rintro b₁ b₂ (rfl | hb₁) (rfl | hb₂) hb
    · exact absurd rfl hb
    · exact hfresh b₂ hb₂
    · exact (hfresh b₁ hb₁).symm
    · exact h.blocks b₁ b₂ hb₁ hb₂ hb
  · obtain ⟨b', hb', hslot, -⟩ := h.slot a ha
    exact ⟨b', .inr hb', ⟨hslot.header, hslot.le, hslot.dvd⟩, fun heq => absurd heq (hne b' hb')⟩
  · simp only [allocateNewBlock]
    rw [ptrSize] at hle ⊢
    omega

/-- What is carved is a new slot of the newest block. -/
theorem carve (h : Inv p isBlock used) (hlt : p.curSlot < p.lastSlot) :
    Inv p.carve isBlock (p.curSlot :: used) := by
  obtain ⟨hblock, hheader, hdvd, hlast⟩ := h.cursor.resolve_left (not_le.mpr hlt)
  have hle : p.curSlot + p.slotSize ≤ p.firstBlock + p.blockSize := by
    have hfits := h.fits
    omega
  have hpos : 0 < p.slotSize := lt_of_lt_of_le (by decide) h.slotSize
  refine ⟨h.slotSize, h.fits, h.blocks, .inr ⟨hblock, hheader.trans (Nat.le_add_right ..),
    Nat.dvd_add hdvd (Nat.dvd_refl _), hlast⟩, fun a ha => ?_,
    List.nodup_cons.mpr ⟨fun hmem => ?_, h.nodup⟩⟩
  · obtain rfl | ha := List.mem_cons.mp ha
    · exact ⟨p.firstBlock, hblock, ⟨hheader, hle, hdvd⟩, fun _ => Nat.lt_add_of_pos_right hpos⟩
    · obtain ⟨b, hb, hslot, hcur⟩ := h.slot a ha
      exact ⟨b, hb, ⟨hslot.header, hslot.le, hslot.dvd⟩, fun heq =>
        (hcur heq).trans (Nat.lt_add_of_pos_right hpos)⟩
  · -- it lies in the newest block, and the slots there are before it
    obtain ⟨b, hb, hslot, hcur⟩ := h.slot _ hmem
    obtain heq | hne := eq_or_ne b p.firstBlock
    · exact Nat.lt_irrefl _ (hcur heq)
    · have hdisjoint := h.blocks b p.firstBlock hb hblock hne
      have hheader' := hslot.header
      have hle' := hslot.le
      simp only [Region.Disjoint] at hdisjoint
      omega

end Inv

end MemoryPool

end MuduoX
