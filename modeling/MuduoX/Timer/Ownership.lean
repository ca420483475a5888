import MuduoX.Timer.TimerQueue

/-! # Every timer has one owner

`Owned l s` says where the live timers are: in a queued functor, in the two sets, or in `l`, which
holds the pointers that a local variable of the running operation holds (for the steps of the loop
these are the entries of the batch). An operation moves a pointer from one place to another, and the
lemmas below are one for each such move. `Ledger` accounts for the timers created and deleted. -/

namespace MuduoX

def TimerFunctor.timer? : TimerFunctor → Option Address
  | .addTimerInLoop timer => some timer
  | .cancelInLoop _ => none

namespace TimerQueue

variable {s s' : TimerQueue} {l : List Address} {p : Address} {t : Timer} {id : TimerId}

@[simp] theorem store_heap (s : TimerQueue) (p : Address) (o : Option Timer) :
    (s.store p o).heap = Function.update s.heap p o := rfl

/-- The timers of queued functors. -/
def queued (s : TimerQueue) : List Address := s.pendingFunctors.filterMap TimerFunctor.timer?

/-- The timers of the batch that is being run. -/
def inBatch (s : TimerQueue) : List Address :=
  match s.batch with
  | some b => b.expired.map fun e => (ofLex e).2
  | none => []

/-- The timer with this id exists. -/
def Live (s : TimerQueue) (id : TimerId) : Prop :=
  ∃ t, s.heap id.timer = some t ∧ t.sequence = id.sequence

def Held (s : TimerQueue) (p : Address) : Prop := ∃ q, toLex (p, q) ∈ s.activeTimers

/-- The addresses of the entries below `x`. -/
def addressesBelow (s : TimerQueue) (x : TimerEntry) : List Address :=
  (s.timers.below x).map fun e => (ofLex e).2

structure Owned (l : List Address) (s : TimerQueue) : Prop where
  queued_nodup : s.queued.Nodup
  loose_nodup : l.Nodup
  queued_apart : ∀ p ∈ s.queued, p ∉ l ∧ ¬s.Held p
  loose_apart : ∀ p ∈ l, ¬s.Held p
  live : ∀ p, (s.heap p).isSome ↔ p ∈ s.queued ∨ p ∈ l ∨ s.Held p
  active : ∀ p q, toLex (p, q) ∈ s.activeTimers → ∃ t, s.heap p = some t ∧ t.sequence = q
  timers : ∀ e p, toLex (e, p) ∈ s.timers ↔
    ∃ t, s.heap p = some t ∧ t.expiration = e ∧ toLex (p, t.sequence) ∈ s.activeTimers

namespace Owned

theorem of_loose (h : Owned l s) (hp : p ∈ l) : ∃ t, s.heap p = some t :=
  Option.isSome_iff_exists.mp ((h.live p).mpr (.inr (.inl hp)))

theorem of_active (h : Owned l s) (hid : id.active ∈ s.activeTimers) : s.Live id := h.active _ _ hid

/-- A live timer that the sets hold is in them under its own sequence. -/
theorem active_of_held (h : Owned l s) (ht : s.heap p = some t) (hp : s.Held p) :
    toLex (p, t.sequence) ∈ s.activeTimers := by
  obtain ⟨q, hq⟩ := hp
  obtain ⟨t', ht', rfl⟩ := h.active p q hq
  cases ht.symm.trans ht'
  exact hq

/-- What no clause mentions may change. -/
theorem congr (h : Owned l s) (hheap : s'.heap = s.heap) (hqueued : s'.queued = s.queued)
    (htimers : s'.timers = s.timers) (hactive : s'.activeTimers = s.activeTimers) :
    Owned l s' where
  queued_nodup := hqueued ▸ h.queued_nodup
  loose_nodup := h.loose_nodup
  queued_apart := by simpa only [Held, hqueued, hactive] using h.queued_apart
  loose_apart := by simpa only [Held, hactive] using h.loose_apart
  live := by simpa only [Held, hheap, hqueued, hactive] using h.live
  active := by simpa only [hheap, hactive] using h.active
  timers := by simpa only [hheap, htimers, hactive] using h.timers

/-- The order in which the local variables hold them does not matter. -/
theorem perm {l' : List Address} (h : Owned l s) (hl : l'.Perm l) : Owned l' s where
  queued_nodup := h.queued_nodup
  loose_nodup := hl.nodup_iff.mpr h.loose_nodup
  queued_apart p hp := by rw [hl.mem_iff]; exact h.queued_apart p hp
  loose_apart p hp := h.loose_apart p (hl.mem_iff.mp hp)
  live p := by rw [hl.mem_iff]; exact h.live p
  active := h.active
  timers := h.timers

theorem emit (h : Owned l s) (e : TimerEvent) : Owned l (s.emit e) := h.congr rfl rfl rfl rfl

/-- The sets do not see what happens at an address that they do not hold. -/
theorem store_active (h : Owned l s) (hp : ¬s.Held p) (o : Option Timer) (p' : Address) (q : Nat)
    (hmem : toLex (p', q) ∈ s.activeTimers) :
    ∃ t, (s.store p o).heap p' = some t ∧ t.sequence = q := by
  have hne : p' ≠ p := by
    rintro rfl
    exact hp ⟨q, hmem⟩
  rw [store_heap, Function.update_of_ne hne]
  exact h.active p' q hmem

theorem store_timers (h : Owned l s) (hp : ¬s.Held p) (o : Option Timer) (e : Timestamp)
    (p' : Address) : toLex (e, p') ∈ s.timers ↔ ∃ t, (s.store p o).heap p' = some t ∧
      t.expiration = e ∧ toLex (p', t.sequence) ∈ s.activeTimers := by
  rw [h.timers, store_heap]
  obtain rfl | hne := eq_or_ne p' p
  · constructor
    · rintro ⟨t, -, -, hmem⟩
      exact absurd ⟨_, hmem⟩ hp
    · rintro ⟨t, -, -, hmem⟩
      exact absurd ⟨_, hmem⟩ hp
  · rw [Function.update_of_ne hne]

theorem create (h : Owned l s) (hfree : s.Free p) (when : Timestamp) (interval : Interval) :
    Owned (p :: l) (s.create p when interval) := by
  have hnone : ¬(s.heap p).isSome := by simpa using hfree.2.2
  rw [h.live, not_or, not_or] at hnone
  obtain ⟨hq, hl, hheld⟩ := hnone
  refine ⟨h.queued_nodup, List.nodup_cons.mpr ⟨hl, h.loose_nodup⟩, fun p' hp' => ?_,
    fun p' hp' => ?_, fun p' => ?_, h.store_active hheld _, h.store_timers hheld _⟩
  · rw [List.mem_cons, not_or]
    exact ⟨⟨fun heq => hq (heq ▸ hp'), (h.queued_apart p' hp').1⟩, (h.queued_apart p' hp').2⟩
  · obtain rfl | hp' := List.mem_cons.mp hp'
    · exact hheld
    · exact h.loose_apart p' hp'
  · obtain rfl | hp := eq_or_ne p' p
    · simp [TimerQueue.create, store]
    · refine Iff.trans ?_ ((h.live p').trans (or_congr_right (or_congr_left ?_)))
      · simp [TimerQueue.create, store, hp]
      · simp [hp]

/-- A loose timer may be given another expiration. -/
theorem restart (h : Owned (p :: l) s) (t : Timer) : Owned (p :: l) (s.store p (some t)) := by
  have hheld := h.loose_apart p List.mem_cons_self
  refine ⟨h.queued_nodup, h.loose_nodup, h.queued_apart, h.loose_apart, fun p' => ?_,
    h.store_active hheld _, h.store_timers hheld _⟩
  refine Iff.trans ?_ (h.live p')
  obtain rfl | hp := eq_or_ne p' p
  · simp [store, (h.live p').mpr (.inr (.inl List.mem_cons_self))]
  · simp [store, hp]

theorem insert (h : Owned (p :: l) s) (ht : s.heap p = some t) : Owned l (s.insert p t).2 := by
  obtain ⟨hpl, hl⟩ := List.nodup_cons.mp h.loose_nodup
  have hheld {p' : Address} : (s.insert p t).2.Held p' ↔ p' = p ∨ s.Held p' := by
    simp only [Held, TimerQueue.insert, OrderedSet.mem_insert]
    constructor
    · rintro ⟨q, hq | hq⟩
      · exact .inl (congrArg Prod.fst (toLex_inj.mp hq))
      · exact .inr ⟨q, hq⟩
    · rintro (rfl | ⟨q, hq⟩)
      · exact ⟨_, .inl rfl⟩
      · exact ⟨q, .inr hq⟩
  refine ⟨h.queued_nodup, hl, fun p' hp' => ?_, fun p' hp' => ?_, fun p' => ?_,
    fun p' q hp' => ?_, fun e p' => ?_⟩
  · obtain ⟨h₁, h₂⟩ := h.queued_apart p' hp'
    rw [List.mem_cons, not_or] at h₁
    rw [hheld, not_or]
    exact ⟨h₁.2, h₁.1, h₂⟩
  · rw [hheld, not_or]
    exact ⟨fun heq => hpl (heq ▸ hp'), h.loose_apart p' (List.mem_cons_of_mem _ hp')⟩
  · rw [hheld, show (s.insert p t).2.heap = s.heap from rfl, h.live, List.mem_cons]
    exact or_congr_right (by rw [or_assoc, or_left_comm])
  · obtain heq | hmem := OrderedSet.mem_insert.mp hp'
    · obtain ⟨rfl, rfl⟩ := Prod.mk.inj (toLex_inj.mp heq)
      exact ⟨t, ht, rfl⟩
    · exact h.active p' q hmem
  · simp only [TimerQueue.insert, OrderedSet.mem_insert, toLex_inj, Prod.mk.injEq, h.timers]
    constructor
    · rintro (⟨rfl, rfl⟩ | ⟨t', ht', he, hmem⟩)
      · exact ⟨t, ht, rfl, .inl ⟨rfl, rfl⟩⟩
      · exact ⟨t', ht', he, .inr hmem⟩
    · rintro ⟨t', ht', he, ⟨rfl, -⟩ | hmem⟩
      · cases ht.symm.trans ht'
        exact .inl ⟨he.symm, rfl⟩
      · exact .inr ⟨t', ht', he, hmem⟩

theorem delete (h : Owned (p :: l) s) : Owned l (s.delete p) := by
  obtain ⟨t, ht⟩ := h.of_loose List.mem_cons_self
  obtain ⟨hpl, hl⟩ := List.nodup_cons.mp h.loose_nodup
  have hheld := h.loose_apart p List.mem_cons_self
  have hgone : Owned l (s.store p none) := by
    refine ⟨h.queued_nodup, hl, fun p' hp' => ?_, fun p' hp' => ?_, fun p' => ?_,
      h.store_active hheld _, h.store_timers hheld _⟩
    · obtain ⟨h₁, h₂⟩ := h.queued_apart p' hp'
      exact ⟨fun hp => h₁ (List.mem_cons_of_mem _ hp), h₂⟩
    · exact h.loose_apart p' (List.mem_cons_of_mem _ hp')
    · obtain rfl | hp := eq_or_ne p' p
      · rw [store_heap, Function.update_self]
        refine iff_of_false (by simp) ?_
        rintro (hq | hq | hq)
        · exact (h.queued_apart p' hq).1 List.mem_cons_self
        · exact hpl hq
        · exact hheld hq
      · rw [store_heap, Function.update_of_ne hp]
        refine (h.live p').trans (or_congr_right (or_congr_left ?_))
        simp [hp]
  simp only [TimerQueue.delete, ht]
  exact hgone.emit _

/-- A new timer's functor goes into the queue. -/
theorem enqueue (h : Owned (p :: l) s) : Owned l
    { s with pendingFunctors := s.pendingFunctors ++ [.addTimerInLoop p] } := by
  obtain ⟨hpl, hl⟩ := List.nodup_cons.mp h.loose_nodup
  have hqueued : queued { s with pendingFunctors := s.pendingFunctors ++ [.addTimerInLoop p] } =
      s.queued ++ [p] := by
    rw [queued, List.filterMap_append]
    rfl
  have hp : p ∉ s.queued := fun hp => (h.queued_apart p hp).1 List.mem_cons_self
  refine ⟨?_, hl, fun p' hp' => ?_, fun p' hp' => ?_, fun p' => ?_, h.active, h.timers⟩
  · rw [hqueued]
    exact List.nodup_append.mpr ⟨h.queued_nodup, List.nodup_singleton p, by
      rintro p' hp' _ hp'' rfl
      exact hp (List.mem_singleton.mp hp'' ▸ hp')⟩
  · rw [hqueued, List.mem_append, List.mem_singleton] at hp'
    obtain hp' | rfl := hp'
    · obtain ⟨h₁, h₂⟩ := h.queued_apart p' hp'
      exact ⟨fun hp => h₁ (List.mem_cons_of_mem _ hp), h₂⟩
    · exact ⟨hpl, h.loose_apart p' List.mem_cons_self⟩
  · exact h.loose_apart p' (List.mem_cons_of_mem _ hp')
  · refine (h.live p').trans ?_
    rw [hqueued, List.mem_append, List.mem_singleton, List.mem_cons, or_assoc, or_assoc]
    rfl

/-- A functor about to run has its timer in a local variable. -/
theorem dequeue {fs : List TimerFunctor} (h : Owned l s)
    (hf : s.pendingFunctors = .addTimerInLoop p :: fs) :
    Owned (p :: l) { s with pendingFunctors := fs } := by
  have hqueued : s.queued = p :: queued { s with pendingFunctors := fs } := by
    rw [queued, hf]
    rfl
  have hnd := h.queued_nodup
  rw [hqueued, List.nodup_cons] at hnd
  obtain ⟨hp, hheld⟩ := h.queued_apart p (hqueued ▸ List.mem_cons_self)
  refine ⟨hnd.2, List.nodup_cons.mpr ⟨hp, h.loose_nodup⟩, fun p' hp' => ?_, fun p' hp' => ?_,
    fun p' => ?_, h.active, h.timers⟩
  · obtain ⟨h₁, h₂⟩ := h.queued_apart p' (hqueued ▸ List.mem_cons_of_mem _ hp')
    refine ⟨fun hmem => ?_, h₂⟩
    obtain rfl | hmem := List.mem_cons.mp hmem
    · exact hnd.1 hp'
    · exact h₁ hmem
  · obtain rfl | hp' := List.mem_cons.mp hp'
    · exact hheld
    · exact h.loose_apart p' hp'
  · refine (h.live p').trans ?_
    rw [hqueued, List.mem_cons, List.mem_cons, or_assoc, or_left_comm, ← or_assoc (b := p' ∈ l)]
    rfl

/-- A functor without a timer may leave the queue. -/
theorem dequeue_cancel {fs : List TimerFunctor} (h : Owned l s)
    (hf : s.pendingFunctors = .cancelInLoop id :: fs) : Owned l { s with pendingFunctors := fs } :=
  h.congr rfl (by rw [queued, queued, hf]; rfl) rfl rfl

/-- A timer is taken out of both sets. -/
theorem release (h : Owned l s) (ht : s.heap p = some t)
    (hmem : toLex (p, t.sequence) ∈ s.activeTimers) :
    Owned (p :: l) { s with
      timers := s.timers.erase (toLex (t.expiration, p))
      activeTimers := s.activeTimers.erase (toLex (p, t.sequence)) } := by
  have hactive {p' q : _} : toLex (p', q) ∈ s.activeTimers.erase (toLex (p, t.sequence)) ↔
      p' ≠ p ∧ toLex (p', q) ∈ s.activeTimers := by
    rw [OrderedSet.mem_erase]
    refine and_congr_left fun hq => not_congr ⟨fun heq => (Prod.mk.inj (toLex_inj.mp heq)).1, ?_⟩
    rintro rfl
    obtain ⟨t', ht', rfl⟩ := h.active p' q hq
    cases ht.symm.trans ht'
    rfl
  have hheld {p' : Address} : (∃ q, toLex (p', q) ∈ s.activeTimers.erase
      (toLex (p, t.sequence))) ↔ p' ≠ p ∧ s.Held p' := by
    simp only [hactive, exists_and_left]
    rfl
  have hp : p ∉ l := fun hp => h.loose_apart p hp ⟨_, hmem⟩
  refine ⟨h.queued_nodup, List.nodup_cons.mpr ⟨hp, h.loose_nodup⟩, fun p' hp' => ?_,
    fun p' hp' => ?_, fun p' => ?_, fun p' q hp' => h.active p' q (hactive.mp hp').2, fun e p' => ?_⟩
  · obtain ⟨h₁, h₂⟩ := h.queued_apart p' hp'
    refine ⟨fun hmem' => ?_, fun hp'' => h₂ (hheld.mp hp'').2⟩
    obtain rfl | hmem' := List.mem_cons.mp hmem'
    · exact h₂ ⟨_, hmem⟩
    · exact h₁ hmem'
  · intro hp''
    obtain ⟨hne, hp''⟩ := hheld.mp hp''
    exact h.loose_apart p' ((List.mem_cons.mp hp').resolve_left hne) hp''
  · refine (h.live p').trans (or_congr_right (Iff.trans ?_ (or_congr_right hheld.symm)))
    rw [List.mem_cons]
    obtain rfl | hne := eq_or_ne p' p
    · simp [show s.Held p' from ⟨_, hmem⟩]
    · simp [hne]
  · simp only [OrderedSet.mem_erase, hactive, h.timers]
    constructor
    · rintro ⟨hne, t', ht', rfl, hmem'⟩
      refine ⟨t', ht', rfl, ?_, hmem'⟩
      rintro rfl
      cases ht.symm.trans ht'
      exact hne rfl
    · rintro ⟨t', ht', rfl, hne, hmem'⟩
      exact ⟨fun heq => hne (Prod.mk.inj (toLex_inj.mp heq)).2, t', ht', rfl, hmem'⟩

/-- The loop of `getExpired` takes the timers of its entries out of `activeTimers`, and does nothing
else. -/
theorem foldl_eraseActive (es : List TimerEntry) (hes : ∀ e ∈ es, (s.heap (ofLex e).2).isSome) :
    ∃ A, es.foldl eraseActive s = { s with activeTimers := A } ∧
      ∀ x, x ∈ A ↔ x ∈ s.activeTimers ∧ ∀ e ∈ es, ∀ t, s.heap (ofLex e).2 = some t →
        x ≠ toLex ((ofLex e).2, t.sequence) := by
  induction es generalizing s with
  | nil => exact ⟨s.activeTimers, rfl, fun x => by simp⟩
  | cons e es ih =>
    obtain ⟨he, hes⟩ := List.forall_mem_cons.mp hes
    obtain ⟨t, ht⟩ := Option.isSome_iff_exists.mp he
    rw [List.foldl_cons, eraseActive, ht]
    obtain ⟨A, hA, hmem⟩ := ih (s := { s with
      activeTimers := s.activeTimers.erase (toLex ((ofLex e).2, t.sequence)) }) hes
    refine ⟨A, hA, fun x => ?_⟩
    rw [hmem, OrderedSet.mem_erase, List.forall_mem_cons, and_comm (a := x ≠ _), and_assoc]
    refine and_congr_right fun _ => and_congr_left fun _ => ?_
    simp [ht]

variable {x : TimerEntry}

/-- An address in front of `x` is that of a timer that the sets hold, under the expiration of the
entry. -/
theorem mem_addressesBelow (h : Owned l s) : p ∈ s.addressesBelow x ↔
    ∃ t, s.heap p = some t ∧ toLex (p, t.sequence) ∈ s.activeTimers ∧
      toLex (t.expiration, p) < x := by
  rw [addressesBelow, List.mem_map]
  constructor
  · rintro ⟨e, he, rfl⟩
    obtain ⟨hmem, hlt⟩ := OrderedSet.mem_below.mp he
    obtain ⟨t, ht, hexpiration, hactive⟩ := (h.timers (ofLex e).1 (ofLex e).2).mp hmem
    exact ⟨t, ht, hactive, hexpiration ▸ hlt⟩
  · rintro ⟨t, ht, hactive, hlt⟩
    exact ⟨_, OrderedSet.mem_below.mpr ⟨(h.timers _ _).mpr ⟨t, ht, rfl, hactive⟩, hlt⟩, rfl⟩

theorem nodup_addressesBelow (h : Owned l s) : (s.addressesBelow x).Nodup := by
  refine (OrderedSet.nodup_below ..).map_on fun e he e' he' heq => ?_
  obtain ⟨t, ht, hexpiration, -⟩ := (h.timers (ofLex e).1 (ofLex e).2).mp (OrderedSet.mem_below.mp he).1
  obtain ⟨t', ht', hexpiration', -⟩ :=
    (h.timers (ofLex e').1 (ofLex e').2).mp (OrderedSet.mem_below.mp he').1
  rw [heq] at ht
  cases ht.symm.trans ht'
  exact ofLex.injective (Prod.ext (hexpiration.symm.trans hexpiration') heq)

theorem held_of_mem_addressesBelow (h : Owned l s) (hp : p ∈ s.addressesBelow x) : s.Held p := by
  obtain ⟨t, -, hactive, -⟩ := h.mem_addressesBelow.mp hp
  exact ⟨_, hactive⟩

/-- The entries below `x` leave the sets, and their timers are left to a local variable. -/
theorem cut (h : Owned l s) {A : OrderedSet ActiveTimer}
    (hA : ∀ p q, toLex (p, q) ∈ A ↔ toLex (p, q) ∈ s.activeTimers ∧ p ∉ s.addressesBelow x) :
    Owned (s.addressesBelow x ++ l)
      { s with timers := s.timers.notBelow x, activeTimers := A } := by
  have hheld {p : Address} : (∃ q, toLex (p, q) ∈ A) ↔ s.Held p ∧ p ∉ s.addressesBelow x := by
    simp only [hA, exists_and_right]
    rfl
  refine ⟨h.queued_nodup, ?_, fun p hp => ?_, fun p hp => ?_, fun p => ?_, fun p q hp => ?_,
    fun e p => ?_⟩
  · refine List.nodup_append.mpr ⟨h.nodup_addressesBelow, h.loose_nodup, ?_⟩
    rintro p hp _ hl rfl
    exact h.loose_apart p hl (h.held_of_mem_addressesBelow hp)
  · obtain ⟨hl, hnot⟩ := h.queued_apart p hp
    rw [List.mem_append, not_or]
    exact ⟨⟨fun hmem => hnot (h.held_of_mem_addressesBelow hmem), hl⟩,
      fun hmem => hnot (hheld.mp hmem).1⟩
  · intro hmem
    rcases List.mem_append.mp hp with hp | hp
    · exact (hheld.mp hmem).2 hp
    · exact h.loose_apart p hp (hheld.mp hmem).1
  · refine (h.live p).trans (or_congr_right ?_)
    rw [List.mem_append]
    constructor
    · rintro (hp | hp)
      · exact .inl (.inr hp)
      · rcases Decidable.em (p ∈ s.addressesBelow x) with hmem | hmem
        · exact .inl (.inl hmem)
        · exact .inr (hheld.mpr ⟨hp, hmem⟩)
    · rintro ((hp | hp) | hp)
      · exact .inr (h.held_of_mem_addressesBelow hp)
      · exact .inl hp
      · exact .inr (hheld.mp hp).1
  · exact h.active p q ((hA p q).mp hp).1
  · simp only [OrderedSet.mem_notBelow, hA, h.timers]
    constructor
    · rintro ⟨⟨t, ht, rfl, hactive⟩, hlt⟩
      refine ⟨t, ht, rfl, hactive, fun hmem => ?_⟩
      obtain ⟨t', ht', -, hlt'⟩ := h.mem_addressesBelow.mp hmem
      cases ht.symm.trans ht'
      exact hlt hlt'
    · rintro ⟨t, ht, rfl, hactive, hmem⟩
      exact ⟨⟨t, ht, rfl, hactive⟩, fun hlt =>
        hmem (h.mem_addressesBelow.mpr ⟨t, ht, hactive, hlt⟩)⟩

theorem getExpired_eq (h : Owned l s) (now : Timestamp) : ∃ A,
    (s.getExpired now).2 =
      { s with timers := s.timers.notBelow (toLex (now, UINTPTR_MAX)), activeTimers := A } ∧
    ∀ p q, toLex (p, q) ∈ A ↔
      toLex (p, q) ∈ s.activeTimers ∧ p ∉ s.addressesBelow (toLex (now, UINTPTR_MAX)) := by
  obtain ⟨A, heq, hmem⟩ := foldl_eraseActive
    (s := { s with timers := s.timers.notBelow (toLex (now, UINTPTR_MAX)) })
    (s.getExpired now).1 fun e he => by
      obtain ⟨t, ht, -⟩ := (h.timers (ofLex e).1 (ofLex e).2).mp (OrderedSet.mem_below.mp he).1
      exact Option.isSome_iff_exists.mpr ⟨t, ht⟩
  refine ⟨A, heq, fun p q => ?_⟩
  rw [hmem]
  refine and_congr_right fun hactive => ?_
  obtain ⟨t, ht, rfl⟩ := h.active p q hactive
  constructor
  · intro hne hp
    obtain ⟨e, he, rfl⟩ := List.mem_map.mp hp
    exact hne e he t ht rfl
  · rintro hp e he t' - heq
    obtain ⟨rfl, -⟩ := Prod.mk.inj (toLex_inj.mp heq)
    exact hp (List.mem_map_of_mem he)

/-- The expired timers are in no set any more. -/
theorem getExpired (h : Owned l s) (now : Timestamp) :
    Owned ((s.getExpired now).1.map (fun e => (ofLex e).2) ++ l) (s.getExpired now).2 := by
  obtain ⟨A, heq, hA⟩ := h.getExpired_eq now
  rw [heq]
  exact h.cut hA

end Owned

/-! ### The ledger -/

theorem live_store_some (ht : s.heap p = some t) {t' : Timer} (hseq : t'.sequence = t.sequence) :
    (s.store p (some t')).Live id ↔ s.Live id := by
  rw [Live, Live, store_heap]
  obtain hp | hp := eq_or_ne id.timer p
  · rw [hp, Function.update_self, ht]
    simp [hseq]
  · rw [Function.update_of_ne hp]

theorem live_store_none : (s.store p none).Live id ↔ s.Live id ∧ id.timer ≠ p := by
  rw [Live, Live, store_heap]
  obtain hp | hp := eq_or_ne id.timer p
  · simp [hp]
  · simp [hp]

theorem live_delete : (s.delete p).Live id ↔ s.Live id ∧ id.timer ≠ p := by
  rw [delete]
  split
  · rename_i ht
    refine (and_iff_left_of_imp ?_).symm
    rintro ⟨t, hid, -⟩ hp
    rw [hp] at hid
    cases ht.symm.trans hid
  · exact live_store_none

theorem live_create (hfree : s.Free p) (when : Timestamp) (interval : Interval) :
    (s.create p when interval).Live id ↔ s.Live id ∨ id = ⟨p, s.numCreated⟩ := by
  obtain ⟨p', q⟩ := id
  simp only [Live, TimerQueue.create, store, TimerId.mk.injEq]
  obtain rfl | hp := eq_or_ne p' p
  · simp [Option.isNone_iff_eq_none.mp hfree.2.2, eq_comm]
  · simp [hp]

/-- Two live timers at one address are one. -/
theorem Live.eq {id' : TimerId} (h : s.Live id) (h' : s.Live id') (heq : id.timer = id'.timer) :
    id = id' := by
  obtain ⟨t, ht, hq⟩ := h
  obtain ⟨t', ht', hq'⟩ := h'
  rw [heq, ht'] at ht
  cases ht
  cases id
  cases id'
  simp_all

/-- What may not come later. -/
def TimerEvent.Before (e e' : TimerEvent) : Prop :=
  ∀ id, e = .deleted id → e' ≠ .deleted id ∧ e' ≠ .run id

/-- The timers created are the live ones and the deleted ones, no timer is deleted twice or run
after its deletion, and no pointer to a deleted one is followed. -/
structure Ledger (s : TimerQueue) : Prop where
  fresh : ∀ id ∈ s.created, id.sequence < s.numCreated
  once : s.created.Nodup
  mem_created : ∀ id, id ∈ s.created ↔ s.Live id ∨ .deleted id ∈ s.log
  not_deleted : ∀ id, s.Live id → .deleted id ∉ s.log
  order : s.log.Pairwise TimerEvent.Before
  valid : ∀ p, .invalid p ∉ s.log

namespace Ledger

theorem congr (h : Ledger s) (hcreated : s'.created = s.created)
    (hnum : s.numCreated ≤ s'.numCreated) (hlog : s'.log = s.log)
    (hlive : ∀ id, s'.Live id ↔ s.Live id) : Ledger s' where
  fresh := by
    rw [hcreated]
    exact fun id hid => (h.fresh id hid).trans_le hnum
  once := hcreated ▸ h.once
  mem_created id := by rw [hcreated, hlog, hlive]; exact h.mem_created id
  not_deleted id := by rw [hlog, hlive]; exact h.not_deleted id
  order := hlog ▸ h.order
  valid := hlog ▸ h.valid

theorem emit (h : Ledger s) {e : TimerEvent} (hdeleted : ∀ id, e ≠ .deleted id)
    (hinvalid : ∀ p, e ≠ .invalid p) (hrun : ∀ id, e = .run id → s.Live id) :
    Ledger (s.emit e) where
  fresh := h.fresh
  once := h.once
  mem_created id := by
    refine (h.mem_created id).trans (or_congr_right ?_)
    rw [TimerQueue.emit, List.mem_append, List.mem_singleton]
    exact (or_iff_left fun heq => hdeleted id heq.symm).symm
  not_deleted id hid := by
    rw [TimerQueue.emit, List.mem_append, List.mem_singleton, not_or]
    exact ⟨h.not_deleted id hid, fun heq => hdeleted id heq.symm⟩
  order := by
    refine List.pairwise_append.mpr ⟨h.order, List.pairwise_singleton .., ?_⟩
    rintro _ he _ he' id rfl
    cases List.mem_singleton.mp he'
    exact ⟨hdeleted id, fun heq => h.not_deleted id (hrun id heq) he⟩
  valid p := by
    rw [TimerQueue.emit, List.mem_append, List.mem_singleton, not_or]
    exact ⟨h.valid p, fun heq => hinvalid p heq.symm⟩

theorem delete (h : Ledger s) (ht : s.heap p = some t) : Ledger (s.delete p) := by
  have hp : s.Live ⟨p, t.sequence⟩ := ⟨t, ht, rfl⟩
  have hlive {id : TimerId} : (s.delete p).Live id ↔ s.Live id ∧ id ≠ ⟨p, t.sequence⟩ := by
    rw [live_delete]
    refine and_congr_right fun hid => not_congr ⟨fun heq => hid.eq hp heq, ?_⟩
    rintro rfl
    rfl
  have hlog : (s.delete p).log = s.log ++ [.deleted ⟨p, t.sequence⟩] := by
    rw [TimerQueue.delete, ht]
    rfl
  have hcreated : (s.delete p).created = s.created := by
    rw [TimerQueue.delete, ht]
    rfl
  have hnum : (s.delete p).numCreated = s.numCreated := by
    rw [TimerQueue.delete, ht]
    rfl
  refine ⟨?_, ?_, fun id => ?_, fun id => ?_, ?_, fun p' => ?_⟩
  · rw [hcreated, hnum]
    exact h.fresh
  · rw [hcreated]
    exact h.once
  · rw [hcreated, h.mem_created, hlive, hlog, List.mem_append, List.mem_singleton,
      TimerEvent.deleted.injEq]
    obtain rfl | hid := eq_or_ne id ⟨p, t.sequence⟩
    · simp [hp]
    · simp [hid]
  · rw [hlive, hlog, List.mem_append, List.mem_singleton, TimerEvent.deleted.injEq, not_or]
    exact And.imp_left (h.not_deleted id)
  · rw [hlog]
    refine List.pairwise_append.mpr ⟨h.order, List.pairwise_singleton .., ?_⟩
    rintro _ he _ he' id rfl
    cases List.mem_singleton.mp he'
    refine ⟨fun heq => ?_, fun heq => TimerEvent.noConfusion heq⟩
    cases heq
    exact h.not_deleted _ hp he
  · rw [hlog, List.mem_append, List.mem_singleton, not_or]
    exact ⟨h.valid p', fun heq => TimerEvent.noConfusion heq⟩

theorem create (h : Ledger s) (hfree : s.Free p) (when : Timestamp) (interval : Interval) :
    Ledger (s.create p when interval) := by
  have hnew : (⟨p, s.numCreated⟩ : TimerId) ∉ s.created := fun hmem =>
    (h.fresh _ hmem).false
  refine ⟨fun id hid => ?_, ?_, fun id => ?_, fun id hid => ?_, h.order, h.valid⟩
  · obtain hid | hid := List.mem_append.mp hid
    · exact (h.fresh id hid).trans (Nat.lt_succ_self _)
    · cases List.mem_singleton.mp hid
      exact Nat.lt_succ_self _
  · refine List.nodup_append.mpr ⟨h.once, List.nodup_singleton _, ?_⟩
    rintro id hid _ hid' rfl
    exact hnew (List.mem_singleton.mp hid' ▸ hid)
  · rw [live_create hfree, TimerQueue.create, List.mem_append, List.mem_singleton, h.mem_created]
    exact or_right_comm
  · obtain hid | rfl := (live_create hfree ..).mp hid
    · exact h.not_deleted id hid
    · exact fun hmem => hnew ((h.mem_created _).mpr (.inr hmem))

end Ledger

/-! ### The operations -/

/-- Both, with the pointers that local variables hold. -/
structure Good (l : List Address) (s : TimerQueue) : Prop where
  owned : Owned l s
  ledger : Ledger s

theorem resetTimerfd_eq_some {e : Timestamp} (h : s.resetTimerfd e = some s') :
    ∃ value, howMuchTimeFromNow e s.clock = some value ∧
      s' = { s with timerfd := .settime s.clock value } := by
  obtain ⟨value, hvalue, rfl⟩ := Option.map_eq_some_iff.mp h
  exact ⟨value, hvalue, rfl⟩

theorem Good.resetTimerfd {e : Timestamp} (hg : Good l s) (h : s.resetTimerfd e = some s') :
    Good l s' := by
  obtain ⟨value, -, rfl⟩ := resetTimerfd_eq_some h
  exact ⟨hg.owned.congr rfl rfl rfl rfl, hg.ledger.congr rfl (le_refl _) rfl fun _ => Iff.rfl⟩

theorem Good.insert (hg : Good (p :: l) s) (ht : s.heap p = some t) : Good l (s.insert p t).2 :=
  ⟨hg.owned.insert ht, hg.ledger.congr rfl (le_refl _) rfl fun _ => Iff.rfl⟩

theorem Good.delete (hg : Good (p :: l) s) : Good l (s.delete p) := by
  obtain ⟨t, ht⟩ := hg.owned.of_loose List.mem_cons_self
  exact ⟨hg.owned.delete, hg.ledger.delete ht⟩

theorem Good.addTimerInLoop (hg : Good (p :: l) s) (h : s.addTimerInLoop p = some s') :
    Good l s' := by
  obtain ⟨t, ht⟩ := hg.owned.of_loose List.mem_cons_self
  rw [TimerQueue.addTimerInLoop, ht] at h
  simp only at h
  split at h
  · exact (hg.insert ht).resetTimerfd h
  · cases h
    exact hg.insert ht

/-- What `cancelInLoop` does to a timer that the sets hold. -/
theorem cancelInLoop_of_mem (h : Owned l s) (hmem : id.active ∈ s.activeTimers) :
    ∃ t, s.heap id.timer = some t ∧ t.sequence = id.sequence ∧
      s.cancelInLoop id = ({ s with
        timers := s.timers.erase (toLex (t.expiration, id.timer))
        activeTimers := s.activeTimers.erase (toLex (id.timer, t.sequence)) }.delete
          id.timer).emit (.cancelled id) := by
  obtain ⟨t, ht, hseq⟩ := h.of_active hmem
  refine ⟨t, ht, hseq, ?_⟩
  rw [cancelInLoop]
  simp only [if_pos hmem, ht, TimerQueue.delete]
  rw [TimerId.active, ← hseq]
  rfl

theorem Good.cancelInLoop (hg : Good l s) (id : TimerId) : Good l (s.cancelInLoop id) := by
  have hcancelled {s : TimerQueue} (hg : Good l s) : Good l (s.emit (.cancelled id)) :=
    ⟨hg.owned.emit _, hg.ledger.emit nofun nofun nofun⟩
  rcases Decidable.em (id.active ∈ s.activeTimers) with hmem | hmem
  · obtain ⟨t, ht, hseq, heq⟩ := cancelInLoop_of_mem hg.owned hmem
    rw [heq]
    refine hcancelled (Good.delete ⟨hg.owned.release ht (hseq ▸ hmem), ?_⟩)
    exact hg.ledger.congr rfl (le_refl _) rfl fun _ => Iff.rfl
  · rw [TimerQueue.cancelInLoop, if_neg hmem]
    refine hcancelled ?_
    split
    · exact ⟨hg.owned.congr rfl rfl rfl rfl, hg.ledger.congr rfl (le_refl _) rfl fun _ => Iff.rfl⟩
    · exact hg

theorem Good.beginBatch (hg : Good l s) : Good (s.beginBatch.inBatch ++ l) s.beginBatch := by
  have howned : Owned l { s with timerfd := s.timerfd.read } := hg.owned.congr rfl rfl rfl rfl
  refine ⟨(howned.getExpired s.clock).congr rfl rfl rfl rfl, ?_⟩
  obtain ⟨A, heq, -⟩ := howned.getExpired_eq s.clock
  refine hg.ledger.congr ?_ ?_ ?_ fun id => ?_ <;> simp only [TimerQueue.beginBatch, heq, le_refl]
  exact Iff.rfl

theorem Good.runTimer (hg : Good l s) (hp : p ∈ l) : Good l (s.runTimer p) := by
  obtain ⟨t, ht⟩ := hg.owned.of_loose hp
  rw [TimerQueue.runTimer, ht]
  refine ⟨hg.owned.emit _, hg.ledger.emit (fun _ heq => TimerEvent.noConfusion heq)
    (fun _ heq => TimerEvent.noConfusion heq) ?_⟩
  rintro id heq
  cases heq
  exact ⟨t, ht, rfl⟩

theorem restart_sequence {t' : Timer} {now : Timestamp} (h : t.restart now = some t') :
    t'.sequence = t.sequence := by
  rw [Timer.restart] at h
  split at h
  · obtain ⟨e, -, rfl⟩ := Option.map_eq_some_iff.mp h
    rfl
  · cases h
    rfl

theorem Good.resetEntry {now : Timestamp} {e : TimerEntry} (hg : Good ((ofLex e).2 :: l) s)
    (h : s.resetEntry now e = some s') : Good l s' := by
  obtain ⟨t, ht⟩ := hg.owned.of_loose List.mem_cons_self
  rw [TimerQueue.resetEntry, ht] at h
  simp only at h
  split at h
  · obtain ⟨t', ht', rfl⟩ := Option.map_eq_some_iff.mp h
    refine Good.insert ⟨hg.owned.restart t', ?_⟩ (by simp)
    exact hg.ledger.congr rfl (le_refl _) rfl fun id => live_store_some ht (restart_sequence ht')
  · cases h
    exact hg.delete

theorem Good.foldlM_resetEntry {now : Timestamp} {es : List TimerEntry}
    (hg : Good (es.map (fun e => (ofLex e).2) ++ l) s)
    (h : es.foldlM (TimerQueue.resetEntry now) s = some s') : Good l s' := by
  induction es generalizing s with
  | nil =>
    cases h
    exact hg
  | cons e es ih =>
    obtain ⟨s₁, h₁, h⟩ := Option.bind_eq_some_iff.mp h
    exact ih (hg.resetEntry h₁) h

theorem rearm_eq_some (h : s.rearm = some s') : ∃ fd, s' = { s with timerfd := fd } := by
  unfold rearm at h
  extract_lets nextExpire at h
  split at h
  · obtain ⟨value, -, rfl⟩ := resetTimerfd_eq_some h
    exact ⟨_, rfl⟩
  · cases h
    exact ⟨_, rfl⟩

theorem Good.reset {now : Timestamp} {es : List TimerEntry}
    (hg : Good (es.map (fun e => (ofLex e).2) ++ l) s) (h : s.reset es now = some s') :
    Good l s' := by
  obtain ⟨s₁, h₁, h⟩ := Option.bind_eq_some_iff.mp h
  have hg₁ := hg.foldlM_resetEntry h₁
  obtain ⟨fd, rfl⟩ := rearm_eq_some h
  exact ⟨hg₁.owned.congr rfl rfl rfl rfl, hg₁.ledger.congr rfl (le_refl _) rfl fun _ => Iff.rfl⟩

/-! ### Every step -/

theorem inBatch_congr (h : s'.batch = s.batch) : s'.inBatch = s.inBatch := by
  rw [inBatch, inBatch, h]

theorem inBatch_none (h : s.batch = none) : s.inBatch = [] := by
  rw [inBatch, h]

/-- The invariant of the loop: the local variables are those of the batch. -/
structure Inv (s : TimerQueue) : Prop where
  good : Good s.inBatch s
  todo : ∀ b, s.batch = some b → b.todo ⊆ b.expired

/-- `Inv`, while other threads hold the timers in `l`. -/
structure InvWith (l : List Address) (s : TimerQueue) : Prop where
  good : Good (s.inBatch ++ l) s
  todo : ∀ b, s.batch = some b → b.todo ⊆ b.expired

theorem inv_iff : Inv s ↔ InvWith [] s := by
  constructor
  · exact fun h => ⟨by rw [List.append_nil]; exact h.good, h.todo⟩
  · intro h
    have hgood := h.good
    rw [List.append_nil] at hgood
    exact ⟨hgood, h.todo⟩

theorem inv_new (clock : Timestamp) : Inv (new clock) := by
  refine ⟨⟨⟨.nil, .nil, nofun, nofun, fun p => ?_, nofun, fun e p => ?_⟩,
    ⟨nofun, .nil, fun id => ?_, nofun, .nil, nofun⟩⟩, nofun⟩
  · refine iff_of_false nofun ?_
    rintro (h | h | ⟨q, hq⟩)
    exacts [List.not_mem_nil h, List.not_mem_nil h, OrderedSet.notMem_empty hq]
  · exact iff_of_false OrderedSet.notMem_empty fun ⟨t, ht, _⟩ => by cases ht
  · refine iff_of_false List.not_mem_nil ?_
    rintro (⟨t, ht, -⟩ | h)
    · cases ht
    · exact List.not_mem_nil h

namespace InvWith

theorem of_frame (h : InvWith l s) (hf : Frame s s') (hg : Good (s.inBatch ++ l) s') :
    InvWith l s' :=
  ⟨inBatch_congr hf.batch ▸ hg, fun b hb => h.todo b (hf.batch ▸ hb)⟩

/-- Another thread has allocated a timer. -/
theorem create (h : InvWith l s) (hfree : s.Free p) (when : Timestamp) (interval : Interval) :
    InvWith (p :: l) (s.create p when interval) := by
  have hgood : Good (p :: (s.inBatch ++ l)) (s.create p when interval) :=
    ⟨h.good.owned.create hfree when interval, h.good.ledger.create hfree when interval⟩
  exact ⟨⟨hgood.owned.perm List.perm_middle, hgood.ledger⟩, h.todo⟩

/-- It queues the functor for it. -/
theorem enqueue (h : InvWith (p :: l) s) : InvWith l
    { s with pendingFunctors := s.pendingFunctors ++ [.addTimerInLoop p] } :=
  ⟨⟨(h.good.owned.perm List.perm_middle.symm).enqueue,
    h.good.ledger.congr rfl (le_refl _) rfl fun _ => Iff.rfl⟩, h.todo⟩

theorem addTimerInLoop (h : InvWith (p :: l) s) (hs : s.addTimerInLoop p = some s') :
    InvWith l s' := by
  have hf := Frame.addTimerInLoop hs
  have hg : Good (p :: (s.inBatch ++ l)) s :=
    ⟨h.good.owned.perm List.perm_middle.symm, h.good.ledger⟩
  exact ⟨inBatch_congr hf.batch ▸ hg.addTimerInLoop hs, fun b hb => h.todo b (hf.batch ▸ hb)⟩

theorem addTimer (h : InvWith l s) (hfree : s.Free p) {inLoop : Bool} {when : Timestamp}
    {interval : Interval} (hs : s.addTimer inLoop p when interval = some s') : InvWith l s' := by
  have hcreate := h.create hfree when interval
  rw [TimerQueue.addTimer, runInLoop] at hs
  split at hs
  · exact hcreate.addTimerInLoop hs
  · cases hs
    exact hcreate.enqueue

theorem cancel (h : InvWith l s) {inLoop : Bool} (hs : s.cancel inLoop id = some s') :
    InvWith l s' := by
  rw [TimerQueue.cancel, runInLoop] at hs
  split at hs
  · cases hs
    exact h.of_frame (.cancelInLoop s id) (h.good.cancelInLoop id)
  · cases hs
    refine ⟨⟨h.good.owned.congr rfl ?_ rfl rfl, ?_⟩, h.todo⟩
    · rw [queued, List.filterMap_append]
      exact List.append_nil _
    · exact h.good.ledger.congr rfl (le_refl _) rfl fun _ => Iff.rfl

theorem runFunctor (h : InvWith l s) {f : TimerFunctor} {fs : List TimerFunctor}
    (hf : s.pendingFunctors = f :: fs)
    (hs : { s with pendingFunctors := fs }.runFunctor f = some s') : InvWith l s' := by
  have hl : Ledger { s with pendingFunctors := fs } :=
    h.good.ledger.congr rfl (le_refl _) rfl fun _ => Iff.rfl
  cases f with
  | addTimerInLoop timer =>
    have hinv : InvWith (timer :: l) { s with pendingFunctors := fs } :=
      ⟨⟨(h.good.owned.dequeue hf).perm List.perm_middle, hl⟩, h.todo⟩
    exact hinv.addTimerInLoop hs
  | cancelInLoop id =>
    cases hs
    have hinv : InvWith l { s with pendingFunctors := fs } :=
      ⟨⟨h.good.owned.dequeue_cancel hf, hl⟩, h.todo⟩
    exact hinv.of_frame (.cancelInLoop _ id) (hinv.good.cancelInLoop id)

theorem step {i : TimerInput} (h : InvWith l s) (hs : s.step i = some s') : InvWith l s' := by
  cases i with
  | elapse micros =>
    cases hs
    exact ⟨⟨h.good.owned.congr rfl rfl rfl rfl,
      h.good.ledger.congr rfl (le_refl _) rfl fun _ => Iff.rfl⟩, h.todo⟩
  | elsewhere =>
    cases hs
    exact ⟨⟨h.good.owned.congr rfl rfl rfl rfl,
      h.good.ledger.congr rfl (Nat.le_succ _) rfl fun _ => Iff.rfl⟩, h.todo⟩
  | addTimer inLoop timer when interval =>
    obtain ⟨hfree, hs⟩ := Option.ite_none_right_eq_some.mp hs
    exact h.addTimer hfree hs
  | cancel inLoop id =>
    obtain ⟨-, hs⟩ := Option.ite_none_right_eq_some.mp hs
    exact h.cancel hs
  | doPendingFunctor =>
    rw [TimerQueue.step] at hs
    split at hs
    · rename_i hf
      exact h.runFunctor hf hs
    · cases hs
  | handleRead =>
    rw [TimerQueue.step] at hs
    split at hs
    · rename_i hb
      cases hs
      have hgood := h.good
      rw [inBatch_none hb, List.nil_append] at hgood
      refine ⟨hgood.beginBatch, ?_⟩
      rintro b hb
      cases hb
      exact List.Subset.refl _
    · cases hs
  | callback =>
    rw [TimerQueue.step] at hs
    split at hs
    · rename_i now expired e es hb
      cases hs
      have htodo := h.todo _ hb
      have hin : s.inBatch = expired.map fun e => (ofLex e).2 := by rw [inBatch, hb]
      have hinv : InvWith l { s with batch := some ⟨now, expired, es⟩ } := by
        have howned := h.good.owned
        rw [hin] at howned
        refine ⟨⟨howned.congr rfl rfl rfl rfl,
          h.good.ledger.congr rfl (le_refl _) rfl fun _ => Iff.rfl⟩, ?_⟩
        rintro b hb
        cases hb
        exact fun x hx => htodo (List.mem_cons_of_mem _ hx)
      refine hinv.of_frame (.runTimer ..) (hinv.good.runTimer (List.mem_append_left _ ?_))
      exact List.mem_map_of_mem (htodo List.mem_cons_self)
    · cases hs
  | reset =>
    rw [TimerQueue.step] at hs
    split at hs
    · rename_i now expired hb
      have hin : s.inBatch = expired.map fun e => (ofLex e).2 := by rw [inBatch, hb]
      have hg : Good (expired.map (fun e => (ofLex e).2) ++ l)
          { s with callingExpiredTimers := false, batch := none } :=
        hin ▸ ⟨h.good.owned.congr rfl rfl rfl rfl,
          h.good.ledger.congr rfl (le_refl _) rfl fun _ => Iff.rfl⟩
      have hnone : s'.batch = none := (Frame.reset hs).batch
      refine ⟨?_, fun b hb => by rw [hnone] at hb; cases hb⟩
      rw [inBatch_none hnone]
      exact hg.reset hs
    · cases hs

end InvWith

theorem Inv.of_frame (h : Inv s) (hf : Frame s s') (hg : Good s.inBatch s') : Inv s' :=
  inv_iff.mpr ((inv_iff.mp h).of_frame hf (by rw [List.append_nil]; exact hg))

theorem Inv.addTimer (h : Inv s) (hfree : s.Free p) {inLoop : Bool} {when : Timestamp}
    {interval : Interval} (hs : s.addTimer inLoop p when interval = some s') : Inv s' :=
  inv_iff.mpr ((inv_iff.mp h).addTimer hfree hs)

theorem Inv.runFunctor (h : Inv s) {f : TimerFunctor} {fs : List TimerFunctor}
    (hf : s.pendingFunctors = f :: fs)
    (hs : { s with pendingFunctors := fs }.runFunctor f = some s') : Inv s' :=
  inv_iff.mpr ((inv_iff.mp h).runFunctor hf hs)

theorem Inv.step {i : TimerInput} (h : Inv s) (hs : s.step i = some s') : Inv s' :=
  inv_iff.mpr ((inv_iff.mp h).step hs)

theorem inv_run {clock : Timestamp} {is : List TimerInput}
    (h : Run.run step (new clock) is = some s) : Inv s :=
  Run.run_invariant' (fun _ _ _ hinv hs => hinv.step hs) (inv_new clock) h

/-! ### Owners -/

inductive Owner where
  | functor
  | sets
  | batch
  | deleted

/-- The timer with this id is with that owner. -/
def OwnedBy (s : TimerQueue) (id : TimerId) : Owner → Prop
  | .functor => s.Live id ∧ id.timer ∈ s.queued
  | .sets => s.Live id ∧ id.active ∈ s.activeTimers
  | .batch => s.Live id ∧ id.timer ∈ s.inBatch
  | .deleted => .deleted id ∈ s.log

theorem Inv.existsUnique_owner (h : Inv s) (hid : id ∈ s.created) : ∃! o, s.OwnedBy id o := by
  have howned := h.good.owned
  obtain hlive | hdel := (h.good.ledger.mem_created id).mp hid
  · have hdel := h.good.ledger.not_deleted id hlive
    obtain ⟨t, ht, hseq⟩ := hlive
    have hactive : id.active ∈ s.activeTimers ↔ s.Held id.timer :=
      ⟨fun hmem => ⟨_, hmem⟩, fun hheld => by
        rw [TimerId.active, ← hseq]
        exact howned.active_of_held ht hheld⟩
    obtain hp | hp | hp := (howned.live id.timer).mp (Option.isSome_iff_exists.mpr ⟨t, ht⟩)
    · obtain ⟨h₁, h₂⟩ := howned.queued_apart id.timer hp
      refine ⟨.functor, ⟨⟨t, ht, hseq⟩, hp⟩, fun o ho => ?_⟩
      cases o with
      | functor => rfl
      | sets => exact absurd (hactive.mp ho.2) h₂
      | batch => exact absurd ho.2 h₁
      | deleted => exact absurd ho hdel
    · refine ⟨.batch, ⟨⟨t, ht, hseq⟩, hp⟩, fun o ho => ?_⟩
      cases o with
      | functor => exact absurd hp (howned.queued_apart id.timer ho.2).1
      | sets => exact absurd (hactive.mp ho.2) (howned.loose_apart id.timer hp)
      | batch => rfl
      | deleted => exact absurd ho hdel
    · refine ⟨.sets, ⟨⟨t, ht, hseq⟩, hactive.mpr hp⟩, fun o ho => ?_⟩
      cases o with
      | functor => exact absurd hp (howned.queued_apart id.timer ho.2).2
      | sets => rfl
      | batch => exact absurd hp (howned.loose_apart id.timer ho.2)
      | deleted => exact absurd ho hdel
  · have hlive : ¬s.Live id := fun hlive => h.good.ledger.not_deleted id hlive hdel
    refine ⟨.deleted, hdel, fun o ho => ?_⟩
    cases o with
    | functor | sets | batch => exact absurd ho.1 hlive
    | deleted => rfl

/-- **The two sets and the owners.** In every state of every run both sets hold the same timers,
each under its own expiration in the one and its own sequence in the other; every timer created has
exactly one owner, and has it once; nothing is deleted twice, run after its deletion, or reached
through a dangling pointer. -/
theorem owners (clock : Timestamp) (is : List TimerInput) (s : TimerQueue)
    (h : Run.run step (new clock) is = some s) :
    (∀ e p, toLex (e, p) ∈ s.timers ↔
      ∃ t, s.heap p = some t ∧ t.expiration = e ∧ toLex (p, t.sequence) ∈ s.activeTimers) ∧
    (∀ p q, toLex (p, q) ∈ s.activeTimers → ∃ t, s.heap p = some t ∧ t.sequence = q) ∧
    (∀ id ∈ s.created, ∃! o, s.OwnedBy id o) ∧
    s.queued.Nodup ∧ s.inBatch.Nodup ∧
    s.log.Pairwise TimerEvent.Before ∧ ∀ p, .invalid p ∉ s.log := by
  have hinv := inv_run h
  exact ⟨hinv.good.owned.timers, hinv.good.owned.active, fun id hid => hinv.existsUnique_owner hid,
    hinv.good.owned.queued_nodup, hinv.good.owned.loose_nodup, hinv.good.ledger.order,
    hinv.good.ledger.valid⟩

/-- A repeating timer, restarted by `reset`, and one that its callback adds. -/
theorem owners_restarted : ∃ s, Run.run step (new 1)
    [.addTimer true 8 1 ⟨true, 5, by decide⟩, .handleRead, .callback,
      .addTimer true 9 3 ⟨false, 0, by decide⟩, .reset] = some s ∧
    ∀ id ∈ s.created, ∃! o, s.OwnedBy id o := by
  obtain ⟨s, hs⟩ := Option.isSome_iff_exists.mp (show (Run.run step (new 1)
    [.addTimer true 8 1 ⟨true, 5, by decide⟩, .handleRead, .callback,
      .addTimer true 9 3 ⟨false, 0, by decide⟩, .reset]).isSome by decide +kernel)
  obtain ⟨-, -, howners, -⟩ := owners _ _ s hs
  exact ⟨s, hs, howners⟩

end TimerQueue

end MuduoX
