import MuduoX.Timer.Cancellation

/-! # What one `handleRead` does

The entries that are due are cut off from `timers_` by a sentinel pair: `now`, and an address that
no timer has. While their callbacks run, the batch is in a local variable and the two sets are those
of the timers that are not due, which the callbacks may add to and cancel. `reset` then goes through
the batch once more. -/

namespace MuduoX

/-- The timer whose callback is called. -/
def TimerEvent.run? : TimerEvent → Option TimerId
  | .run id => some id
  | _ => none

theorem TimerId.active_inj {id id' : TimerId} : id.active = id'.active ↔ id = id' := by
  obtain ⟨p, q⟩ := id
  obtain ⟨p', q'⟩ := id'
  rw [TimerId.active, TimerId.active, toLex_inj, Prod.mk.injEq, TimerId.mk.injEq]

namespace TimerQueue

variable {s s' s₀ s₁ : TimerQueue} {l : List Address} {p q : Address} {t : Timer} {id : TimerId}
  {is : List TimerInput} {i : TimerInput} {when : Timestamp} {interval : Interval}

/-- Both sets hold the timer, under its own expiration and its own sequence. -/
structure Registered (s : TimerQueue) (p : Address) (t : Timer) : Prop where
  heap : s.heap p = some t
  timers : toLex (t.expiration, p) ∈ s.timers
  active : toLex (p, t.sequence) ∈ s.activeTimers

/-- The entries of the timers that have expired by `now`, in the order of the set. -/
def due (s : TimerQueue) (now : Timestamp) : List TimerEntry :=
  s.timers.toList.filter fun e => (ofLex e).1 ≤ now

/-- The id of the timer that an entry leads to. -/
def entryId (s : TimerQueue) (e : TimerEntry) : TimerId :=
  ⟨(ofLex e).2, ((s.heap (ofLex e).2).map Timer.sequence).getD 0⟩

/-- The callbacks that have been called. -/
def runs (s : TimerQueue) : List TimerId := s.log.filterMap TimerEvent.run?

/-- In a run from `s`, the loop's thread adds this timer. -/
def AddedBy (s : TimerQueue) (is : List TimerInput) (p : Address) (t : Timer) : Prop :=
  ∃ is₁ is₂ s₁, is = is₁ ++ .addTimer true p t.expiration t.interval :: is₂ ∧
    Run.run step s is₁ = some s₁ ∧ t.sequence = s₁.numCreated

/-! ### The operations on the two sets -/

theorem registered_iff (h : Owned l s) :
    s.Registered p t ↔ s.heap p = some t ∧ toLex (p, t.sequence) ∈ s.activeTimers := by
  constructor
  · exact fun hr => ⟨hr.heap, hr.active⟩
  · rintro ⟨ht, hactive⟩
    exact ⟨ht, (h.timers _ _).mpr ⟨t, ht, rfl, hactive⟩, hactive⟩

/-- `timers_` alone says which timers the sets hold. -/
theorem registered_iff_timers (h : Owned l s) :
    s.Registered p t ↔ s.heap p = some t ∧ toLex (t.expiration, p) ∈ s.timers := by
  constructor
  · exact fun hr => ⟨hr.heap, hr.timers⟩
  · rintro ⟨ht, htimers⟩
    obtain ⟨t', ht', -, hactive⟩ := (h.timers _ _).mp htimers
    cases ht.symm.trans ht'
    exact ⟨ht, htimers, hactive⟩

theorem registered_congr (hheap : s'.heap = s.heap) (htimers : s'.timers = s.timers)
    (hactive : s'.activeTimers = s.activeTimers) : s'.Registered p t ↔ s.Registered p t := by
  constructor
  · rintro ⟨h₁, h₂, h₃⟩
    exact ⟨hheap ▸ h₁, htimers ▸ h₂, hactive ▸ h₃⟩
  · rintro ⟨h₁, h₂, h₃⟩
    exact ⟨hheap ▸ h₁, htimers ▸ h₂, hactive ▸ h₃⟩

/-- `cancelInLoop` takes out the timer with this id, if the sets hold it, and no other. -/
theorem registered_cancelInLoop (h : Owned l s) :
    (s.cancelInLoop id).Registered p t ↔ s.Registered p t ∧ (⟨p, t.sequence⟩ : TimerId) ≠ id := by
  rcases Decidable.em (id.active ∈ s.activeTimers) with hmem | hmem
  · obtain ⟨t₀, ht₀, hseq, heq⟩ := cancelInLoop_of_mem h hmem
    rw [heq, TimerQueue.delete]
    simp only [ht₀]
    obtain rfl | hp := eq_or_ne p id.timer
    · refine iff_of_false (fun hr => ?_) ?_
      · have hheap := hr.heap
        simp [TimerQueue.emit] at hheap
      · rintro ⟨hr, hne⟩
        cases ht₀.symm.trans hr.heap
        exact hne (by rw [hseq])
    · have hheap : (Function.update s.heap id.timer none) p = s.heap p :=
        Function.update_of_ne hp ..
      have hne : (⟨p, t.sequence⟩ : TimerId) ≠ id := fun heq => hp (congrArg TimerId.timer heq)
      rw [and_iff_left hne]
      constructor
      · rintro ⟨h₁, h₂, h₃⟩
        exact ⟨hheap.symm.trans h₁, (OrderedSet.mem_erase.mp h₂).2, (OrderedSet.mem_erase.mp h₃).2⟩
      · rintro ⟨h₁, h₂, h₃⟩
        refine ⟨hheap.trans h₁, OrderedSet.mem_erase.mpr ⟨fun heq => ?_, h₂⟩,
          OrderedSet.mem_erase.mpr ⟨fun heq => ?_, h₃⟩⟩
        · exact hp (Prod.mk.inj (toLex_inj.mp heq)).2
        · exact hp (Prod.mk.inj (toLex_inj.mp heq)).1
  · have hkeep : (s.cancelInLoop id).Registered p t ↔ s.Registered p t := by
      rw [cancelInLoop, if_neg hmem]
      split
      · exact registered_congr rfl rfl rfl
      · exact registered_congr rfl rfl rfl
    rw [hkeep, iff_self_and]
    rintro hr rfl
    exact hmem hr.active

/-- A timer that the sets do not hold keeps its object. -/
theorem heap_cancelInLoop (h : Owned l s) (hp : ¬s.Held p) :
    (s.cancelInLoop id).heap p = s.heap p := by
  rcases Decidable.em (id.active ∈ s.activeTimers) with hmem | hmem
  · obtain ⟨t₀, ht₀, -, heq⟩ := cancelInLoop_of_mem h hmem
    have hne : p ≠ id.timer := by
      rintro rfl
      exact hp ⟨_, hmem⟩
    rw [heq, TimerQueue.delete]
    simp only [ht₀]
    exact Function.update_of_ne hne ..
  · rw [cancelInLoop, if_neg hmem]
    split <;> rfl

theorem mem_canceling_cancelInLoop (h : Owned l s) (hcalling : s.callingExpiredTimers = true)
    {id' : TimerId} (hp : ¬s.Held id'.timer) :
    id'.active ∈ (s.cancelInLoop id).cancelingTimers ↔
      id'.active ∈ s.cancelingTimers ∨ id = id' := by
  rcases Decidable.em (id.active ∈ s.activeTimers) with hmem | hmem
  · obtain ⟨t₀, ht₀, -, heq⟩ := cancelInLoop_of_mem h hmem
    have hne : id ≠ id' := by
      rintro rfl
      exact hp ⟨_, hmem⟩
    rw [heq, TimerQueue.delete, or_iff_left hne]
    simp only [ht₀]
    rfl
  · rw [cancelInLoop, if_neg hmem, if_pos hcalling]
    exact OrderedSet.mem_insert.trans
      (or_comm.trans (or_congr_right (TimerId.active_inj.trans eq_comm)))

/-- `addTimerInLoop` puts the new timer into the sets and changes nothing else of the queue. -/
theorem addTimerInLoop_eq (ht : s.heap p = some t) (hs : s.addTimerInLoop p = some s') :
    ∃ fd, s' = { (s.insert p t).2 with timerfd := fd } := by
  rw [TimerQueue.addTimerInLoop, ht] at hs
  simp only at hs
  split at hs
  · obtain ⟨value, -, rfl⟩ := resetTimerfd_eq_some hs
    exact ⟨_, rfl⟩
  · cases hs
    exact ⟨_, rfl⟩

/-- The sets do not see what happens at an address that they do not hold. -/
theorem registered_store (hq : ¬s.Held q) (o : Option Timer) :
    (s.store q o).Registered p t ↔ s.Registered p t := by
  obtain rfl | hp := eq_or_ne p q
  · exact iff_of_false (fun hr => hq ⟨_, hr.active⟩) fun hr => hq ⟨_, hr.active⟩
  · have hheap : (s.store q o).heap p = s.heap p := Function.update_of_ne hp ..
    constructor
    · rintro ⟨h₁, h₂, h₃⟩
      exact ⟨hheap.symm.trans h₁, h₂, h₃⟩
    · rintro ⟨h₁, h₂, h₃⟩
      exact ⟨hheap.trans h₁, h₂, h₃⟩

theorem registered_create (when : Timestamp) (interval : Interval) (h : Owned l s)
    (hfree : s.Free q) :
    (s.create q when interval).Registered p t ↔ s.Registered p t := by
  have hq : ¬s.Held q := by
    rintro ⟨_, hactive⟩
    obtain ⟨t', ht', -⟩ := h.active _ _ hactive
    cases (Option.isNone_iff_eq_none.mp hfree.2.2).symm.trans ht'
  rw [← registered_store hq (some ⟨when, interval, s.numCreated⟩)]
  exact registered_congr rfl rfl rfl

theorem registered_insert {t₀ : Timer} (hq : s.heap q = some t₀) :
    (s.insert q t₀).2.Registered p t ↔ s.Registered p t ∨ p = q ∧ t = t₀ := by
  constructor
  · rintro ⟨h₁, h₂, h₃⟩
    obtain rfl | hp := eq_or_ne p q
    · cases hq.symm.trans h₁
      exact .inr ⟨rfl, rfl⟩
    · refine .inl ⟨h₁, (OrderedSet.mem_insert.mp h₂).resolve_left fun heq => ?_,
        (OrderedSet.mem_insert.mp h₃).resolve_left fun heq => ?_⟩
      · exact hp (Prod.mk.inj (toLex_inj.mp heq)).2
      · exact hp (Prod.mk.inj (toLex_inj.mp heq)).1
  · rintro (⟨h₁, h₂, h₃⟩ | ⟨rfl, rfl⟩)
    · exact ⟨h₁, OrderedSet.mem_insert.mpr (.inr h₂), OrderedSet.mem_insert.mpr (.inr h₃)⟩
    · exact ⟨hq, OrderedSet.mem_insert.mpr (.inl rfl), OrderedSet.mem_insert.mpr (.inl rfl)⟩

/-- The loop's thread adds a timer. -/
theorem registered_addTimer (h : Owned l s) (hfree : s.Free q)
    (hs : s.addTimer true q when interval = some s') :
    s'.Registered p t ↔ s.Registered p t ∨ p = q ∧ t = ⟨when, interval, s.numCreated⟩ := by
  have hq : (s.create q when interval).heap q = some ⟨when, interval, s.numCreated⟩ :=
    Function.update_self ..
  obtain ⟨fd, rfl⟩ := addTimerInLoop_eq hq hs
  rw [← registered_create when interval h hfree, ← registered_insert hq]
  exact registered_congr rfl rfl rfl

/-! ### The start of a batch -/

/-- A step creates at most one timer, at an address that is free. -/
theorem created_step (hs : s.step i = some s') : s.numCreated ≤ s'.numCreated ∧
    (s'.created = s.created ∨ ∃ p, s.Free p ∧ s'.created = s.created ++ [⟨p, s.numCreated⟩]) := by
  have hframe {s₁ : TimerQueue} (h : Frame s₁ s') (hnum : s.numCreated ≤ s₁.numCreated)
      (hcreated : s₁.created = s.created ∨
        ∃ p, s.Free p ∧ s₁.created = s.created ++ [⟨p, s.numCreated⟩]) :
      s.numCreated ≤ s'.numCreated ∧ (s'.created = s.created ∨
        ∃ p, s.Free p ∧ s'.created = s.created ++ [⟨p, s.numCreated⟩]) := by
    rw [h.numCreated, h.created]
    exact ⟨hnum, hcreated⟩
  cases i with
  | elapse micros =>
    cases hs
    exact ⟨le_refl _, .inl rfl⟩
  | elsewhere =>
    cases hs
    exact ⟨Nat.le_succ _, .inl rfl⟩
  | addTimer inLoop timer when interval =>
    obtain ⟨hfree, hs⟩ := Option.ite_none_right_eq_some.mp hs
    rw [TimerQueue.addTimer, runInLoop] at hs
    split at hs
    · exact hframe (.addTimerInLoop hs) (Nat.le_succ _) (.inr ⟨timer, hfree, rfl⟩)
    · cases hs
      exact ⟨Nat.le_succ _, .inr ⟨timer, hfree, rfl⟩⟩
  | cancel inLoop id =>
    obtain ⟨-, hs⟩ := Option.ite_none_right_eq_some.mp hs
    rw [TimerQueue.cancel, runInLoop] at hs
    split at hs
    · cases hs
      exact hframe (.cancelInLoop s id) (le_refl _) (.inl rfl)
    · cases hs
      exact ⟨le_refl _, .inl rfl⟩
  | doPendingFunctor =>
    rw [TimerQueue.step] at hs
    split at hs
    · rename_i f fs _ _
      cases f with
      | addTimerInLoop timer => exact hframe (.addTimerInLoop hs) (le_refl _) (.inl rfl)
      | cancelInLoop id =>
        cases hs
        exact hframe (.cancelInLoop _ id) (le_refl _) (.inl rfl)
    · cases hs
  | handleRead =>
    rw [TimerQueue.step] at hs
    split at hs
    · cases hs
      have hf := Frame.getExpired { s with timerfd := s.timerfd.read } s.clock
      exact ⟨hf.numCreated.ge, .inl hf.created⟩
    · cases hs
  | callback =>
    rw [TimerQueue.step] at hs
    split at hs
    · cases hs
      exact hframe (.runTimer ..) (le_refl _) (.inl rfl)
    · cases hs
  | reset =>
    rw [TimerQueue.step] at hs
    split at hs
    · exact hframe (.reset hs) (le_refl _) (.inl rfl)
    · cases hs

/-- No timer is at the address of the sentinel. -/
def Addressed (s : TimerQueue) : Prop := ∀ id ∈ s.created, id.timer < UINTPTR_MAX

theorem Addressed.step (h : Addressed s) (hs : s.step i = some s') : Addressed s' := by
  intro id hid
  obtain ⟨-, hcreated | ⟨p, hfree, hcreated⟩⟩ := created_step hs
  · exact h id (hcreated ▸ hid)
  · rw [hcreated, List.mem_append, List.mem_singleton] at hid
    rcases hid with hid | rfl
    · exact h id hid
    · exact hfree.2.1

/-- The sentinel cuts off the entries that are due. -/
theorem below_eq_due (h : Good l s) (haddr : Addressed s) (now : Timestamp) :
    s.timers.below (toLex (now, UINTPTR_MAX)) = s.due now := by
  rw [OrderedSet.below_eq_filter, due]
  refine List.filter_congr fun e he => decide_eq_decide.mpr ?_
  obtain ⟨t, ht, -, hactive⟩ := (h.owned.timers (ofLex e).1 (ofLex e).2).mp he
  have hlive : s.Live ⟨(ofLex e).2, t.sequence⟩ := ⟨t, ht, rfl⟩
  have hlt := haddr _ ((h.ledger.mem_created _).mpr (.inl hlive))
  rw [Prod.Lex.lt_iff]
  constructor
  · rintro (hlt' | ⟨heq, -⟩)
    · exact hlt'.le
    · exact heq.le
  · intro hle
    rcases hle.lt_or_eq with hlt' | heq
    · exact .inl hlt'
    · exact .inr ⟨heq, hlt⟩

/-- The batch is what is due, and the sets keep the rest. -/
theorem beginBatch_eq (h : Inv s) (hb : s.batch = none) (haddr : Addressed s) :
    ∃ A, s.beginBatch = { s with
      timerfd := s.timerfd.read
      timers := s.timers.notBelow (toLex (s.clock, UINTPTR_MAX))
      activeTimers := A
      callingExpiredTimers := true
      cancelingTimers := ∅
      batch := some ⟨s.clock, s.due s.clock, s.due s.clock⟩ } := by
  have howned : Owned [] { s with timerfd := s.timerfd.read } :=
    (inBatch_none hb ▸ h.good.owned).congr rfl rfl rfl rfl
  obtain ⟨A, heq, -⟩ := howned.getExpired_eq s.clock
  have hdue : ({ s with timerfd := s.timerfd.read }.getExpired s.clock).1 = s.due s.clock :=
    below_eq_due h.good haddr s.clock
  refine ⟨A, ?_⟩
  rw [beginBatch, heq, hdue]

theorem registered_beginBatch (h : Inv s) (hb : s.batch = none) (haddr : Addressed s)
    (hinv : Inv s.beginBatch) :
    s.beginBatch.Registered p t ↔ s.Registered p t ∧ ¬t.expiration ≤ s.clock := by
  have howned := hinv.good.owned
  obtain ⟨A, heq⟩ := beginBatch_eq h hb haddr
  rw [registered_iff_timers howned, registered_iff_timers h.good.owned, and_assoc, heq]
  refine and_congr_right fun _ => ?_
  rw [OrderedSet.mem_notBelow]
  refine and_congr_right fun hmem => not_congr ?_
  have hbelow : toLex (t.expiration, p) ∈ s.timers.below (toLex (s.clock, UINTPTR_MAX)) ↔
      t.expiration ≤ s.clock := by
    rw [below_eq_due h.good haddr, due, List.mem_filter, decide_eq_true_iff]
    exact and_iff_right hmem
  rw [← hbelow, OrderedSet.mem_below, and_iff_right hmem]

/-! ### The callbacks of a batch -/

/-- A batch that has begun in `s₀`; the callbacks of `done` have been called. -/
structure Running (s₀ : TimerQueue) (done todo : List TimerEntry) (s : TimerQueue) : Prop where
  inv : Inv s
  batch : s.batch = some ⟨s₀.clock, s₀.due s₀.clock, todo⟩
  due : s₀.due s₀.clock = done ++ todo
  calling : s.callingExpiredTimers = true
  heap : ∀ e ∈ s₀.due s₀.clock, s.heap (ofLex e).2 = s₀.heap (ofLex e).2
  runs : s.runs = s₀.runs ++ done.map s₀.entryId

theorem runs_of_effect {c : TimerId → Prop} (h : Effect c s s') : s'.runs = s.runs := by
  obtain ⟨es, hlog, hes⟩ := h.log
  have hnone : es.filterMap TimerEvent.run? = [] := by
    refine List.filterMap_eq_nil_iff.mpr fun e he => ?_
    cases e with
    | run id => exact absurd rfl ((hes _ he).1 id)
    | cancelled id | deleted id | invalid timer => rfl
  rw [runs, hlog, List.filterMap_append, hnone, List.append_nil]
  rfl

namespace Running

variable {done todo : List TimerEntry} {e : TimerEntry}

theorem loose (h : Running s₀ done todo s) (he : e ∈ s₀.due s₀.clock) :
    (∃ t, s.heap (ofLex e).2 = some t) ∧ ¬s.Held (ofLex e).2 := by
  have hmem : (ofLex e).2 ∈ s.inBatch := by
    rw [inBatch, h.batch]
    exact List.mem_map_of_mem he
  exact ⟨h.inv.good.owned.of_loose hmem, h.inv.good.owned.loose_apart _ hmem⟩

/-- A step that is no callback. -/
theorem of_eq (h : Running s₀ done todo s) (hinv : Inv s') (hbatch : s'.batch = s.batch)
    (hcalling : s'.callingExpiredTimers = s.callingExpiredTimers)
    (hheap : ∀ e ∈ s₀.due s₀.clock, s'.heap (ofLex e).2 = s.heap (ofLex e).2)
    (hruns : s'.runs = s.runs) : Running s₀ done todo s' where
  inv := hinv
  batch := hbatch.trans h.batch
  due := h.due
  calling := hcalling.trans h.calling
  heap e he := (hheap e he).trans (h.heap e he)
  runs := hruns.trans h.runs

/-- What a new timer is created over is none of the batch. -/
theorem heap_create (h : Running s₀ done todo s) (hfree : s.Free q)
    (he : e ∈ s₀.due s₀.clock) :
    (s.create q when interval).heap (ofLex e).2 = s.heap (ofLex e).2 := by
  refine Function.update_of_ne ?_ ..
  rintro rfl
  obtain ⟨⟨t, ht⟩, -⟩ := h.loose he
  cases (Option.isNone_iff_eq_none.mp hfree.2.2).symm.trans ht

theorem addTimer (h : Running s₀ done todo s) {inLoop : Bool} (hfree : s.Free q)
    (hs : s.addTimer inLoop q when interval = some s') : Running s₀ done todo s' ∧
      s'.cancelingTimers = s.cancelingTimers ∧
      (s'.Registered p t ↔ s.Registered p t ∨
        inLoop = true ∧ p = q ∧ t = ⟨when, interval, s.numCreated⟩) := by
  have howned := h.inv.good.owned
  have hinv := h.inv.addTimer hfree hs
  cases inLoop with
  | true =>
    have hregistered := registered_addTimer (p := p) (t := t) howned hfree hs
    have hq : (s.create q when interval).heap q = some ⟨when, interval, s.numCreated⟩ :=
      Function.update_self ..
    obtain ⟨fd, rfl⟩ := addTimerInLoop_eq hq hs
    refine ⟨h.of_eq hinv rfl rfl (fun e he => h.heap_create hfree he) rfl, rfl, ?_⟩
    rw [hregistered, and_iff_right rfl]
  | false =>
    cases hs
    refine ⟨h.of_eq hinv rfl rfl (fun e he => h.heap_create hfree he) rfl, rfl, ?_⟩
    rw [or_iff_left fun hloop => Bool.false_ne_true hloop.1,
      ← registered_create when interval howned hfree]
    exact registered_congr rfl rfl rfl

theorem cancelInLoop (h : Running s₀ done todo s) (id : TimerId) :
    Running s₀ done todo (s.cancelInLoop id) := by
  have hframe := Frame.cancelInLoop s id
  have heffect := Effect.cancelInLoop s id
  refine h.of_eq (h.inv.of_frame hframe (h.inv.good.cancelInLoop id)) hframe.batch heffect.calling
    (fun e he => heap_cancelInLoop h.inv.good.owned (h.loose he).2) (runs_of_effect heffect)

/-- The next callback is the next due timer's. -/
theorem runTimer_eq (h : Running s₀ done (e :: todo) s) :
    { s with batch := some ⟨s₀.clock, s₀.due s₀.clock, todo⟩ }.runTimer (ofLex e).2 =
      { s with batch := some ⟨s₀.clock, s₀.due s₀.clock, todo⟩ }.emit (.run (s₀.entryId e)) := by
  have he : e ∈ s₀.due s₀.clock := by
    rw [h.due]
    exact List.mem_append_right _ (List.mem_cons_self ..)
  obtain ⟨⟨t, ht⟩, -⟩ := h.loose he
  rw [runTimer, entryId, ← h.heap e he, ht]
  rfl

theorem callback (h : Running s₀ done (e :: todo) s) (hinv : Inv
      ({ s with batch := some ⟨s₀.clock, s₀.due s₀.clock, todo⟩ }.emit (.run (s₀.entryId e)))) :
    Running s₀ (done ++ [e]) todo
      ({ s with batch := some ⟨s₀.clock, s₀.due s₀.clock, todo⟩ }.emit (.run (s₀.entryId e))) := by
  refine ⟨hinv, rfl, ?_, h.calling, h.heap, ?_⟩
  · rw [h.due, List.append_assoc, List.singleton_append]
  · rw [List.map_append, ← List.append_assoc, ← h.runs]
    exact List.filterMap_append ..

/-- What a step in a batch does to the sets and to the marks. -/
structure Change (s₀ s : TimerQueue) (i : TimerInput) (s' : TimerQueue) : Prop where
  canceling : ∀ e ∈ s₀.due s₀.clock, (s₀.entryId e).active ∈ s'.cancelingTimers ↔
    (s₀.entryId e).active ∈ s.cancelingTimers ∨ i = .cancel true (s₀.entryId e)
  registered : ∀ p t, s'.Registered p t ↔ (s.Registered p t ∨
    i = .addTimer true p t.expiration t.interval ∧ t.sequence = s.numCreated) ∧
    i ≠ .cancel true ⟨p, t.sequence⟩

/-- A step that is neither an addition nor a cancellation by the loop's thread. -/
theorem Change.of_eq (hcancel : ∀ id, i ≠ .cancel true id)
    (hadd : ∀ p w v, i ≠ .addTimer true p w v)
    (hcanceling : s'.cancelingTimers = s.cancelingTimers)
    (hregistered : ∀ p t, s'.Registered p t ↔ s.Registered p t) : Change s₀ s i s' where
  canceling e he := by rw [hcanceling, or_iff_left (hcancel _)]
  registered p t := by
    rw [hregistered, or_iff_left fun h => hadd _ _ _ h.1, and_iff_left (hcancel _)]

theorem step (h : Running s₀ done todo s) (hi : i ≠ .reset) (hs : s.step i = some s') :
    (∃ done' todo', Running s₀ done' todo' s') ∧ Change s₀ s i s' := by
  have hinv := h.inv.step hs
  cases i with
  | elapse micros =>
    cases hs
    exact ⟨⟨done, todo, h.of_eq hinv rfl rfl (fun _ _ => rfl) rfl⟩,
      .of_eq (by simp) (by simp) rfl fun p t => registered_congr rfl rfl rfl⟩
  | elsewhere =>
    cases hs
    exact ⟨⟨done, todo, h.of_eq hinv rfl rfl (fun _ _ => rfl) rfl⟩,
      .of_eq (by simp) (by simp) rfl fun p t => registered_congr rfl rfl rfl⟩
  | addTimer inLoop timer when interval =>
    obtain ⟨hfree, hs⟩ := Option.ite_none_right_eq_some.mp hs
    have hadd (p : Address) (t : Timer) := h.addTimer (p := p) (t := t) hfree hs
    refine ⟨⟨done, todo, (hadd timer ⟨0, interval, 0⟩).1⟩, fun e he => ?_, fun p t => ?_⟩
    · rw [(hadd timer ⟨0, interval, 0⟩).2.1]
      simp
    · rw [(hadd p t).2.2]
      obtain ⟨expiration, interval', sequence⟩ := t
      simp only [TimerInput.addTimer.injEq, Timer.mk.injEq, ne_eq, reduceCtorEq, not_false_eq_true,
        and_true]
      grind
  | cancel inLoop id =>
    obtain ⟨-, hs⟩ := Option.ite_none_right_eq_some.mp hs
    cases inLoop with
    | true =>
      cases hs
      have howned := h.inv.good.owned
      refine ⟨⟨done, todo, h.cancelInLoop id⟩, fun e he => ?_, fun p t => ?_⟩
      · rw [mem_canceling_cancelInLoop howned h.calling (h.loose he).2, TimerInput.cancel.injEq]
        simp
      · rw [registered_cancelInLoop howned]
        simp [eq_comm]
    | false =>
      cases hs
      exact ⟨⟨done, todo, h.of_eq hinv rfl rfl (fun _ _ => rfl) rfl⟩,
        .of_eq (by simp) (by simp) rfl fun p t => registered_congr rfl rfl rfl⟩
  | doPendingFunctor =>
    rw [TimerQueue.step, h.batch] at hs
    cases hs
  | handleRead =>
    rw [TimerQueue.step, h.batch] at hs
    cases hs
  | callback =>
    rw [TimerQueue.step, h.batch] at hs
    cases todo with
    | nil => cases hs
    | cons e todo =>
      cases hs
      rw [h.runTimer_eq] at hinv ⊢
      exact ⟨⟨done ++ [e], todo, h.callback hinv⟩,
        .of_eq (by simp) (by simp) rfl fun p t => registered_congr rfl rfl rfl⟩
  | reset => exact absurd rfl hi

/-- What the callbacks of a batch do to the sets and to the marks. -/
structure Changes (s₀ s : TimerQueue) (is : List TimerInput) (s' : TimerQueue) : Prop where
  canceling : ∀ e ∈ s₀.due s₀.clock, (s₀.entryId e).active ∈ s'.cancelingTimers ↔
    (s₀.entryId e).active ∈ s.cancelingTimers ∨ .cancel true (s₀.entryId e) ∈ is
  registered : ∀ p t, s'.Registered p t ↔ (s.Registered p t ∨ AddedBy s is p t) ∧
    .cancel true ⟨p, t.sequence⟩ ∉ is

end Running

/-! ### What is added later -/

theorem not_addedBy_nil : ¬AddedBy s [] p t := by
  rintro ⟨is₁, is₂, s₁, h, -⟩
  cases is₁ <;> cases h

theorem addedBy_cons (hs : s.step i = some s₁) : AddedBy s (i :: is) p t ↔
    (i = .addTimer true p t.expiration t.interval ∧ t.sequence = s.numCreated) ∨
      AddedBy s₁ is p t := by
  constructor
  · rintro ⟨is₁, is₂, s₂, h, hrun, hseq⟩
    cases is₁ with
    | nil =>
      cases h
      cases hrun
      exact .inl ⟨rfl, hseq⟩
    | cons j is₁ =>
      cases h
      obtain ⟨s₁', hs', hrun⟩ := Run.run_cons.mp hrun
      cases hs.symm.trans hs'
      exact .inr ⟨is₁, is₂, s₂, rfl, hrun, hseq⟩
  · rintro (⟨rfl, hseq⟩ | ⟨is₁, is₂, s₂, rfl, hrun, hseq⟩)
    · exact ⟨[], is, s, rfl, rfl, hseq⟩
    · exact ⟨i :: is₁, is₂, s₂, rfl, Run.run_cons.mpr ⟨s₁, hs, hrun⟩, hseq⟩

/-- The id of a timer that is still to be added is not known. -/
theorem AddedBy.not_known (h : AddedBy s is p t) (hrun : Run.run step s is = some s') :
    ¬s.Known ⟨p, t.sequence⟩ := by
  obtain ⟨is₁, is₂, s₁, rfl, hrun₁, hseq⟩ := h
  obtain ⟨s₂, hrun₂, hrun⟩ := Run.run_append.mp hrun
  cases hrun₁.symm.trans hrun₂
  obtain ⟨s₃, hs₃, -⟩ := Run.run_cons.mp hrun
  obtain ⟨hfree, -⟩ := Option.ite_none_right_eq_some.mp hs₃
  have hle : s.numCreated ≤ s₁.numCreated := Run.run_invariant'
    (I := fun x => s.numCreated ≤ x.numCreated)
    (fun _ _ _ hx hs => hx.trans (created_step hs).1) (le_refl _) hrun₁
  rintro (hnull | hlt)
  · exact hfree.1 (congrArg TimerId.timer hnull)
  · rw [hseq] at hlt
    exact absurd hle (not_le.mpr hlt)

namespace Running

variable {done todo : List TimerEntry}

theorem run (h : Running s₀ done todo s) (his : .reset ∉ is)
    (hs : Run.run TimerQueue.step s is = some s') :
    (∃ done' todo', Running s₀ done' todo' s') ∧ Changes s₀ s is s' := by
  induction is generalizing s done todo with
  | nil =>
    cases hs
    refine ⟨⟨done, todo, h⟩, fun e he => ?_, fun p t => ?_⟩
    · rw [or_iff_left List.not_mem_nil]
    · rw [or_iff_left not_addedBy_nil, and_iff_left List.not_mem_nil]
  | cons i is ih =>
    obtain ⟨s₁, h₁, hrun⟩ := Run.run_cons.mp hs
    obtain ⟨hi, his⟩ := not_or.mp (mt List.mem_cons.mpr his)
    obtain ⟨⟨done₁, todo₁, hrunning⟩, hchange⟩ := h.step (Ne.symm hi) h₁
    obtain ⟨hrunning', hchanges⟩ := ih hrunning his hrun
    refine ⟨hrunning', fun e he => ?_, fun p t => ?_⟩
    · rw [hchanges.canceling e he, hchange.canceling e he, List.mem_cons, or_assoc, eq_comm]
    · rw [hchanges.registered, hchange.registered, addedBy_cons h₁, List.mem_cons, not_or]
      have hlater (hadd : AddedBy s₁ is p t) : i ≠ .cancel true ⟨p, t.sequence⟩ := by
        rintro rfl
        obtain ⟨hknown, -⟩ := Option.ite_none_right_eq_some.mp h₁
        exact hadd.not_known hrun (hknown.imp_right fun hlt =>
          hlt.trans_le (created_step h₁).1)
      constructor
      · rintro ⟨⟨hr | hr, hi⟩ | hadd, hmem⟩
        · exact ⟨.inl hr, Ne.symm hi, hmem⟩
        · exact ⟨.inr (.inl hr), Ne.symm hi, hmem⟩
        · exact ⟨.inr (.inr hadd), Ne.symm (hlater hadd), hmem⟩
      · rintro ⟨hr | hr | hadd, hi, hmem⟩
        · exact ⟨.inl ⟨.inl hr, Ne.symm hi⟩, hmem⟩
        · exact ⟨.inl ⟨.inr hr, Ne.symm hi⟩, hmem⟩
        · exact ⟨.inr hadd, hmem⟩

end Running

/-! ### The end of a batch -/

/-- `reset` puts this timer back, and it then is `t`. -/
def Restarts (s : TimerQueue) (now : Timestamp) (p : Address) (t : Timer) : Prop :=
  ∃ t₀, s.heap p = some t₀ ∧ t₀.repeats ∧ toLex (p, t₀.sequence) ∉ s.cancelingTimers ∧
    t = { t₀ with expiration := now + t₀.interval.micros }

theorem restart_eq_some {t₀ : Timer} {now : Timestamp} (hrepeats : t₀.repeats)
    (h : t₀.restart now = some t) : t = { t₀ with expiration := now + t₀.interval.micros } := by
  rw [Timer.restart, if_pos hrepeats, addTime, int64] at h
  obtain ⟨e, he, rfl⟩ := Option.map_eq_some_iff.mp h
  obtain ⟨-, he⟩ := Option.ite_none_right_eq_some.mp he
  cases he
  rfl

/-- One entry of `reset`. -/
structure Reset (now : Timestamp) (q : Address) (s s' : TimerQueue) : Prop where
  registered : ∀ p t, s'.Registered p t ↔ s.Registered p t ∨ p = q ∧ Restarts s now p t
  deleted : (∃ t, Restarts s now q t) ∨ ∃ t, s.heap q = some t ∧ .deleted ⟨q, t.sequence⟩ ∈ s'.log
  heap : ∀ p ≠ q, s'.heap p = s.heap p
  canceling : s'.cancelingTimers = s.cancelingTimers

theorem Reset.of_entry {now : Timestamp} {e : TimerEntry} (h : Owned ((ofLex e).2 :: l) s)
    (hs : s.resetEntry now e = some s') : Reset now (ofLex e).2 s s' := by
  obtain ⟨t₀, ht₀⟩ := h.of_loose List.mem_cons_self
  have hheld := h.loose_apart _ List.mem_cons_self
  rw [resetEntry, ht₀] at hs
  simp only at hs
  split at hs
  · rename_i hkept
    obtain ⟨t', ht', rfl⟩ := Option.map_eq_some_iff.mp hs
    obtain ⟨hrepeats, hmarked⟩ := hkept
    have hnew := restart_eq_some hrepeats ht'
    have hrestarts {t : Timer} : Restarts s now (ofLex e).2 t ↔ t = t' := by
      constructor
      · rintro ⟨t₁, ht₁, -, -, rfl⟩
        cases ht₀.symm.trans ht₁
        exact hnew.symm
      · rintro rfl
        exact ⟨t₀, ht₀, hrepeats, hmarked, hnew⟩
    refine ⟨fun p t => ?_, .inl ⟨t', hrestarts.mpr rfl⟩, fun p hp => ?_, rfl⟩
    · rw [registered_insert (Function.update_self ..), registered_store hheld]
      refine or_congr_right (and_congr_right ?_)
      rintro rfl
      exact hrestarts.symm
    · exact Function.update_of_ne hp ..
  · rename_i hnot
    cases hs
    have hdelete : s.delete (ofLex e).2 =
        (s.store (ofLex e).2 none).emit (.deleted ⟨(ofLex e).2, t₀.sequence⟩) := by
      rw [TimerQueue.delete, ht₀]
    rw [hdelete]
    refine ⟨fun p t => ?_, .inr ⟨t₀, ht₀, ?_⟩, fun p hp => ?_, rfl⟩
    · rw [or_iff_left, ← registered_store hheld none]
      · exact registered_congr rfl rfl rfl
      · rintro ⟨rfl, t₁, ht₁, hrepeats, hmarked, -⟩
        cases ht₀.symm.trans ht₁
        exact hnot ⟨hrepeats, hmarked⟩
    · exact List.mem_append_right _ (List.mem_singleton_self _)
    · exact Function.update_of_ne hp ..

/-- The loop of `reset`. -/
theorem foldlM_resetEntry_spec {now : Timestamp} {es : List TimerEntry}
    (hg : Good (es.map fun e => (ofLex e).2) s) (h : es.foldlM (resetEntry now) s = some s') :
    (∀ p t, s'.Registered p t ↔
      s.Registered p t ∨ p ∈ es.map (fun e => (ofLex e).2) ∧ Restarts s now p t) ∧
    ∀ e ∈ es, (∃ t, Restarts s now (ofLex e).2 t) ∨
      ∃ t, s.heap (ofLex e).2 = some t ∧ .deleted ⟨(ofLex e).2, t.sequence⟩ ∈ s'.log := by
  induction es generalizing s with
  | nil =>
    cases h
    refine ⟨fun p t => ?_, fun e he => absurd he List.not_mem_nil⟩
    rw [or_iff_left fun hp => List.not_mem_nil hp.1]
  | cons e es ih =>
    obtain ⟨s₁, h₁, hrest⟩ := Option.bind_eq_some_iff.mp h
    have hreset : Reset now (ofLex e).2 s s₁ := .of_entry hg.owned h₁
    obtain ⟨hregistered, hend⟩ := ih (hg.resetEntry h₁) hrest
    have hne {p : Address} (hp : p ∈ es.map fun e => (ofLex e).2) : p ≠ (ofLex e).2 := by
      rintro rfl
      exact (List.nodup_cons.mp hg.owned.loose_nodup).1 hp
    have hrestarts {p : Address} {t : Timer} (hp : p ∈ es.map fun e => (ofLex e).2) :
        Restarts s₁ now p t ↔ Restarts s now p t := by
      rw [Restarts, Restarts, hreset.heap p (hne hp), hreset.canceling]
    constructor
    · intro p t
      rw [hregistered, hreset.registered, List.map_cons, List.mem_cons, or_assoc, or_and_right]
      refine or_congr_right (or_congr_right (and_congr_right fun hp => hrestarts hp))
    · intro e' he'
      rcases List.mem_cons.mp he' with rfl | he'
      · refine hreset.deleted.imp_right ?_
        rintro ⟨t, ht, hdeleted⟩
        obtain ⟨es', hlog, -⟩ := (Effect.foldlM_resetEntry (c := fun _ => False) hrest).log
        refine ⟨t, ht, ?_⟩
        rw [hlog]
        exact List.mem_append_left _ hdeleted
      · have hp : (ofLex e').2 ∈ es.map fun e => (ofLex e).2 := List.mem_map_of_mem he'
        rw [← hreset.heap _ (hne hp)]
        simp only [← hrestarts hp]
        exact hend e' he'

/-! ### The whole of it -/

/-- What a `handleRead` that begins in `s`, and in which the callbacks and the other threads do
`is`, leads to. -/
structure BatchDone (s : TimerQueue) (is : List TimerInput) (s' : TimerQueue) : Prop where
  /-- the callbacks are those of the timers that are due, in this order, -/
  runs : s'.runs = s.runs ++ (s.due s.clock).map s.entryId
  /-- each once, -/
  once : ((s.due s.clock).map s.entryId).Nodup
  /-- and the order is that of the expirations -/
  ordered : (s.due s.clock).Pairwise fun e e' => (ofLex e).1 ≤ (ofLex e').1
  /-- a timer of the batch comes back if it repeats and has not been cancelled -/
  batch : ∀ e ∈ s.due s.clock, ∃ t, s.Registered (ofLex e).2 t ∧
    t.expiration = (ofLex e).1 ∧ s.entryId e = ⟨(ofLex e).2, t.sequence⟩ ∧
    (t.repeats ∧ .cancel true (s.entryId e) ∉ is →
      s'.Registered (ofLex e).2 { t with expiration := s.clock + t.interval.micros }) ∧
    (¬(t.repeats ∧ .cancel true (s.entryId e) ∉ is) →
      .deleted (s.entryId e) ∈ s'.log ∧ ¬s'.Live (s.entryId e))
  /-- the sets hold the other timers they held, and those that the callbacks add, except for those
  that the callbacks cancel -/
  others : ∀ p t, (⟨p, t.sequence⟩ : TimerId) ∉ (s.due s.clock).map s.entryId →
    (s'.Registered p t ↔ (s.Registered p t ∨ AddedBy s (.handleRead :: is) p t) ∧
      .cancel true ⟨p, t.sequence⟩ ∉ is)

variable {e : TimerEntry} {done todo : List TimerEntry}

theorem registered_of_due (h : Owned l s) (he : e ∈ s.due s.clock) :
    ∃ t, s.Registered (ofLex e).2 t ∧ t.expiration = (ofLex e).1 ∧
      s.entryId e = ⟨(ofLex e).2, t.sequence⟩ := by
  obtain ⟨t, ht, hexpiration, hactive⟩ :=
    (h.timers (ofLex e).1 (ofLex e).2).mp (List.mem_filter.mp he).1
  refine ⟨t, (registered_iff h).mpr ⟨ht, hactive⟩, hexpiration, ?_⟩
  rw [entryId, ht]
  rfl

/-- Two entries of one timer are one. -/
theorem nodup_due (h : Owned l s) : ((s.due s.clock).map s.entryId).Nodup := by
  refine (s.timers.nodup.filter _).map_on fun e he e' he' heq => ?_
  obtain ⟨t, hr, hexp, hid⟩ := registered_of_due h he
  obtain ⟨t', hr', hexp', hid'⟩ := registered_of_due h he'
  have hp : (ofLex e).2 = (ofLex e').2 := congrArg TimerId.timer heq
  rw [hp] at hr
  cases hr.heap.symm.trans hr'.heap
  exact ofLex.injective (Prod.ext (hexp.symm.trans hexp') hp)

theorem ordered_due (s : TimerQueue) (now : Timestamp) :
    (s.due now).Pairwise fun e e' => (ofLex e).1 ≤ (ofLex e').1 := by
  refine (s.timers.sorted.filter _).imp fun h => ?_
  rcases Prod.Lex.lt_iff.mp h with hlt | ⟨heq, -⟩
  · exact hlt.le
  · exact heq.le

theorem Running.beginBatch (h : Inv s) (hb : s.batch = none) (haddr : Addressed s)
    (hinv : Inv s.beginBatch) : Running s [] (s.due s.clock) s.beginBatch := by
  obtain ⟨A, heq⟩ := beginBatch_eq h hb haddr
  rw [heq] at hinv ⊢
  exact ⟨hinv, rfl, rfl, rfl, fun _ _ => rfl, (List.append_nil _).symm⟩

/-- The sets at the start of the batch, for the timers that are none of it. -/
theorem registered_beginBatch_of_not_mem (h : Inv s) (hb : s.batch = none) (haddr : Addressed s)
    (hinv : Inv s.beginBatch) (hid : (⟨p, t.sequence⟩ : TimerId) ∉ (s.due s.clock).map s.entryId) :
    s.beginBatch.Registered p t ↔ s.Registered p t := by
  rw [registered_beginBatch h hb haddr hinv]
  refine and_iff_left_of_imp fun hr hle => hid ?_
  refine List.mem_map.mpr ⟨toLex (t.expiration, p), List.mem_filter.mpr ⟨hr.timers, ?_⟩, ?_⟩
  · exact decide_eq_true hle
  · change TimerId.mk p (((s.heap p).map Timer.sequence).getD 0) = _
    rw [hr.heap]
    rfl

/-- `reset` at the end of a batch. -/
theorem Running.batchDone (hinv₀ : Inv s₀) (hb : s₀.batch = none) (haddr : Addressed s₀)
    (hbegin : Inv s₀.beginBatch) (h : Running s₀ done todo s)
    (hchanges : Changes s₀ s₀.beginBatch is s) (hs : s.step .reset = some s') :
    BatchDone s₀ is s' := by
  have howned₀ := hinv₀.good.owned
  have hinv' := h.inv.step hs
  rw [TimerQueue.step, h.batch] at hs
  cases todo with
  | cons e todo => cases hs
  | nil =>
  have hdue : s₀.due s₀.clock = done := h.due.trans (List.append_nil _)
  have hin : s.inBatch = (s₀.due s₀.clock).map fun e => (ofLex e).2 := by rw [inBatch, h.batch]
  have hgood : Good ((s₀.due s₀.clock).map fun e => (ofLex e).2)
      { s with callingExpiredTimers := false, batch := none } :=
    hin ▸ ⟨h.inv.good.owned.congr rfl rfl rfl rfl,
      h.inv.good.ledger.congr rfl (le_refl _) rfl fun _ => Iff.rfl⟩
  obtain ⟨s₁, h₁, hs⟩ := Option.bind_eq_some_iff.mp hs
  obtain ⟨hregistered, hend⟩ := foldlM_resetEntry_spec hgood h₁
  have heffect : Effect (fun _ => False)
      { s with callingExpiredTimers := false, batch := none } s₁ := .foldlM_resetEntry h₁
  have hruns : s₁.runs = s.runs := (runs_of_effect heffect).trans rfl
  obtain ⟨fd, rfl⟩ := rearm_eq_some hs
  have hfd (p : Address) (t : Timer) :
      Registered { s₁ with timerfd := fd } p t ↔ s₁.Registered p t := registered_congr rfl rfl rfl
  -- `reset` sees the timers of the batch as they were when it began, and the marks of `is`
  have hrestarts {e : TimerEntry} (he : e ∈ s₀.due s₀.clock) {t₀ : Timer}
      (ht₀ : s₀.Registered (ofLex e).2 t₀) (hid : s₀.entryId e = ⟨(ofLex e).2, t₀.sequence⟩) :
      ∀ t, Restarts { s with callingExpiredTimers := false, batch := none } s₀.clock (ofLex e).2 t ↔
        (t₀.repeats ∧ .cancel true (s₀.entryId e) ∉ is) ∧
          t = { t₀ with expiration := s₀.clock + t₀.interval.micros } := by
    intro t
    have hheap : s.heap (ofLex e).2 = some t₀ := (h.heap e he).trans ht₀.heap
    have hmarked : toLex ((ofLex e).2, t₀.sequence) ∈ s.cancelingTimers ↔
        .cancel true (s₀.entryId e) ∈ is := by
      have hcanceling := hchanges.canceling e he
      obtain ⟨A, heq⟩ := beginBatch_eq hinv₀ hb haddr
      rw [heq, or_iff_right OrderedSet.notMem_empty] at hcanceling
      rw [← hcanceling, hid]
      rfl
    rw [← hmarked, and_assoc]
    constructor
    · rintro ⟨t₁, ht₁, hrestart⟩
      cases hheap.symm.trans ht₁
      exact hrestart
    · intro hrestart
      exact ⟨t₀, hheap, hrestart⟩
  refine ⟨?_, nodup_due howned₀, ordered_due s₀ s₀.clock, fun e he => ?_, fun p t hid => ?_⟩
  · rw [hdue, ← h.runs, ← hruns]
    rfl
  · obtain ⟨t, hr, hexpiration, hid⟩ := registered_of_due howned₀ he
    refine ⟨t, hr, hexpiration, hid, fun hback => ?_, fun hgone => ?_⟩
    · refine (hfd _ _).mpr ((hregistered _ _).mpr (.inr ⟨?_, ?_⟩))
      · exact List.mem_map_of_mem he
      · exact (hrestarts he hr hid _).mpr ⟨hback, rfl⟩
    · have hdeleted : .deleted (s₀.entryId e) ∈ s₁.log := by
        rcases hend e he with ⟨t', ht'⟩ | ⟨t', ht', hlog⟩
        · exact absurd ((hrestarts he hr hid t').mp ht').1 hgone
        · cases ((h.heap e he).trans hr.heap).symm.trans ht'
          rw [hid]
          exact hlog
      exact ⟨hdeleted, fun hlive => hinv'.good.ledger.not_deleted _ hlive hdeleted⟩
  · have hnot : ¬(p ∈ (s₀.due s₀.clock).map (fun e => (ofLex e).2) ∧
        Restarts { s with callingExpiredTimers := false, batch := none } s₀.clock p t) := by
      rintro ⟨hp, hrestart⟩
      obtain ⟨e, he, rfl⟩ := List.mem_map.mp hp
      obtain ⟨t₀, hr, -, hid₀⟩ := registered_of_due howned₀ he
      obtain ⟨-, rfl⟩ := (hrestarts he hr hid₀ t).mp hrestart
      exact hid (List.mem_map.mpr ⟨e, he, hid₀⟩)
    have hstep : s₀.step .handleRead = some s₀.beginBatch := by
      rw [TimerQueue.step, hb]
    have hsets : Registered { s₁ with timerfd := fd } p t ↔ s.Registered p t := by
      rw [hfd, hregistered, or_iff_left hnot]
      exact registered_congr rfl rfl rfl
    rw [hsets, hchanges.registered, addedBy_cons hstep,
      registered_beginBatch_of_not_mem hinv₀ hb haddr hbegin hid]
    refine and_congr_left fun _ => or_congr_right (or_iff_right ?_).symm
    rintro ⟨hadd, -⟩
    cases hadd

/-- **A batch runs exactly the due timers.** From every state between two steps of the loop, under
every value of the clock, a whole `handleRead` calls the callbacks of the timers that are due, in
the order of their expirations; it puts back those that repeat and have not been cancelled
meanwhile, deletes the others, and leaves the rest of the sets to what the callbacks add and
cancel. -/
theorem handleRead_batchDone (clock now : Timestamp) (pre is : List TimerInput)
    (s s' : TimerQueue) (hpre : Run.run step (new clock) pre = some s) (hbatch : s.batch = none)
    (his : .reset ∉ is)
    (h : Run.run step { s with clock := now } (.handleRead :: (is ++ [.reset])) = some s') :
    BatchDone { s with clock := now } is s' := by
  have hs := inv_run hpre
  have hnew : Addressed (new clock) := fun id hid => absurd hid List.not_mem_nil
  have haddr : Addressed s := Run.run_invariant' (fun _ _ _ h hs => h.step hs) hnew hpre
  generalize hs₀ : ({ s with clock := now } : TimerQueue) = s₀ at h ⊢
  have hinv : Inv s₀ := hs₀ ▸ ⟨⟨hs.good.owned.congr rfl rfl rfl rfl,
    hs.good.ledger.congr rfl (le_refl _) rfl fun _ => Iff.rfl⟩, hs.todo⟩
  have haddr : Addressed s₀ := hs₀ ▸ haddr
  have hbatch : s₀.batch = none := hs₀ ▸ hbatch
  clear hs₀ hs hpre
  obtain ⟨s₁, h₁, h⟩ := Run.run_cons.mp h
  obtain ⟨s₂, h₂, h⟩ := Run.run_append.mp h
  obtain ⟨s₃, h₃, h⟩ := Run.run_cons.mp h
  cases h
  have hinv₁ := hinv.step h₁
  have hbegin : s₁ = s₀.beginBatch := by
    rw [step, hbatch] at h₁
    exact (Option.some.inj h₁).symm
  rw [hbegin] at h₂ hinv₁
  have hrunning := Running.beginBatch hinv hbatch haddr hinv₁
  obtain ⟨⟨done, todo, hrunning₂⟩, hchanges⟩ := hrunning.run his h₂
  exact hrunning₂.batchDone hinv hbatch haddr hinv₁ hchanges h₃

/-- Two timers expire together; the callback of the first, which repeats, cancels one that is not
due. -/
theorem handleRead_batchDone_two : ∃ s s' : TimerQueue, BatchDone { s with clock := 1 }
    [.callback, .cancel true ⟨10, 2⟩, .callback] s' := by
  obtain ⟨s', hs'⟩ := Option.isSome_iff_exists.mp (show
    ((Run.run step (new 1) [.addTimer true 8 1 ⟨true, 5, by decide⟩,
      .addTimer true 9 1 ⟨false, 0, by decide⟩, .addTimer true 10 90 ⟨false, 0, by decide⟩]).bind
        fun s => if s.batch.isNone then Run.run step { s with clock := 1 }
          (.handleRead :: ([.callback, .cancel true ⟨10, 2⟩, .callback] ++ [.reset]))
          else none).isSome by decide +kernel)
  obtain ⟨s, hs, hrun⟩ := Option.bind_eq_some_iff.mp hs'
  obtain ⟨hbatch, hrun⟩ := Option.ite_none_right_eq_some.mp hrun
  refine ⟨s, s', handleRead_batchDone 1 1 _ _ s s' hs (Option.isNone_iff_eq_none.mp hbatch) ?_ hrun⟩
  simp

end TimerQueue

end MuduoX
