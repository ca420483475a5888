import MuduoX.Timer.Batch

/-! # `addTimer` in a thread that is not the loop's

The thread allocates the timer, queues the functor that inserts it, and only then reads its sequence
for the `TimerId`. From the moment of queueing the timer belongs to the loop, which may insert it,
run it and delete it before the read. -/

namespace MuduoX

/-- A `TimerQueue`, and the calls of `addTimer` that other threads are in. -/
structure SharedQueue where
  queue : TimerQueue
  /-- the timers allocated whose functors are not queued yet -/
  allocated : List TimerId
  /-- the timers whose functors are queued and whose sequences have not been read yet -/
  enqueued : List TimerId
  /-- ghost: the timers whose calls have returned, with what these returned; nothing for the read of
  a timer that is not there -/
  returned : List (TimerId × Option TimerId)

inductive SharedInput where
  /-- `new Timer(cb, when, interval)` -/
  | newTimer (timer : Address) (when : Timestamp) (interval : Interval)
  /-- `loop_->runInLoop(addTimerInLoop)` -/
  | runInLoop (id : TimerId)
  /-- `timer->sequence()` -/
  | sequence (id : TimerId)
  /-- any other step -/
  | queue (i : TimerInput)

namespace SharedQueue

open TimerQueue

def new (clock : Timestamp) : SharedQueue := ⟨.new clock, [], [], []⟩

/-- The timers whose ids their callers do not have yet. -/
def held (s : SharedQueue) : List TimerId := s.allocated ++ s.enqueued

/-- What the threads can do: other threads call `addTimer` in three steps, and nobody cancels with an
id that no call has returned yet. -/
def May (s : SharedQueue) : TimerInput → Prop
  | .addTimer inLoop _ _ _ => inLoop
  | .cancel _ id => id ∉ s.held
  | _ => True

instance (s : SharedQueue) : ∀ i, Decidable (s.May i)
  | .addTimer inLoop _ _ _ => inferInstanceAs (Decidable (inLoop = true))
  | .cancel _ id => inferInstanceAs (Decidable (id ∉ s.held))
  | .elapse _ | .elsewhere | .doPendingFunctor | .handleRead | .callback | .reset => isTrue trivial

def step (s : SharedQueue) : SharedInput → Option SharedQueue
  | .newTimer timer when interval =>
    if s.queue.Free timer then some { s with
      queue := s.queue.create timer when interval
      allocated := s.allocated ++ [⟨timer, s.queue.numCreated⟩] }
    else none
  | .runInLoop id =>
    if id ∈ s.allocated then some { s with
      queue := { s.queue with
        pendingFunctors := s.queue.pendingFunctors ++ [.addTimerInLoop id.timer] }
      allocated := s.allocated.erase id
      enqueued := s.enqueued ++ [id] }
    else none
  | .sequence id =>
    if id ∈ s.enqueued then some { s with
      enqueued := s.enqueued.erase id
      returned := s.returned ++
        [(id, (s.queue.heap id.timer).map fun t => ⟨id.timer, t.sequence⟩)] }
    else none
  | .queue i =>
    if s.May i then (s.queue.step i).map fun queue => { s with queue } else none

/-- When a batch is over, those of its timers whose sequences are still to be read repeat. -/
def KeepsHeld (s : SharedQueue) : SharedInput → Prop
  | .queue .reset => ∀ id ∈ s.enqueued, id.timer ∈ s.queue.inBatch →
      (s.queue.heap id.timer).all Timer.repeats
  | _ => True

instance (s : SharedQueue) : ∀ i, Decidable (s.KeepsHeld i)
  | .queue .reset => inferInstanceAs (Decidable (∀ id ∈ s.enqueued, id.timer ∈ s.queue.inBatch →
      (s.queue.heap id.timer).all Timer.repeats = true))
  | .newTimer .. | .runInLoop _ | .sequence _ | .queue (.elapse _) | .queue .elsewhere
  | .queue (.addTimer ..) | .queue (.cancel ..) | .queue .doPendingFunctor | .queue .handleRead
  | .queue .callback => isTrue trivial

end SharedQueue

namespace TimerQueue

variable {s s' : TimerQueue} {l : List Address} {p : Address} {id id' : TimerId} {i : TimerInput}

/-! ### What keeps a timer -/

theorem addTimerInLoop_keeps (hs : s.addTimerInLoop p = some s') :
    s'.heap = s.heap ∧ s'.cancelingTimers = s.cancelingTimers := by
  cases ht : s.heap p with
  | none =>
    rw [addTimerInLoop, ht] at hs
    cases hs
    exact ⟨rfl, rfl⟩
  | some t =>
    obtain ⟨fd, rfl⟩ := addTimerInLoop_eq ht hs
    exact ⟨rfl, rfl⟩

theorem live_congr (h : s'.heap = s.heap) : s'.Live id ↔ s.Live id := by
  rw [Live, Live, h]

theorem live_cancelInLoop (h : Owned l s) (hlive : s.Live id) (hne : id' ≠ id) :
    (s.cancelInLoop id').Live id := by
  rcases Decidable.em (id'.active ∈ s.activeTimers) with hmem | hmem
  · obtain ⟨t, ht, hseq, heq⟩ := cancelInLoop_of_mem h hmem
    rw [heq]
    refine (live_congr rfl).mpr (live_delete.mpr ⟨hlive, fun htimer => hne ?_⟩)
    exact (h.of_active hmem).eq hlive htimer.symm
  · refine (live_congr ?_).mpr hlive
    rw [cancelInLoop, if_neg hmem]
    split <;> rfl

theorem delete_canceling (s : TimerQueue) (p : Address) :
    (s.delete p).cancelingTimers = s.cancelingTimers := by
  rw [delete]
  split <;> rfl

theorem canceling_cancelInLoop {x : ActiveTimer} (hx : x ∈ (s.cancelInLoop id).cancelingTimers) :
    x ∈ s.cancelingTimers ∨ x = id.active := by
  rw [cancelInLoop] at hx
  split at hx
  · left
    split at hx
    · exact hx
    · change x ∈ (delete _ _).cancelingTimers at hx
      rwa [delete_canceling] at hx
  · split at hx
    · exact (OrderedSet.mem_insert.mp hx).symm
    · exact .inl hx

/-- One entry of `reset` keeps a timer that is not marked, if it is not the entry's or repeats. -/
theorem resetEntry_keeps {now : Timestamp} {e : TimerEntry} (hs : s.resetEntry now e = some s')
    (hlive : s.Live id) (hmark : id.active ∉ s.cancelingTimers)
    (hrepeats : id.timer = (ofLex e).2 → (s.heap id.timer).all Timer.repeats) :
    s'.Live id ∧
      (s'.heap id.timer).all Timer.repeats = (s.heap id.timer).all Timer.repeats := by
  obtain ⟨t₀, ht₀, hseq⟩ := hlive
  cases ht : s.heap (ofLex e).2 with
  | none =>
    rw [resetEntry, ht] at hs
    cases hs
    exact ⟨⟨t₀, ht₀, hseq⟩, rfl⟩
  | some t =>
    rw [resetEntry, ht] at hs
    simp only at hs
    obtain hp | hp := eq_or_ne id.timer (ofLex e).2
    · have hkept : t.repeats ∧ toLex ((ofLex e).2, t.sequence) ∉ s.cancelingTimers := by
        rw [hp] at ht₀ hrepeats
        cases ht.symm.trans ht₀
        rw [ht] at hrepeats
        rw [← hp, hseq]
        exact ⟨hrepeats rfl, hmark⟩
      rw [if_pos hkept] at hs
      obtain ⟨t', ht', rfl⟩ := Option.map_eq_some_iff.mp hs
      have hrestarted := restart_eq_some hkept.1 ht'
      have hnew : ((s.store (ofLex e).2 (some t')).insert (ofLex e).2 t').2.heap id.timer =
          some t' := by
        rw [hp]
        exact Function.update_self ..
      rw [hp, ht] at ht₀
      cases ht₀
      refine ⟨⟨t', hnew, ?_⟩, ?_⟩
      · rw [hrestarted]
        exact hseq
      · rw [hnew, hp, ht, hrestarted]
        rfl
    · have hheap : s'.heap id.timer = s.heap id.timer := by
        split at hs
        · obtain ⟨t', -, rfl⟩ := Option.map_eq_some_iff.mp hs
          exact Function.update_of_ne hp ..
        · cases hs
          rw [delete, ht]
          exact Function.update_of_ne hp ..
      rw [hheap]
      exact ⟨⟨t₀, hheap.trans ht₀, hseq⟩, rfl⟩

theorem resetEntry_canceling {now : Timestamp} {e : TimerEntry}
    (hs : s.resetEntry now e = some s') : s'.cancelingTimers = s.cancelingTimers := by
  rw [resetEntry] at hs
  split at hs
  · cases hs
    rfl
  · split at hs
    · obtain ⟨t', -, rfl⟩ := Option.map_eq_some_iff.mp hs
      rfl
    · cases hs
      exact delete_canceling ..

theorem foldlM_resetEntry_canceling {now : Timestamp} {es : List TimerEntry}
    (hs : es.foldlM (resetEntry now) s = some s') : s'.cancelingTimers = s.cancelingTimers := by
  induction es generalizing s with
  | nil =>
    cases hs
    rfl
  | cons e es ih =>
    obtain ⟨s₁, h₁, hs⟩ := Option.bind_eq_some_iff.mp hs
    exact (ih hs).trans (resetEntry_canceling h₁)

theorem foldlM_resetEntry_keeps {now : Timestamp} {es : List TimerEntry}
    (hs : es.foldlM (resetEntry now) s = some s') (hlive : s.Live id)
    (hmark : id.active ∉ s.cancelingTimers)
    (hrepeats : id.timer ∈ es.map (fun e => (ofLex e).2) →
      (s.heap id.timer).all Timer.repeats) : s'.Live id := by
  induction es generalizing s with
  | nil =>
    cases hs
    exact hlive
  | cons e es ih =>
    obtain ⟨s₁, h₁, hs⟩ := Option.bind_eq_some_iff.mp hs
    rw [List.map_cons, List.mem_cons] at hrepeats
    obtain ⟨hlive₁, heq⟩ := resetEntry_keeps h₁ hlive hmark fun hp => hrepeats (.inl hp)
    refine ih hs hlive₁ ?_ fun hp => ?_
    · rwa [resetEntry_canceling h₁]
    · rw [heq]
      exact hrepeats (.inr hp)

/-! ### A timer that a caller holds -/

/-- The timer is there, and nobody is about to cancel it. -/
structure Safe (s : TimerQueue) (id : TimerId) : Prop where
  live : s.Live id
  unmarked : id.active ∉ s.cancelingTimers
  unqueued : .cancelInLoop id ∉ s.pendingFunctors

/-- Only known timers are cancelled. -/
structure Marks (s : TimerQueue) : Prop where
  canceling : ∀ id, id.active ∈ s.cancelingTimers → s.Known id
  functors : ∀ id, .cancelInLoop id ∈ s.pendingFunctors → s.Known id

theorem not_known_create (hfree : s.Free p) : ¬s.Known ⟨p, s.numCreated⟩ := by
  rintro (hnull | hlt)
  · exact hfree.1 (congrArg TimerId.timer hnull)
  · exact absurd hlt (lt_irrefl _)

theorem Safe.create (h : Safe s id) (hfree : s.Free p) (when : Timestamp) (interval : Interval) :
    Safe (s.create p when interval) id :=
  ⟨(live_create hfree ..).mpr (.inl h.live), h.unmarked, h.unqueued⟩

/-- A new timer is one that nobody can have cancelled. -/
theorem Marks.safe_create (h : Marks s) (hfree : s.Free p) (when : Timestamp)
    (interval : Interval) : Safe (s.create p when interval) ⟨p, s.numCreated⟩ where
  live := (live_create hfree ..).mpr (.inr rfl)
  unmarked hmem := not_known_create hfree (h.canceling _ hmem)
  unqueued hmem := not_known_create hfree (h.functors _ hmem)

theorem Marks.create (h : Marks s) (when : Timestamp) (interval : Interval) :
    Marks (s.create p when interval) where
  canceling id hid := (h.canceling id hid).of_le (Nat.le_succ _)
  functors id hid := (h.functors id hid).of_le (Nat.le_succ _)

theorem Safe.enqueue (h : Safe s id) : Safe
    { s with pendingFunctors := s.pendingFunctors ++ [.addTimerInLoop p] } id := by
  refine ⟨h.live, h.unmarked, fun hmem => ?_⟩
  rcases List.mem_append.mp hmem with hmem | hmem
  · exact h.unqueued hmem
  · cases List.mem_singleton.mp hmem

theorem Marks.enqueue (h : Marks s) : Marks
    { s with pendingFunctors := s.pendingFunctors ++ [.addTimerInLoop p] } := by
  refine ⟨h.canceling, fun id hmem => ?_⟩
  rcases List.mem_append.mp hmem with hmem | hmem
  · exact h.functors id hmem
  · cases List.mem_singleton.mp hmem

theorem Safe.addTimerInLoop (h : Safe s id) (hs : s.addTimerInLoop p = some s') : Safe s' id := by
  obtain ⟨hheap, hcanceling⟩ := addTimerInLoop_keeps hs
  refine ⟨(live_congr hheap).mpr h.live, ?_, ?_⟩
  · rw [hcanceling]
    exact h.unmarked
  · rw [(Frame.addTimerInLoop hs).pendingFunctors]
    exact h.unqueued

theorem Marks.addTimerInLoop (h : Marks s) (hs : s.addTimerInLoop p = some s') : Marks s' := by
  have hf := Frame.addTimerInLoop hs
  refine ⟨fun id hid => ?_, fun id hid => ?_⟩
  · rw [(addTimerInLoop_keeps hs).2] at hid
    exact (h.canceling id hid).of_le hf.numCreated.ge
  · rw [hf.pendingFunctors] at hid
    exact (h.functors id hid).of_le hf.numCreated.ge

theorem Safe.cancelInLoop (h : Safe s id) (howned : Owned l s) (hne : id' ≠ id) :
    Safe (s.cancelInLoop id') id := by
  refine ⟨live_cancelInLoop howned h.live hne, fun hmem => ?_, ?_⟩
  · rcases canceling_cancelInLoop hmem with hmem | heq
    · exact h.unmarked hmem
    · exact hne (TimerId.active_inj.mp heq).symm
  · rw [(Frame.cancelInLoop s id').pendingFunctors]
    exact h.unqueued

theorem Marks.cancelInLoop (h : Marks s) (hknown : s.Known id') : Marks (s.cancelInLoop id') := by
  have hf := Frame.cancelInLoop s id'
  refine ⟨fun id hid => ?_, fun id hid => ?_⟩
  · rcases canceling_cancelInLoop hid with hid | heq
    · exact (h.canceling id hid).of_le hf.numCreated.ge
    · rw [TimerId.active_inj.mp heq]
      exact hknown.of_le hf.numCreated.ge
  · rw [hf.pendingFunctors] at hid
    exact (h.functors id hid).of_le hf.numCreated.ge

theorem beginBatch_keeps (h : InvWith l s) (hb : s.batch = none) :
    s.beginBatch.heap = s.heap ∧ s.beginBatch.cancelingTimers = ∅ ∧
      s.beginBatch.pendingFunctors = s.pendingFunctors ∧
      s.beginBatch.numCreated = s.numCreated := by
  have hgood := h.good
  rw [inBatch_none hb, List.nil_append] at hgood
  have howned : Owned l { s with timerfd := s.timerfd.read } := hgood.owned.congr rfl rfl rfl rfl
  obtain ⟨A, heq, -⟩ := howned.getExpired_eq s.clock
  rw [beginBatch, heq]
  exact ⟨rfl, rfl, rfl, rfl⟩

theorem reset_keeps {now : Timestamp} {es : List TimerEntry} (id : TimerId)
    (hs : s.reset es now = some s') :
    s'.cancelingTimers = s.cancelingTimers ∧ (s.Live id → id.active ∉ s.cancelingTimers →
      (id.timer ∈ es.map (fun e => (ofLex e).2) → (s.heap id.timer).all Timer.repeats) →
      s'.Live id) := by
  obtain ⟨s₁, h₁, hs⟩ := Option.bind_eq_some_iff.mp hs
  obtain ⟨fd, rfl⟩ := rearm_eq_some hs
  have hcanceling : s₁.cancelingTimers = s.cancelingTimers := foldlM_resetEntry_canceling h₁
  refine ⟨hcanceling, fun hlive hmark hrepeats => ?_⟩
  have hlive₁ : s₁.Live id := foldlM_resetEntry_keeps h₁ hlive hmark hrepeats
  exact (live_congr rfl).mpr hlive₁

/-- A step keeps a timer that nobody cancels, unless it is deleted at the end of its batch. -/
theorem Safe.step (h : Safe s id) (hinv : InvWith l s) (hcancel : ∀ b, i ≠ .cancel b id)
    (hreset : i = .reset → id.timer ∈ s.inBatch → (s.heap id.timer).all Timer.repeats)
    (hs : s.step i = some s') : Safe s' id := by
  cases i with
  | elapse micros | elsewhere =>
    cases hs
    exact ⟨h.live, h.unmarked, h.unqueued⟩
  | addTimer inLoop timer when interval =>
    obtain ⟨hfree, hs⟩ := Option.ite_none_right_eq_some.mp hs
    have hcreate := h.create hfree when interval
    rw [TimerQueue.addTimer, runInLoop] at hs
    split at hs
    · exact hcreate.addTimerInLoop hs
    · cases hs
      exact hcreate.enqueue
  | cancel inLoop id' =>
    obtain ⟨-, hs⟩ := Option.ite_none_right_eq_some.mp hs
    have hne : id' ≠ id := by
      rintro rfl
      exact hcancel inLoop rfl
    rw [TimerQueue.cancel, runInLoop] at hs
    split at hs
    · cases hs
      exact h.cancelInLoop hinv.good.owned hne
    · cases hs
      refine ⟨h.live, h.unmarked, fun hmem => ?_⟩
      rcases List.mem_append.mp hmem with hmem | hmem
      · exact h.unqueued hmem
      · cases List.mem_singleton.mp hmem
        exact hne rfl
  | doPendingFunctor =>
    rw [TimerQueue.step] at hs
    split at hs
    · rename_i f fs _ hf
      have hrest : Safe { s with pendingFunctors := fs } id :=
        ⟨h.live, h.unmarked, fun hmem => h.unqueued (hf ▸ List.mem_cons_of_mem _ hmem)⟩
      cases f with
      | addTimerInLoop timer => exact hrest.addTimerInLoop hs
      | cancelInLoop id' =>
        cases hs
        refine hrest.cancelInLoop (hinv.good.owned.dequeue_cancel hf) ?_
        rintro rfl
        exact h.unqueued (hf ▸ List.mem_cons_self ..)
    · cases hs
  | handleRead =>
    rw [TimerQueue.step] at hs
    split at hs
    · rename_i hb
      cases hs
      obtain ⟨hheap, hcanceling, hpending, -⟩ := beginBatch_keeps hinv hb
      refine ⟨(live_congr hheap).mpr h.live, ?_, ?_⟩
      · rw [hcanceling]
        exact OrderedSet.notMem_empty
      · rw [hpending]
        exact h.unqueued
    · cases hs
  | callback =>
    rw [TimerQueue.step] at hs
    split at hs
    · cases hs
      rw [runTimer]
      split
      · exact ⟨h.live, h.unmarked, h.unqueued⟩
      · exact ⟨h.live, h.unmarked, h.unqueued⟩
    · cases hs
  | reset =>
    rw [TimerQueue.step] at hs
    split at hs
    · rename_i now expired hb
      obtain ⟨hcanceling, hlive⟩ := reset_keeps id hs
      refine ⟨hlive h.live h.unmarked fun hmem => ?_, ?_, ?_⟩
      · refine hreset rfl ?_
        rw [inBatch, hb]
        exact hmem
      · rw [hcanceling]
        exact h.unmarked
      · rw [(Frame.reset hs).pendingFunctors]
        exact h.unqueued
    · cases hs

theorem Marks.step (h : Marks s) (hinv : InvWith l s) (hs : s.step i = some s') : Marks s' := by
  cases i with
  | elapse micros =>
    cases hs
    exact ⟨h.canceling, h.functors⟩
  | elsewhere =>
    cases hs
    exact ⟨fun id hid => (h.canceling id hid).of_le (Nat.le_succ _),
      fun id hid => (h.functors id hid).of_le (Nat.le_succ _)⟩
  | addTimer inLoop timer when interval =>
    obtain ⟨-, hs⟩ := Option.ite_none_right_eq_some.mp hs
    have hcreate : Marks (s.create timer when interval) := h.create when interval
    rw [TimerQueue.addTimer, runInLoop] at hs
    split at hs
    · exact hcreate.addTimerInLoop hs
    · cases hs
      exact hcreate.enqueue
  | cancel inLoop id' =>
    obtain ⟨hknown, hs⟩ := Option.ite_none_right_eq_some.mp hs
    rw [TimerQueue.cancel, runInLoop] at hs
    split at hs
    · cases hs
      exact h.cancelInLoop hknown
    · cases hs
      refine ⟨h.canceling, fun id hmem => ?_⟩
      rcases List.mem_append.mp hmem with hmem | hmem
      · exact h.functors id hmem
      · cases List.mem_singleton.mp hmem
        exact hknown
  | doPendingFunctor =>
    rw [TimerQueue.step] at hs
    split at hs
    · rename_i f fs _ hf
      have hrest : Marks { s with pendingFunctors := fs } :=
        ⟨h.canceling, fun id hmem => h.functors id (hf ▸ List.mem_cons_of_mem _ hmem)⟩
      cases f with
      | addTimerInLoop timer => exact hrest.addTimerInLoop hs
      | cancelInLoop id' =>
        cases hs
        exact hrest.cancelInLoop (h.functors id' (hf ▸ List.mem_cons_self ..))
    · cases hs
  | handleRead =>
    rw [TimerQueue.step] at hs
    split at hs
    · rename_i hb
      cases hs
      obtain ⟨-, hcanceling, hpending, hnum⟩ := beginBatch_keeps hinv hb
      refine ⟨fun id hid => ?_, fun id hid => ?_⟩
      · rw [hcanceling] at hid
        exact absurd hid OrderedSet.notMem_empty
      · rw [hpending] at hid
        exact (h.functors id hid).of_le hnum.ge
    · cases hs
  | callback =>
    rw [TimerQueue.step] at hs
    split at hs
    · cases hs
      rw [runTimer]
      split
      · exact ⟨h.canceling, h.functors⟩
      · exact ⟨h.canceling, h.functors⟩
    · cases hs
  | reset =>
    rw [TimerQueue.step] at hs
    split at hs
    · have hf := Frame.reset hs
      refine ⟨fun id hid => ?_, fun id hid => ?_⟩
      · rw [(reset_keeps id hs).1] at hid
        exact (h.canceling id hid).of_le hf.numCreated.ge
      · rw [hf.pendingFunctors] at hid
        exact (h.functors id hid).of_le hf.numCreated.ge
    · cases hs

end TimerQueue

namespace SharedQueue

open TimerQueue

variable {s s' : SharedQueue}

/-- The timers whose ids their callers do not have yet are there, and what has been returned is
right. -/
structure Inv (s : SharedQueue) : Prop where
  queue : InvWith (s.allocated.map TimerId.timer) s.queue
  marks : Marks s.queue
  safe : ∀ id ∈ s.held, Safe s.queue id
  returned : ∀ r ∈ s.returned, r.2 = some r.1

theorem Inv.newTimer (h : Inv s) {timer : Address} {when : Timestamp} {interval : Interval}
    (hs : s.step (.newTimer timer when interval) = some s') : Inv s' := by
  obtain ⟨hfree, hs⟩ := Option.ite_none_right_eq_some.mp hs
  cases hs
  have hqueue := h.queue.create hfree when interval
  refine ⟨⟨⟨hqueue.good.owned.perm ?_, hqueue.good.ledger⟩, hqueue.todo⟩,
    h.marks.create when interval, fun id hid => ?_, h.returned⟩
  · rw [List.map_append]
    exact List.perm_append_singleton .. |>.append_left _
  · simp only [held, List.append_assoc, List.mem_append, List.mem_singleton] at hid
    rcases hid with hid | rfl | hid
    · exact (h.safe id (List.mem_append_left _ hid)).create hfree when interval
    · exact h.marks.safe_create hfree when interval
    · exact (h.safe id (List.mem_append_right _ hid)).create hfree when interval

theorem Inv.runInLoop (h : Inv s) {id : TimerId} (hs : s.step (.runInLoop id) = some s') :
    Inv s' := by
  obtain ⟨hid, hs⟩ := Option.ite_none_right_eq_some.mp hs
  cases hs
  have hperm : (id.timer :: (s.allocated.erase id).map TimerId.timer).Perm
      (s.allocated.map TimerId.timer) := ((List.perm_cons_erase hid).map TimerId.timer).symm
  have hqueue : InvWith (id.timer :: (s.allocated.erase id).map TimerId.timer) s.queue :=
    ⟨⟨h.queue.good.owned.perm (hperm.append_left _), h.queue.good.ledger⟩, h.queue.todo⟩
  refine ⟨hqueue.enqueue, h.marks.enqueue, fun id' hid' => (h.safe id' ?_).enqueue, h.returned⟩
  simp only [held, List.mem_append, List.mem_singleton] at hid' ⊢
  rcases hid' with hid' | hid' | rfl
  · exact .inl (List.mem_of_mem_erase hid')
  · exact .inr hid'
  · exact .inl hid

/-- The sequence that is read is the timer's own. -/
theorem Inv.sequence (h : Inv s) {id : TimerId} (hs : s.step (.sequence id) = some s') :
    Inv s' := by
  obtain ⟨hid, hs⟩ := Option.ite_none_right_eq_some.mp hs
  cases hs
  refine ⟨h.queue, h.marks, fun id' hid' => h.safe id' ?_, ?_⟩
  · rcases List.mem_append.mp hid' with hid' | hid'
    · exact List.mem_append_left _ hid'
    · exact List.mem_append_right _ (List.mem_of_mem_erase hid')
  · obtain ⟨t, ht, hseq⟩ := (h.safe id (List.mem_append_right _ hid)).live
    refine List.forall_mem_append.mpr ⟨h.returned, List.forall_mem_singleton.mpr ?_⟩
    rw [ht, Option.map_some, hseq]

theorem Inv.step {i : SharedInput} (h : Inv s) (hkeeps : s.KeepsHeld i)
    (hs : s.step i = some s') : Inv s' := by
  cases i with
  | newTimer timer when interval => exact h.newTimer hs
  | runInLoop id => exact h.runInLoop hs
  | sequence id => exact h.sequence hs
  | queue i =>
    obtain ⟨hmay, hs⟩ := Option.ite_none_right_eq_some.mp hs
    obtain ⟨queue, hqueue, rfl⟩ := Option.map_eq_some_iff.mp hs
    refine ⟨h.queue.step hqueue, h.marks.step h.queue hqueue, fun id hid => ?_, h.returned⟩
    refine (h.safe id hid).step h.queue ?_ ?_ hqueue
    · rintro b rfl
      exact hmay hid
    · rintro rfl hmem
      rcases List.mem_append.mp hid with hid | hid
      · have hdisjoint := List.disjoint_of_nodup_append h.queue.good.owned.loose_nodup
        exact absurd (List.mem_map_of_mem hid) (hdisjoint hmem)
      · exact hkeeps id hid hmem

/-- **The id is valid.** In every run in which the loop, at the end of a batch, finds only repeating
timers among those whose callers are still about to read the sequence, each call of `addTimer` in
another thread returns the id of the timer it has created. -/
theorem returned_of_run (clock : Timestamp) (is : List SharedInput) (s : SharedQueue)
    (h : Run.run step (new clock) is = some s)
    (hkeeps : Run.Along step KeepsHeld (new clock) is) :
    ∀ r ∈ s.returned, r.2 = some r.1 := by
  have hqueue : InvWith [] (TimerQueue.new clock) := inv_iff.mp (inv_new clock)
  have hnew : Inv (new clock) :=
    ⟨hqueue, ⟨fun id hid => absurd hid OrderedSet.notMem_empty, fun id hid => absurd hid
      List.not_mem_nil⟩, fun id hid => absurd hid List.not_mem_nil,
      fun r hr => absurd hr List.not_mem_nil⟩
  exact (Run.run_invariant (fun _ _ _ hinv hkeeps hs => hinv.step hkeeps hs) hnew hkeeps h).returned

/-- A repeating timer whose batch is over before its sequence is read, and a one-shot timer whose
sequence is read in time. -/
theorem returned_of_run_twice : ∃ s, Run.run step (new 1)
    [.newTimer 8 1 ⟨true, 5, by decide⟩, .runInLoop ⟨8, 0⟩, .queue .doPendingFunctor,
      .queue .handleRead, .queue .callback, .queue .reset, .sequence ⟨8, 0⟩,
      .newTimer 9 1 ⟨false, 0, by decide⟩, .runInLoop ⟨9, 1⟩, .sequence ⟨9, 1⟩] = some s ∧
    s.returned.length = 2 ∧ ∀ r ∈ s.returned, r.2 = some r.1 := by
  obtain ⟨s, hs, hlength⟩ := Option.map_eq_some_iff.mp (show (Run.run step (new 1)
    [.newTimer 8 1 ⟨true, 5, by decide⟩, .runInLoop ⟨8, 0⟩, .queue .doPendingFunctor,
      .queue .handleRead, .queue .callback, .queue .reset, .sequence ⟨8, 0⟩,
      .newTimer 9 1 ⟨false, 0, by decide⟩, .runInLoop ⟨9, 1⟩, .sequence ⟨9, 1⟩]).map
        (fun s => s.returned.length) = some 2 by decide +kernel)
  refine ⟨s, hs, hlength, returned_of_run 1 _ s hs ?_⟩
  decide +kernel

/-- The loop runs a one-shot timer and deletes it before its sequence is read. -/
theorem not_returned_of_run : ¬∀ (clock : Timestamp) (is : List SharedInput) (s : SharedQueue),
    Run.run step (new clock) is = some s → ∀ r ∈ s.returned, r.2 = some r.1 := by
  intro hall
  obtain ⟨s, hs, hreturned⟩ := Option.map_eq_some_iff.mp (show (Run.run step (new 1)
    [.newTimer 8 1 ⟨false, 0, by decide⟩, .runInLoop ⟨8, 0⟩, .queue .doPendingFunctor,
      .queue .handleRead, .queue .callback, .queue .reset, .sequence ⟨8, 0⟩]).map
        returned = some [(⟨8, 0⟩, none)] by decide +kernel)
  have h := hall 1 _ s hs (⟨8, 0⟩, none) (hreturned ▸ List.mem_cons_self ..)
  cases h

end SharedQueue

end MuduoX
