import MuduoX.Timer.Ownership

/-! # A cancelled timer does not fire again

`cancelInLoop` takes a waiting timer out of the sets, and marks one that is running or has run in
the batch, so that `reset` deletes it. It does nothing about a timer that the batch has still to
run, or whose functor is still queued. Under the condition that it is not called for these,
`Stopped` is kept by every step: a cancelled timer is gone, or it has run in the present batch and
is marked. -/

namespace MuduoX.TimerQueue

variable {s s' s'' : TimerQueue} {id : TimerId} {c : TimerId → Prop}

/-- The timers of the batch whose callbacks are still to come. -/
def toRun (s : TimerQueue) : List Address :=
  match s.batch with
  | some b => b.todo.map fun e => (ofLex e).2
  | none => []

/-- Cancelling in the loop thread is safe unless the timer's functor is still queued, or the batch
has still to run its callback. -/
def SafeCancel (s : TimerQueue) (i : TimerInput) : Prop :=
  ∀ id, i = .cancel true id → s.Live id → id.timer ∉ s.queued ∧ id.timer ∉ s.toRun

def Stopped (s : TimerQueue) (id : TimerId) : Prop :=
  s.Known id ∧ (s.Live id →
    id.timer ∈ s.inBatch ∧ id.timer ∉ s.toRun ∧ id.active ∈ s.cancelingTimers)

/-- Two events of a run in this order. -/
def TimerEvent.Quiet (e e' : TimerEvent) : Prop := ∀ id, e = .cancelled id → e' ≠ .run id

/-! ### What an operation that runs no callback does -/

structure Effect (c : TimerId → Prop) (s s' : TimerQueue) : Prop where
  live : ∀ id, s'.Live id → s.Live id
  canceling : ∀ x ∈ s.cancelingTimers, x ∈ s'.cancelingTimers
  calling : s'.callingExpiredTimers = s.callingExpiredTimers
  log : ∃ es, s'.log = s.log ++ es ∧
    ∀ e ∈ es, (∀ id, e ≠ .run id) ∧ ∀ id, e = .cancelled id → c id

namespace Effect

/-- Nothing is written to the log. -/
theorem of_log_eq (hlive : ∀ id, s'.Live id → s.Live id)
    (hcanceling : ∀ x ∈ s.cancelingTimers, x ∈ s'.cancelingTimers)
    (hcalling : s'.callingExpiredTimers = s.callingExpiredTimers) (hlog : s'.log = s.log) :
    Effect c s s' :=
  ⟨hlive, hcanceling, hcalling, [], by rw [hlog, List.append_nil],
    fun _ he => absurd he List.not_mem_nil⟩

theorem refl (s : TimerQueue) : Effect c s s :=
  of_log_eq (fun _ h => h) (fun _ h => h) rfl rfl

theorem trans (h : Effect c s s') (h' : Effect c s' s'') : Effect c s s'' := by
  obtain ⟨es, hes, hc⟩ := h.log
  obtain ⟨es', hes', hc'⟩ := h'.log
  refine ⟨fun id hid => h.live id (h'.live id hid), fun x hx => h'.canceling x (h.canceling x hx),
    h'.calling.trans h.calling, es ++ es', by rw [hes', hes, List.append_assoc], ?_⟩
  exact List.forall_mem_append.mpr ⟨hc, hc'⟩

theorem emit (s : TimerQueue) {e : TimerEvent} (hrun : ∀ id, e ≠ .run id)
    (hc : ∀ id, e = .cancelled id → c id) : Effect c s (s.emit e) := by
  refine ⟨fun _ h => h, fun _ h => h, rfl, [e], rfl, fun e' he' => ?_⟩
  cases List.mem_singleton.mp he'
  exact ⟨hrun, hc⟩

theorem emit_invalid (s : TimerQueue) (timer : Address) : Effect c s (s.emit (.invalid timer)) :=
  emit s (fun _ h => TimerEvent.noConfusion h) fun _ h => TimerEvent.noConfusion h

theorem emit_deleted (s : TimerQueue) (id : TimerId) : Effect c s (s.emit (.deleted id)) :=
  emit s (fun _ h => TimerEvent.noConfusion h) fun _ h => TimerEvent.noConfusion h

theorem delete (s : TimerQueue) (timer : Address) : Effect c s (s.delete timer) := by
  have hlive (id : TimerId) (h : (s.delete timer).Live id) : s.Live id := (live_delete.mp h).1
  refine ⟨hlive, ?_, ?_, ?_⟩ <;> rw [TimerQueue.delete] <;> split
  · exact fun _ h => h
  · exact fun _ h => h
  · rfl
  · rfl
  · exact (emit_invalid (c := c) s timer).log
  · rename_i t _
    exact (emit_deleted (c := c) s ⟨timer, t.sequence⟩).log

theorem resetTimerfd {e : Timestamp} (h : s.resetTimerfd e = some s') : Effect c s s' := by
  obtain ⟨value, -, rfl⟩ := resetTimerfd_eq_some h
  exact of_log_eq (fun _ h => h) (fun _ h => h) rfl rfl

theorem insert (s : TimerQueue) (timer : Address) (t : Timer) : Effect c s (s.insert timer t).2 :=
  of_log_eq (fun _ h => h) (fun _ h => h) rfl rfl

theorem addTimerInLoop {timer : Address} (h : s.addTimerInLoop timer = some s') :
    Effect c s s' := by
  rw [TimerQueue.addTimerInLoop] at h
  split at h
  · cases h
    exact emit_invalid s timer
  · rename_i t _
    extract_lets r at h
    split at h
    · exact (insert s timer t).trans (resetTimerfd h)
    · cases h
      exact insert s timer t

theorem cancelInLoop (s : TimerQueue) (id : TimerId) :
    Effect (· = id) s (s.cancelInLoop id) := by
  have hid : ∀ id', TimerEvent.cancelled id = .cancelled id' → id' = id := by
    rintro id' heq
    cases heq
    rfl
  rw [TimerQueue.cancelInLoop]
  refine trans ?_ (emit _ (fun _ h => TimerEvent.noConfusion h) hid)
  split
  · split
    · exact emit_invalid s id.timer
    · rename_i t _
      obtain ⟨h₁, h₂, h₃, h₄⟩ := delete (c := (· = id)) { s with
        timers := s.timers.erase (toLex (t.expiration, id.timer)) } id.timer
      exact ⟨h₁, h₂, h₃, h₄⟩
  · split
    · exact of_log_eq (fun _ h => h) (fun _ hx => OrderedSet.mem_insert.mpr (.inr hx)) rfl rfl
    · exact refl s

theorem resetEntry {now : Timestamp} {e : TimerEntry} (h : s.resetEntry now e = some s') :
    Effect c s s' := by
  rw [TimerQueue.resetEntry] at h
  split at h
  · cases h
    exact emit_invalid s _
  rename_i t ht
  split at h
  · obtain ⟨t', ht', rfl⟩ := Option.map_eq_some_iff.mp h
    have hstore : Effect c s (s.store (ofLex e).2 (some t')) :=
      of_log_eq (fun id => (live_store_some ht (restart_sequence ht')).mp) (fun _ h => h) rfl rfl
    exact hstore.trans (insert _ _ t')
  · cases h
    exact delete s _

theorem foldlM_resetEntry {now : Timestamp} {es : List TimerEntry}
    (h : es.foldlM (TimerQueue.resetEntry now) s = some s') : Effect c s s' := by
  induction es generalizing s with
  | nil =>
    cases h
    exact refl _
  | cons e es ih =>
    obtain ⟨s₁, h₁, h⟩ := Option.bind_eq_some_iff.mp h
    exact (resetEntry h₁).trans (ih h)

end Effect

/-- `reset` deletes the marked timers. -/
theorem not_live_of_foldlM {now : Timestamp} {es : List TimerEntry}
    (h : es.foldlM (resetEntry now) s = some s') (hmem : id.timer ∈ es.map fun e => (ofLex e).2)
    (hid : s.Live id → id.active ∈ s.cancelingTimers) : ¬s'.Live id := by
  induction es generalizing s with
  | nil => cases hmem
  | cons e es ih =>
    obtain ⟨s₁, h₁, h⟩ := Option.bind_eq_some_iff.mp h
    have heffect : Effect (fun _ => False) s s₁ := .resetEntry h₁
    have hid₁ (hlive : s₁.Live id) : id.active ∈ s₁.cancelingTimers :=
      heffect.canceling _ (hid (heffect.live id hlive))
    obtain heq | hmem := List.mem_cons.mp hmem
    · intro hlive
      -- it has been deleted at its entry, and does not come back
      have hlive₁ : s₁.Live id :=
        (Effect.foldlM_resetEntry (c := fun _ => False) h).live id hlive
      have hlive₀ := heffect.live id hlive₁
      have hmarked := hid hlive₀
      obtain ⟨t, ht, hseq⟩ := hlive₀
      rw [resetEntry, show (ofLex e).2 = id.timer from heq.symm, ht] at h₁
      rw [TimerId.active, ← hseq] at hmarked
      simp only [hmarked, not_true_eq_false, and_false, if_false] at h₁
      cases h₁
      exact (live_delete.mp hlive₁).2 rfl
    · exact ih h hmem hid₁

/-! ### The invariant -/

/-- The log so far, and the functors: a timer is queued before the functor that cancels it. -/
structure Calm (s : TimerQueue) : Prop where
  order : s.log.Pairwise TimerEvent.Quiet
  known : ∀ id, .cancelInLoop id ∈ s.pendingFunctors → s.Known id
  functors : s.pendingFunctors.Pairwise fun f f' => ∀ id, f = .cancelInLoop id →
    f' = .addTimerInLoop id.timer → ¬s.Live id

def AllStopped (s : TimerQueue) : Prop := ∀ id, .cancelled id ∈ s.log → s.Stopped id

structure Quiet (s : TimerQueue) : Prop where
  inv : Inv s
  calling : s.callingExpiredTimers = s.batch.isSome
  stopped : AllStopped s
  calm : Calm s

theorem pairwise_quiet {log es : List TimerEvent} (h : log.Pairwise TimerEvent.Quiet)
    (hes : ∀ e ∈ es, ∀ id, e ≠ .run id) : (log ++ es).Pairwise TimerEvent.Quiet := by
  refine List.pairwise_append.mpr ⟨h, ?_, fun e _ e' he' id _ => hes e' he' id⟩
  exact List.pairwise_of_forall_mem_list fun e _ e' he' id _ => hes e' he' id

theorem toRun_congr (h : s'.batch = s.batch) : s'.toRun = s.toRun := by
  rw [toRun, toRun, h]

theorem Known.of_le (h : s.Known id) (hle : s.numCreated ≤ s'.numCreated) : s'.Known id :=
  h.imp_right fun hlt => hlt.trans_le hle

theorem Calm.of_effect (h : Calm s) (hnum : s'.numCreated = s.numCreated)
    (hpending : s'.pendingFunctors = s.pendingFunctors) (he : Effect c s s') : Calm s' := by
  obtain ⟨es, hlog, hes⟩ := he.log
  refine ⟨?_, ?_, ?_⟩
  · rw [hlog]
    exact pairwise_quiet h.order fun e he => (hes e he).1
  · rw [hpending]
    exact fun id hid => (h.known id hid).of_le hnum.ge
  · rw [hpending]
    exact h.functors.imp fun hff id hf₁ hf₂ hlive => hff id hf₁ hf₂ (he.live id hlive)

theorem AllStopped.of_effect (h : AllStopped s) (hf : Frame s s') (he : Effect c s s')
    (hc : ∀ id, c id → s'.Stopped id) : AllStopped s' := by
  obtain ⟨es, hlog, hes⟩ := he.log
  intro id hid
  rw [hlog, List.mem_append] at hid
  obtain hid | hid := hid
  · obtain ⟨hk, hstopped⟩ := h id hid
    refine ⟨hk.of_le hf.numCreated.ge, fun hlive => ?_⟩
    obtain ⟨h₁, h₂, h₃⟩ := hstopped (he.live id hlive)
    rw [inBatch_congr hf.batch, toRun_congr hf.batch]
    exact ⟨h₁, h₂, he.canceling _ h₃⟩
  · exact hc id ((hes _ hid).2 id rfl)

/-- An operation that runs no callback, in the middle of everything. -/
theorem Quiet.of_effect (h : Quiet s) (hf : Frame s s') (he : Effect c s s') (hinv : Inv s')
    (hc : ∀ id, c id → s'.Stopped id) : Quiet s' where
  inv := hinv
  calling := by
    rw [he.calling, hf.batch]
    exact h.calling
  stopped := h.stopped.of_effect hf he hc
  calm := h.calm.of_effect hf.numCreated hf.pendingFunctors he

/-- After `cancelInLoop` the timer is stopped, unless it is still to be inserted or run. -/
theorem Quiet.stopped_cancelInLoop (h : Quiet s) (hknown : s.Known id)
    (hsafe : s.Live id → id.timer ∉ s.queued ∧ id.timer ∉ s.toRun) :
    (s.cancelInLoop id).Stopped id := by
  have hf := Frame.cancelInLoop s id
  have he := Effect.cancelInLoop s id
  refine ⟨hknown.of_le hf.numCreated.ge, fun hlive' => ?_⟩
  have hlive := he.live id hlive'
  obtain ⟨hq, hr⟩ := hsafe hlive
  have howned := h.inv.good.owned
  rcases Decidable.em (id.active ∈ s.activeTimers) with hmem | hmem
  · obtain ⟨t, -, -, heq⟩ := cancelInLoop_of_mem howned hmem
    rw [heq] at hlive'
    exact absurd rfl (live_delete.mp hlive').2
  · obtain ⟨t, ht, hseq⟩ := hlive
    have hin : id.timer ∈ s.inBatch := by
      have hsome := Option.isSome_iff_exists.mpr ⟨t, ht⟩
      obtain hp | hp | hp := (howned.live id.timer).mp hsome
      · exact absurd hp hq
      · exact hp
      · have := howned.active_of_held ht hp
        rw [hseq] at this
        exact absurd this hmem
    have hcalling : s.callingExpiredTimers = true := by
      rw [h.calling]
      rw [inBatch] at hin
      split at hin
      · rename_i hb
        rw [hb]
        rfl
      · cases hin
    rw [inBatch_congr hf.batch, toRun_congr hf.batch]
    refine ⟨hin, hr, ?_⟩
    rw [cancelInLoop, if_neg hmem, if_pos hcalling]
    exact OrderedSet.mem_insert.mpr (.inl rfl)

theorem Quiet.cancelInLoop (h : Quiet s) (hknown : s.Known id)
    (hsafe : s.Live id → id.timer ∉ s.queued ∧ id.timer ∉ s.toRun) : Quiet (s.cancelInLoop id) := by
  refine h.of_effect (.cancelInLoop s id) (.cancelInLoop s id)
    (h.inv.of_frame (.cancelInLoop s id) (h.inv.good.cancelInLoop id)) ?_
  rintro id' rfl
  exact h.stopped_cancelInLoop hknown hsafe

/-- A new timer is none that has been cancelled. -/
theorem Known.live_create {p : Address} (hid : s.Known id) (hfree : s.Free p) {when : Timestamp}
    {interval : Interval} (hlive : (s.create p when interval).Live id) : s.Live id := by
  obtain hlive | rfl := (TimerQueue.live_create hfree ..).mp hlive
  · exact hlive
  · obtain hnull | hlt := hid
    · exact absurd (congrArg TimerId.timer hnull) hfree.1
    · exact absurd hlt (lt_irrefl _)

theorem AllStopped.create {p : Address} (h : AllStopped s) (hfree : s.Free p) (when : Timestamp)
    (interval : Interval) : AllStopped (s.create p when interval) := by
  intro id hid
  obtain ⟨hk, hstopped⟩ := h id hid
  exact ⟨hk.of_le (Nat.le_succ _), fun hlive => hstopped (hk.live_create hfree hlive)⟩

theorem Calm.create {p : Address} (h : Calm s) (hfree : s.Free p) (when : Timestamp)
    (interval : Interval) : Calm (s.create p when interval) := by
  refine ⟨h.order, fun id hid => (h.known id hid).of_le (Nat.le_succ _), ?_⟩
  refine List.Pairwise.imp_of_mem ?_ h.functors
  rintro f f' hf - hff id rfl hf' hlive
  exact hff id rfl hf' ((h.known id hf).live_create hfree hlive)

theorem Quiet.addTimer {p : Address} (h : Quiet s) (hfree : s.Free p) {inLoop : Bool}
    {when : Timestamp} {interval : Interval} (hs : s.addTimer inLoop p when interval = some s') :
    Quiet s' := by
  have hinv := h.inv.addTimer hfree hs
  have hstopped := h.stopped.create hfree when interval
  have hcalm := h.calm.create hfree when interval
  rw [TimerQueue.addTimer, runInLoop] at hs
  split at hs
  · have hf := Frame.addTimerInLoop hs
    have he : Effect (fun _ => False) (s.create p when interval) s' := .addTimerInLoop hs
    refine ⟨hinv, ?_, hstopped.of_effect hf he fun _ h => h.elim,
      hcalm.of_effect hf.numCreated hf.pendingFunctors he⟩
    rw [he.calling, hf.batch]
    exact h.calling
  · cases hs
    refine ⟨hinv, h.calling, hstopped, hcalm.order, fun id hid => ?_, ?_⟩
    · obtain hid | hid := List.mem_append.mp hid
      · exact hcalm.known id hid
      · cases List.mem_singleton.mp hid
    · refine List.pairwise_append.mpr ⟨hcalm.functors, List.pairwise_singleton .., ?_⟩
      rintro f hf _ hf' id rfl heq hlive
      -- the address of the new timer was free, so no earlier one is there
      cases (List.mem_singleton.mp hf').symm.trans heq
      obtain ⟨t, ht, -⟩ := (h.calm.known id hf).live_create hfree hlive
      rw [Option.isNone_iff_eq_none.mp hfree.2.2] at ht
      cases ht

theorem Calm.tail (h : Calm s) {f : TimerFunctor} {fs : List TimerFunctor}
    (hf : s.pendingFunctors = f :: fs) : Calm { s with pendingFunctors := fs } :=
  ⟨h.order, fun id hid => h.known id (hf ▸ List.mem_cons_of_mem _ hid),
    (List.pairwise_cons.mp (hf ▸ h.functors)).2⟩

theorem Quiet.runFunctor (h : Quiet s) (hb : s.batch = none) {f : TimerFunctor}
    {fs : List TimerFunctor} (hf : s.pendingFunctors = f :: fs)
    (hs : { s with pendingFunctors := fs }.runFunctor f = some s') : Quiet s' := by
  have hinv := h.inv.runFunctor hf hs
  have hcalm := h.calm.tail hf
  cases f with
  | addTimerInLoop timer =>
    have hframe := Frame.addTimerInLoop hs
    have he : Effect (fun _ => False) { s with pendingFunctors := fs } s' := .addTimerInLoop hs
    have hstopped : AllStopped { s with pendingFunctors := fs } := h.stopped
    refine ⟨hinv, ?_, hstopped.of_effect hframe he nofun,
      hcalm.of_effect hframe.numCreated hframe.pendingFunctors he⟩
    rw [he.calling, hframe.batch]
    exact h.calling
  | cancelInLoop id =>
    have hrest : Quiet { s with pendingFunctors := fs } :=
      ⟨⟨⟨h.inv.good.owned.dequeue_cancel hf,
        h.inv.good.ledger.congr rfl (le_refl _) rfl fun _ => Iff.rfl⟩, h.inv.todo⟩,
        h.calling, h.stopped, hcalm⟩
    cases hs
    refine hrest.cancelInLoop (h.calm.known id (hf ▸ List.mem_cons_self))
      fun hlive => ⟨fun hq => ?_, ?_⟩
    · obtain ⟨f, hf', heq⟩ := List.mem_filterMap.mp hq
      cases f with
      | addTimerInLoop timer =>
        cases heq
        have hfunctors := h.calm.functors
        rw [hf] at hfunctors
        exact (List.pairwise_cons.mp hfunctors).1 _ hf' id rfl rfl hlive
      | cancelInLoop => cases heq
    · rw [toRun, hb]
      exact List.not_mem_nil

theorem Quiet.beginBatch (h : Quiet s) (hb : s.batch = none) (hinv : Inv s.beginBatch) :
    Quiet s.beginBatch := by
  have howned : Owned [] { s with timerfd := s.timerfd.read } :=
    (inBatch_none hb ▸ h.inv.good.owned).congr rfl rfl rfl rfl
  obtain ⟨A, heq, -⟩ := howned.getExpired_eq s.clock
  have hlive {id : TimerId} (hid : s.Stopped id) : ¬s.Live id := by
    intro hlive
    obtain ⟨h₁, -⟩ := hid.2 hlive
    rw [inBatch_none hb] at h₁
    cases h₁
  rw [TimerQueue.beginBatch, heq] at hinv ⊢
  exact ⟨hinv, rfl, fun id hid => ⟨(h.stopped id hid).1, fun hid' =>
    absurd hid' (hlive (h.stopped id hid))⟩, h.calm.order, h.calm.known, h.calm.functors⟩

theorem Quiet.callback (h : Quiet s) {now : Timestamp} {expired es : List TimerEntry}
    {e : TimerEntry} (hb : s.batch = some ⟨now, expired, e :: es⟩)
    (hinv : Inv ({ s with batch := some ⟨now, expired, es⟩ }.runTimer (ofLex e).2)) :
    Quiet ({ s with batch := some ⟨now, expired, es⟩ }.runTimer (ofLex e).2) := by
  have hin : s.inBatch = expired.map fun e => (ofLex e).2 := by rw [inBatch, hb]
  have hrun : s.toRun = (ofLex e).2 :: es.map fun e => (ofLex e).2 := by rw [toRun, hb]; rfl
  have hmem : (ofLex e).2 ∈ s.inBatch := by
    rw [hin]
    exact List.mem_map_of_mem (h.inv.todo _ hb List.mem_cons_self)
  obtain ⟨t, ht⟩ := h.inv.good.owned.of_loose hmem
  have hstopped {id : TimerId} (hid : s.Stopped id) : s.Known id ∧ (s.Live id →
      id.timer ∈ expired.map (fun e => (ofLex e).2) ∧ id.timer ∉ es.map (fun e => (ofLex e).2) ∧
      id.active ∈ s.cancelingTimers) := by
    refine ⟨hid.1, fun hlive => ?_⟩
    obtain ⟨h₁, h₂, h₃⟩ := hid.2 hlive
    rw [hrun, List.mem_cons, not_or] at h₂
    exact ⟨hin ▸ h₁, h₂.2, h₃⟩
  rw [runTimer, show ({ s with batch := some ⟨now, expired, es⟩ } : TimerQueue).heap _ = some t
    from ht] at hinv ⊢
  refine ⟨hinv, ?_, fun id hid => ?_, ?_, h.calm.known, h.calm.functors⟩
  · exact h.calling.trans (by rw [hb]; rfl)
  · obtain hid | hid := List.mem_append.mp hid
    · exact hstopped (h.stopped id hid)
    · cases List.mem_singleton.mp hid
  · refine List.pairwise_append.mpr ⟨h.calm.order, List.pairwise_singleton .., ?_⟩
    rintro _ hid _ he id rfl rfl
    cases List.mem_singleton.mp he
    obtain ⟨-, h₂, -⟩ := (h.stopped _ hid).2 ⟨t, ht, rfl⟩
    exact h₂ (hrun ▸ List.mem_cons_self)

theorem Quiet.endBatch (h : Quiet s) {now : Timestamp} {expired : List TimerEntry}
    (hb : s.batch = some ⟨now, expired, []⟩) (hs : s.endBatch ⟨now, expired, []⟩ = some s')
    (hinv : Inv s') : Quiet s' := by
  have hf := Frame.reset hs
  obtain ⟨s₁, h₁, hs⟩ := Option.bind_eq_some_iff.mp hs
  have he : Effect (fun _ => False) { s with callingExpiredTimers := false, batch := none } s₁ :=
    .foldlM_resetEntry h₁
  have hin : s.inBatch = expired.map fun e => (ofLex e).2 := by rw [inBatch, hb]
  have hcalm : Calm s₁ := Calm.of_effect (s := { s with callingExpiredTimers := false, batch := none })
    ⟨h.calm.order, h.calm.known, h.calm.functors⟩ (Frame.foldlM_resetEntry h₁).numCreated
    (Frame.foldlM_resetEntry h₁).pendingFunctors he
  have hgone {id : TimerId} (hid : s.Stopped id) : ¬s₁.Live id := by
    intro hlive
    have hlive₀ : s.Live id := he.live id hlive
    exact not_live_of_foldlM h₁ (hin ▸ (hid.2 hlive₀).1) (fun hlive => (hid.2 hlive).2.2) hlive
  obtain ⟨fd, rfl⟩ := rearm_eq_some hs
  obtain ⟨es, hlog, hes⟩ := he.log
  refine ⟨hinv, ?_, fun id hid => ?_, hcalm.order, hcalm.known, hcalm.functors⟩
  · rw [hf.batch]
    exact he.calling
  · rw [show s₁.log = _ from hlog, List.mem_append] at hid
    obtain hid | hid := hid
    · have hstopped := h.stopped id hid
      exact ⟨hstopped.1.of_le hf.numCreated.ge, fun hlive => absurd hlive (hgone hstopped)⟩
    · exact ((hes _ hid).2 id rfl).elim

theorem Quiet.step {i : TimerInput} (h : Quiet s) (hsafe : s.SafeCancel i)
    (hs : s.step i = some s') : Quiet s' := by
  have hinv := h.inv.step hs
  cases i with
  | elapse micros =>
    cases hs
    exact ⟨hinv, h.calling, h.stopped, h.calm.order, h.calm.known, h.calm.functors⟩
  | elsewhere =>
    cases hs
    refine ⟨hinv, h.calling, fun id hid => ?_, h.calm.order,
      fun id hid => (h.calm.known id hid).of_le (Nat.le_succ _), h.calm.functors⟩
    exact ⟨(h.stopped id hid).1.of_le (Nat.le_succ _), (h.stopped id hid).2⟩
  | addTimer inLoop timer when interval =>
    obtain ⟨hfree, hs⟩ := Option.ite_none_right_eq_some.mp hs
    exact h.addTimer hfree hs
  | cancel inLoop id =>
    obtain ⟨hknown, hs⟩ := Option.ite_none_right_eq_some.mp hs
    cases inLoop with
    | true =>
      cases hs
      exact h.cancelInLoop hknown (hsafe id rfl)
    | false =>
      cases hs
      refine ⟨hinv, h.calling, h.stopped, h.calm.order, fun id' hid' => ?_, ?_⟩
      · obtain hid' | hid' := List.mem_append.mp hid'
        · exact h.calm.known id' hid'
        · cases List.mem_singleton.mp hid'
          exact hknown
      · refine List.pairwise_append.mpr ⟨h.calm.functors, List.pairwise_singleton .., ?_⟩
        rintro f - _ hf' id' - heq
        cases (List.mem_singleton.mp hf').symm.trans heq
  | doPendingFunctor =>
    rw [TimerQueue.step] at hs
    split at hs
    · rename_i hb hf
      exact h.runFunctor hb hf hs
    · cases hs
  | handleRead =>
    rw [TimerQueue.step] at hs
    split at hs
    · rename_i hb
      cases hs
      exact h.beginBatch hb hinv
    · cases hs
  | callback =>
    rw [TimerQueue.step] at hs
    split at hs
    · rename_i hb
      cases hs
      exact h.callback hb hinv
    · cases hs
  | reset =>
    rw [TimerQueue.step] at hs
    split at hs
    · rename_i hb
      exact h.endBatch hb hs hinv
    · cases hs

/-- **Cancellation.** In every run whose cancels are safe, a timer is not run after the
`cancelInLoop` for it has returned. -/
theorem cancelled_never_runs (clock : Timestamp) (is : List TimerInput) (s : TimerQueue)
    (h : Run.run step (new clock) is = some s)
    (hsafe : Run.Along step SafeCancel (new clock) is) :
    s.log.Pairwise fun e e' => ∀ id, e = .cancelled id → e' ≠ .run id := by
  have hnew : Quiet (new clock) := ⟨inv_new clock, rfl, nofun, .nil, nofun, .nil⟩
  have hquiet : Quiet s :=
    Run.run_invariant (fun _ _ _ hinv hsafe hs => hinv.step hsafe hs) hnew hsafe h
  exact hquiet.calm.order

/-- A repeating timer cancels itself in its callback. -/
theorem cancelled_never_runs_own : ∃ s, Run.run step (new 1)
    [.addTimer true 8 1 ⟨true, 5, by decide⟩, .handleRead, .callback, .cancel true ⟨8, 0⟩, .reset,
      .elapse 10, .handleRead] = some s ∧
    s.log.Pairwise fun e e' => ∀ id, e = .cancelled id → e' ≠ .run id := by
  obtain ⟨s, hs⟩ := Option.isSome_iff_exists.mp (show (Run.run step (new 1)
    [.addTimer true 8 1 ⟨true, 5, by decide⟩, .handleRead, .callback, .cancel true ⟨8, 0⟩, .reset,
      .elapse 10, .handleRead]).isSome by decide +kernel)
  refine ⟨s, hs, cancelled_never_runs 1 _ s hs ?_⟩
  refine ⟨nofun, fun s₁ h₁ => ⟨nofun, fun s₂ h₂ => ⟨nofun, fun s₃ h₃ => ⟨?_, fun s₄ h₄ =>
    ⟨nofun, fun s₅ h₅ => ⟨nofun, fun s₆ h₆ => ⟨nofun, fun _ _ => trivial⟩⟩⟩⟩⟩⟩⟩
  rintro id heq -
  cases heq
  cases h₁
  cases h₂
  cases h₃
  exact ⟨List.not_mem_nil, List.not_mem_nil⟩

/-- Two runs in which a cancelled timer fires: the first of two timers that expire together cancels
the second; and a timer is cancelled while its functor is still queued. -/
theorem cancelled_runs :
    ((Run.run step (new 1) [.addTimer true 8 1 ⟨false, 0, by decide⟩,
      .addTimer true 9 1 ⟨false, 0, by decide⟩, .handleRead, .callback, .cancel true ⟨9, 1⟩,
      .callback]).map log = some [.run ⟨8, 0⟩, .cancelled ⟨9, 1⟩, .run ⟨9, 1⟩]) ∧
    ((Run.run step (new 1) [.addTimer false 8 1 ⟨false, 0, by decide⟩, .cancel true ⟨8, 0⟩,
      .doPendingFunctor, .handleRead, .callback]).map log =
        some [.cancelled ⟨8, 0⟩, .run ⟨8, 0⟩]) := by
  decide +kernel

end MuduoX.TimerQueue
