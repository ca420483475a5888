import MuduoX.Timer.TimerQueue

/-! # The timerfd wakes the queue in time

`Wakes fd when` says that the timerfd has an expiration to read or is armed for `when` (at the
earliest 100 microseconds after it was armed). It need only be kept for the earliest timer, but it
holds of all of them. In the middle of a batch it holds of the timers that are not `valid`, which
`reset` would not arm for: they are there since a callback of the batch, and `addTimerInLoop` has
armed for them. -/

namespace MuduoX

def Timerfd.Wakes (fd : Timerfd) (when : Timestamp) : Prop :=
  0 < fd.ticks ∨ ∃ a, fd.armed = some a ∧ a.deadline ≤ max when (a.since + 100)

theorem Timerfd.Wakes.mono {fd : Timerfd} {when when' : Timestamp} (h : fd.Wakes when)
    (hle : when ≤ when') : fd.Wakes when' := by
  obtain h | ⟨a, ha, hdeadline⟩ := h
  · exact .inl h
  · exact .inr ⟨a, ha, hdeadline.trans (max_le_max_right _ hle)⟩

/-- Waiting does not miss a deadline: when it has come there is an expiration to read. -/
theorem Timerfd.Wakes.elapse {fd : Timerfd} {when : Timestamp} (h : fd.Wakes when)
    (now : Timestamp) : (fd.elapse now).Wakes when := by
  rw [Timerfd.elapse]
  split
  · split
    · exact .inl (Nat.succ_pos _)
    · exact h
  · exact h

/-- The value is the time from now, in seconds and nanoseconds. -/
theorem howMuchTimeFromNow_eq {when now : Timestamp} {value : Timespec}
    (h : howMuchTimeFromNow when now = some value) :
    value.tv_sec * kMicroSecondsPerSecond + value.tv_nsec / 1000 = max (when - now) 100 := by
  obtain ⟨micros, hmicros, rfl⟩ := Option.map_eq_some_iff.mp h
  obtain ⟨-, hmicros⟩ := Option.ite_none_right_eq_some.mp hmicros
  cases hmicros
  simp only [kMicroSecondsPerSecond]
  split <;> omega

theorem Timerfd.wakes_settime {when now : Timestamp} {value : Timespec}
    (h : howMuchTimeFromNow when now = some value) : (Timerfd.settime now value).Wakes when := by
  refine .inr ⟨_, rfl, ?_⟩
  rw [add_assoc, howMuchTimeFromNow_eq h, ← max_add_add_left, add_sub_cancel]

namespace TimerQueue

variable {s s' : TimerQueue} {P : Timestamp → Prop}

/-- The timerfd wakes the queue for every timer whose expiration satisfies `P`. -/
def ArmedFor (P : Timestamp → Prop) (s : TimerQueue) : Prop :=
  ∀ e ∈ s.timers, P (ofLex e).1 → s.timerfd.Wakes (ofLex e).1

/-- Fewer timers, at the same timerfd. -/
theorem ArmedFor.subset (h : ArmedFor P s) (hfd : s'.timerfd = s.timerfd)
    (hsub : ∀ e ∈ s'.timers, e ∈ s.timers) : ArmedFor P s' :=
  fun e he hP => hfd ▸ h e (hsub e he) hP

theorem fst_le {e e' : TimerEntry} (h : e ≤ e') : (ofLex e).1 ≤ (ofLex e').1 :=
  Prod.Lex.monotone_fst _ _ h

/-- Arming for a time that is not behind any timer is arming for all of them. -/
theorem ArmedFor.of_resetTimerfd {when : Timestamp} (h : s.resetTimerfd when = some s')
    (hle : ∀ e ∈ s.timers, when ≤ (ofLex e).1) : ArmedFor P s' := by
  obtain ⟨value, hvalue, rfl⟩ := Option.map_eq_some_iff.mp h
  exact fun e he _ => (Timerfd.wakes_settime hvalue).mono (hle e he)

/-- `addTimerInLoop` arms for a new earliest timer; behind another one there is nothing to do. -/
theorem ArmedFor.addTimerInLoop {timer : Address} (h : ArmedFor P s)
    (hP : ∀ t t', t ≤ t' → P t' → P t) (hs : s.addTimerInLoop timer = some s') :
    ArmedFor P s' := by
  rw [TimerQueue.addTimerInLoop] at hs
  split at hs
  · cases hs
    exact h
  · rename_i t ht
    extract_lets r at hs
    have hmem {e : TimerEntry} (he : e ∈ r.2.timers) :
        e = toLex (t.expiration, timer) ∨ e ∈ s.timers := OrderedSet.mem_insert.mp he
    cases hb : s.timers.begin? with
    | none =>
      have hr : r.1 = true := by simp only [r, TimerQueue.insert, hb]
      rw [if_pos hr] at hs
      refine .of_resetTimerfd hs fun e he => ?_
      obtain rfl | he := hmem he
      · exact le_refl _
      · exact absurd he (OrderedSet.begin?_eq_none.mp hb e)
    | some b =>
      have hr : r.1 = decide (t.expiration < (ofLex b).1) := by
        simp only [r, TimerQueue.insert, hb]
      split at hs
      · rename_i hearliest
        have hlt : t.expiration < (ofLex b).1 := of_decide_eq_true (hr.symm.trans hearliest)
        refine .of_resetTimerfd hs fun e he => ?_
        obtain rfl | he := hmem he
        · exact le_refl _
        · exact hlt.le.trans (fst_le (OrderedSet.begin?_le hb he))
      · rename_i hearliest
        have hle : (ofLex b).1 ≤ t.expiration :=
          not_lt.mp (of_decide_eq_false (hr.symm.trans (eq_false_of_ne_true hearliest)))
        cases hs
        intro e he hPe
        obtain rfl | he := hmem he
        · exact (h b (OrderedSet.mem_begin? hb) (hP _ _ hle hPe)).mono hle
        · exact h e he hPe

theorem ArmedFor.delete (h : ArmedFor P s) (timer : Address) : ArmedFor P (s.delete timer) := by
  rw [TimerQueue.delete]
  split <;> exact h

theorem ArmedFor.cancelInLoop (h : ArmedFor P s) (id : TimerId) :
    ArmedFor P (s.cancelInLoop id) := by
  rw [TimerQueue.cancelInLoop]
  split
  · split
    · exact h
    · rename_i t _
      have herased : ArmedFor P { s with
          timers := s.timers.erase (toLex (t.expiration, id.timer)) } :=
        h.subset rfl fun e he => (OrderedSet.mem_erase.mp he).2
      exact herased.delete id.timer
  · split <;> exact h

theorem timers_eraseActive (es : List TimerEntry) (s : TimerQueue) :
    (es.foldl eraseActive s).timers = s.timers := by
  induction es generalizing s with
  | nil => rfl
  | cons e es ih =>
    rw [List.foldl_cons, ih, eraseActive]
    split <;> rfl

/-- The timers that `handleRead` leaves in the set are not over. -/
theorem le_of_mem_beginBatch {e : TimerEntry} (he : e ∈ s.beginBatch.timers) :
    s.clock ≤ (ofLex e).1 := by
  have htimers : s.beginBatch.timers = s.timers.notBelow (toLex (s.clock, UINTPTR_MAX)) :=
    timers_eraseActive ..
  rw [htimers, OrderedSet.mem_notBelow, not_lt] at he
  exact fst_le he.2

/-- What `reset` puts back expires after the batch's `now`. -/
theorem ArmedFor.resetEntry {now : Timestamp} {e : TimerEntry}
    (h : ArmedFor (fun t => ¬t.valid) s) (hnow : now.valid)
    (hs : s.resetEntry now e = some s') : ArmedFor (fun t => ¬t.valid) s' := by
  rw [TimerQueue.resetEntry] at hs
  split at hs
  · cases hs
    exact h
  · rename_i t ht
    split at hs
    · rename_i hrepeats
      obtain ⟨t', ht', rfl⟩ := Option.map_eq_some_iff.mp hs
      rw [Timer.restart, if_pos hrepeats.1] at ht'
      obtain ⟨when, hwhen, rfl⟩ := Option.map_eq_some_iff.mp ht'
      obtain ⟨-, hwhen⟩ := Option.ite_none_right_eq_some.mp hwhen
      cases hwhen
      have hnonneg := t.interval.micros_nonneg hrepeats.1
      have hvalid : Timestamp.valid (now + t.interval.micros) :=
        add_pos_of_pos_of_nonneg hnow hnonneg
      intro e' he' hinvalid
      obtain rfl | he' := OrderedSet.mem_insert.mp he'
      · exact absurd hvalid hinvalid
      · exact h e' he' hinvalid
    · cases hs
      exact h.delete _

theorem ArmedFor.foldlM_resetEntry {now : Timestamp} {es : List TimerEntry}
    (h : ArmedFor (fun t => ¬t.valid) s) (hnow : now.valid)
    (hs : es.foldlM (TimerQueue.resetEntry now) s = some s') :
    ArmedFor (fun t => ¬t.valid) s' := by
  induction es generalizing s with
  | nil =>
    cases hs
    exact h
  | cons e es ih =>
    obtain ⟨s₁, h₁, hs⟩ := Option.bind_eq_some_iff.mp hs
    exact ih (h.resetEntry hnow h₁) hs

/-- At the end of a batch the timerfd is armed again for whatever is left. -/
theorem ArmedFor.rearm (h : ArmedFor (fun t => ¬t.valid) s) (hs : s.rearm = some s') :
    ArmedFor P s' := by
  unfold TimerQueue.rearm at hs
  extract_lets nextExpire at hs
  cases hb : s.timers.begin? with
  | none =>
    have hnext : nextExpire = 0 := by simp only [nextExpire, hb]
    rw [if_neg (by rw [hnext]; decide)] at hs
    cases hs
    exact fun e he => absurd he (OrderedSet.begin?_eq_none.mp hb e)
  | some b =>
    have hnext : nextExpire = (ofLex b).1 := by simp only [nextExpire, hb]
    split at hs
    · exact .of_resetTimerfd hs fun e he => hnext ▸ fst_le (OrderedSet.begin?_le hb he)
    · rename_i hinvalid
      cases hs
      intro e he _
      exact (h b (OrderedSet.mem_begin? hb) (hnext ▸ hinvalid)).mono
        (fst_le (OrderedSet.begin?_le hb he))

/-- The invariant: between batches the timerfd wakes the queue for every timer, in a batch for
those that `reset` will pass over. -/
structure Armed (s : TimerQueue) : Prop where
  clock : s.clock.valid
  now : ∀ b, s.batch = some b → b.now.valid
  invalid : ArmedFor (fun t => ¬t.valid) s
  idle : s.batch = none → ArmedFor (fun _ => True) s

theorem Armed.of_frame (h : Armed s) (hf : Frame s s')
    (hP : ∀ P : Timestamp → Prop, (∀ t t', t ≤ t' → P t' → P t) → ArmedFor P s → ArmedFor P s') :
    Armed s' where
  clock := hf.clock ▸ h.clock
  now b hb := h.now b (hf.batch ▸ hb)
  invalid := hP _ (fun _ _ hle hinvalid hvalid => hinvalid (lt_of_lt_of_le hvalid hle)) h.invalid
  idle hb := hP _ (fun _ _ _ _ => trivial) (h.idle (hf.batch ▸ hb))

theorem Armed.runInLoop {inLoop : Bool} {f : TimerFunctor} {run : TimerQueue → Option TimerQueue}
    (h : Armed s) (hrun : ∀ s', run s = some s' → Armed s')
    (hs : s.runInLoop inLoop f run = some s') : Armed s' := by
  rw [TimerQueue.runInLoop] at hs
  split at hs
  · exact hrun s' hs
  · cases hs
    exact ⟨h.clock, h.now, h.invalid, h.idle⟩

theorem Armed.addTimerInLoop {timer : Address} (h : Armed s)
    (hs : s.addTimerInLoop timer = some s') : Armed s' :=
  h.of_frame (.addTimerInLoop hs) fun _ hP harmed => harmed.addTimerInLoop hP hs

theorem Armed.cancelInLoop (h : Armed s) (id : TimerId) : Armed (s.cancelInLoop id) :=
  h.of_frame (.cancelInLoop s id) fun _ _ harmed => harmed.cancelInLoop id

theorem Armed.step {i : TimerInput} (h : Armed s) (hs : s.step i = some s') : Armed s' := by
  cases i with
  | elapse micros =>
    cases hs
    exact ⟨add_pos_of_pos_of_nonneg h.clock (Int.natCast_nonneg micros), h.now,
      fun e he hP => (h.invalid e he hP).elapse _, fun hb e he hP => (h.idle hb e he hP).elapse _⟩
  | elsewhere =>
    cases hs
    exact ⟨h.clock, h.now, h.invalid, h.idle⟩
  | addTimer inLoop timer when interval =>
    obtain ⟨-, hs⟩ := Option.ite_none_right_eq_some.mp hs
    have hcreate : Armed (s.create timer when interval) := ⟨h.clock, h.now, h.invalid, h.idle⟩
    exact hcreate.runInLoop (fun _ => hcreate.addTimerInLoop) hs
  | cancel inLoop id =>
    obtain ⟨-, hs⟩ := Option.ite_none_right_eq_some.mp hs
    refine h.runInLoop (fun s' hs' => ?_) hs
    cases hs'
    exact h.cancelInLoop id
  | doPendingFunctor =>
    rw [TimerQueue.step] at hs
    split at hs
    · rename_i f fs _ _
      have hrest : Armed { s with pendingFunctors := fs } := ⟨h.clock, h.now, h.invalid, h.idle⟩
      cases f with
      | addTimerInLoop timer => exact hrest.addTimerInLoop hs
      | cancelInLoop id =>
        cases hs
        exact hrest.cancelInLoop id
    · cases hs
  | handleRead =>
    rw [TimerQueue.step] at hs
    split at hs
    · cases hs
      have hclock : s.beginBatch.clock = s.clock := (Frame.getExpired _ _).clock
      refine ⟨hclock ▸ h.clock, ?_, fun e he hinvalid => ?_, fun hnone => ?_⟩
      · rintro b hb
        cases hb
        exact h.clock
      · exact absurd (lt_of_lt_of_le h.clock (le_of_mem_beginBatch he)) hinvalid
      · cases hnone
    · cases hs
  | callback =>
    rw [TimerQueue.step] at hs
    split at hs
    · rename_i now expired e es hb
      cases hs
      rw [runTimer]
      have hnow : ∀ b, some (⟨now, expired, es⟩ : Batch) = some b → b.now.valid := by
        rintro b hb'
        cases hb'
        exact h.now ⟨now, expired, e :: es⟩ hb
      split <;>
      · refine ⟨h.clock, hnow, h.invalid, fun hnone => ?_⟩
        cases hnone
    · cases hs
  | reset =>
    rw [TimerQueue.step] at hs
    split at hs
    · rename_i now expired hb
      have hf := Frame.reset hs
      obtain ⟨s₁, h₁, hs⟩ := Option.bind_eq_some_iff.mp hs
      have hinvalid : ArmedFor (fun t => ¬t.valid) s₁ :=
        ArmedFor.foldlM_resetEntry (s := { s with callingExpiredTimers := false, batch := none })
          h.invalid (h.now _ hb) h₁
      refine ⟨hf.clock ▸ h.clock, fun b hb => ?_, hinvalid.rearm hs, fun _ => hinvalid.rearm hs⟩
      rw [hf.batch] at hb
      cases hb
    · cases hs

/-- **Arming.** Between the operations of the loop, in every run of a process that started after
1970: if there is a timer, the timerfd has an expiration to read or is armed with a deadline that
is not later than the earliest timer (or the moment of arming and 100 microseconds). -/
theorem armed_earliest (clock : Timestamp) (hclock : clock.valid) (is : List TimerInput)
    (s : TimerQueue) (h : Run.run step (new clock) is = some s) (hidle : s.batch = none)
    (e : TimerEntry) (he : s.timers.begin? = some e) :
    0 < s.timerfd.ticks ∨ ∃ a, s.timerfd.armed = some a ∧
      a.deadline ≤ max (ofLex e).1 (a.since + 100) := by
  have hnew : Armed (new clock) := ⟨hclock, nofun, nofun, fun _ => nofun⟩
  have harmed : Armed s := Run.run_invariant' (fun _ _ _ h hs => h.step hs) hnew h
  exact harmed.idle hidle e (OrderedSet.mem_begin? he) trivial

/-- A batch whose callback adds a timer that has been over since before 1970. -/
theorem armed_earliest_invalid : ∃ s e, Run.run step (new 1)
    [.addTimer true 8 1 ⟨false, 0, by decide⟩, .handleRead, .callback,
      .addTimer true 9 (-3) ⟨false, 0, by decide⟩, .reset] = some s ∧
    s.timers.begin? = some e ∧ (0 < s.timerfd.ticks ∨ ∃ a, s.timerfd.armed = some a ∧
      a.deadline ≤ max (ofLex e).1 (a.since + 100)) := by
  obtain ⟨s, hs⟩ := Option.isSome_iff_exists.mp (show (Run.run step (new 1)
    [.addTimer true 8 1 ⟨false, 0, by decide⟩, .handleRead, .callback,
      .addTimer true 9 (-3) ⟨false, 0, by decide⟩, .reset]).isSome by decide +kernel)
  have hfirst : (Run.run step (new 1) [.addTimer true 8 1 ⟨false, 0, by decide⟩, .handleRead,
      .callback, .addTimer true 9 (-3) ⟨false, 0, by decide⟩, .reset]).map
        (fun s => (s.batch.isNone, s.timers.begin?)) = some (true, some (toLex (-3, 9))) := by
    decide +kernel
  rw [hs, Option.map_some, Option.some.injEq, Prod.mk.injEq] at hfirst
  refine ⟨s, _, hs, hfirst.2, ?_⟩
  exact armed_earliest 1 (by decide) _ s hs (Option.isNone_iff_eq_none.mp hfirst.1) _ hfirst.2

end TimerQueue

end MuduoX
