import MuduoX.Loop.EventLoop

/-! # Queued functors

A functor goes from the queue to the batch and from the batch to its call, and never past another
one. The loop does not wait for long while there is something in the queue: who queues a functor
writes to the eventfd, except the loop's own thread in a callback of a channel, whose queue is taken
before the next wait. -/

namespace MuduoX.Loop

variable {α : Type*}

/-- What is left of the batch that `doPendingFunctors` has taken. -/
def Phase.batch : Phase α → List α
  | .functors rest | .functor rest => rest
  | _ => []

/-- The phases of `doPendingFunctors`. -/
def Phase.inDoPendingFunctors : Phase α → Bool
  | .calling | .functors _ | .functor _ => true
  | _ => false

/-- The phases from which the next wait comes before the next swap. -/
def Phase.beforePoll : Phase α → Bool
  | .handle _ | .callback _ | .calling | .returned => false
  | _ => true

/-- The functor whose locked insertion the step is. -/
def Input.inserted : Input α → List α
  | .queueInLoop _ cb => [cb]
  | _ => []

namespace EventLoop

variable {s s' : EventLoop α} {i : Input α} {tid : ThreadId}
  {active : List ActiveChannel}

/-! ## Order -/

/-- Every functor that has ever been queued: executed, in the batch, or in the queue. -/
def functors (s : EventLoop α) : List α := s.executed ++ s.phase.batch ++ s.pendingFunctors

theorem functors_loop (hs : s.loop active = some s') : s'.functors = s.functors := by
  rw [EventLoop.loop] at hs
  rw [functors, functors]
  split at hs <;> rename_i hphase <;> rw [hphase]
  case h_3 => split at hs <;> cases hs <;> rfl
  case h_4 =>
    split at hs <;> cases hs
    rfl
  case h_9 =>
    -- the swap
    cases hs
    simp only [Phase.batch, List.append_nil]
  case h_11 f rest =>
    cases hs
    simp only [Phase.batch, List.append_assoc, List.singleton_append]
  all_goals cases hs <;> rfl

theorem functors_step (hs : s.step i = some s') : s'.functors = s.functors ++ i.inserted := by
  cases i with
  | queueInLoop tid cb =>
    obtain ⟨-, hs⟩ := Option.ite_none_right_eq_some.mp hs
    cases hs
    exact (List.append_assoc ..).symm
  | quit tid =>
    obtain ⟨-, hs⟩ := Option.ite_none_right_eq_some.mp hs
    cases hs
    exact (List.append_nil _).symm
  | wakeup tid =>
    obtain ⟨c, -, rfl⟩ := Option.map_eq_some_iff.mp hs
    obtain ⟨n, hn, -⟩ := s.finish_eq tid c
    rw [hn]
    exact (List.append_nil _).symm
  | loop active =>
    obtain ⟨-, hs⟩ := Option.ite_none_right_eq_some.mp hs
    rw [functors_loop hs]
    exact (List.append_nil _).symm

/-- **Queued functors run exactly once, in order.** In every run of any number of threads, the
functors executed so far, the rest of the batch and the queue are together the functors inserted, in
the order of their insertions. -/
theorem executed_in_order (tid : ThreadId) (is : List (Input α)) (s : EventLoop α)
    (h : Run.run step (new tid) is = some s) :
    s.executed ++ s.phase.batch ++ s.pendingFunctors = is.flatMap Input.inserted :=
  Run.run_appends (I := fun _ => True) functors
    (fun _ _ _ _ hs => ⟨trivial, functors_step hs⟩) trivial h

/-- Thread 7 queues two functors, and the first one queues a third. -/
theorem executed_in_order_nested : ∃ s, Run.run step (new 1) [.loop [], .loop [],
      .queueInLoop 7 "a", .loop [], .wakeup 7, .queueInLoop 7 "b", .loop [.wakeupChannel], .loop [],
      .loop [], .loop [], .loop [], .queueInLoop 1 "c", .wakeup 1, .loop []] = some s ∧
    s.executed ++ s.phase.batch ++ s.pendingFunctors = ["a", "b", "c"] :=
  ⟨_, rfl, executed_in_order 1 [.loop [], .loop [],
    .queueInLoop 7 "a", .loop [], .wakeup 7, .queueInLoop 7 "b", .loop [.wakeupChannel], .loop [],
    .loop [], .loop [], .loop [], .queueInLoop 1 "c", .wakeup 1, .loop []] _ rfl⟩

/-! ## Wakeup -/

/-- The flag is set exactly while `doPendingFunctors` runs. -/
def FlagSet (s : EventLoop α) : Prop := s.callingPendingFunctors = s.phase.inDoPendingFunctors

/-- A functor in the queue has been announced, or will be by the thread that has inserted it. -/
def Announced (s : EventLoop α) : Prop :=
  s.pendingFunctors ≠ [] → s.wakeupFd ≠ 0 ∨
    ∃ tid, s.call tid = some .queued ∧ (tid = s.threadId → s.callingPendingFunctors = true)

/-- In the phases from which the loop reaches a wait before a swap, a functor in the queue must have
been announced. -/
structure Inv (s : EventLoop α) : Prop where
  flag : s.FlagSet
  announced : s.phase.beforePoll = true → s.Announced

/-- The loop's own thread queues nothing before `loop()`. -/
def QueuesInLoop (s : EventLoop α) : Input α → Prop
  | .queueInLoop tid _ => tid = s.threadId → s.phase ≠ .outside
  | _ => True

theorem inv_new (tid : ThreadId) : Inv (new tid : EventLoop α) :=
  ⟨rfl, fun _ hne => absurd rfl hne⟩

/-- A step of a call that leaves the queue and the counter announces what was announced before. -/
theorem Announced.setCall {c : Option Call} (h : s.Announced)
    (hnew : s.call tid = none ∨ c = some .queued) : (s.setCall tid c).Announced := by
  intro hne
  obtain hfd | ⟨t, hcall, hflag⟩ := h hne
  · exact .inl hfd
  · refine .inr ⟨t, ?_, hflag⟩
    obtain rfl | ht := eq_or_ne t tid
    · obtain hnone | rfl := hnew
      · cases hnone.symm.trans hcall
      · exact setCall_self _
    · rwa [setCall_of_ne ht]

theorem Inv.queueInLoop {cb : α} (h : Inv s) (hcall : s.mayCall tid)
    (hin : tid = s.threadId → s.phase ≠ .outside) : Inv (s.queueInLoop tid cb) := by
  refine ⟨h.flag, fun hpoll _ => .inr ⟨tid, setCall_self _, fun hloop => ?_⟩⟩
  -- the loop's thread is in a functor: a callback is not followed by a wait
  have huser := (mayCall_iff.mp hcall).2 hloop
  have hin := hin hloop
  refine h.flag.trans ?_
  cases hphase : s.phase with
  | functor rest => rfl
  | outside => exact absurd hphase hin
  | callback rest =>
    rw [EventLoop.queueInLoop, setCall, hphase] at hpoll
    cases hpoll
  | returned =>
    rw [EventLoop.queueInLoop, setCall, hphase] at hpoll
    cases hpoll
  | entered | test | poll | handle | calling | functors =>
    rw [hphase] at huser
    cases huser

theorem Inv.finish {c : Call} (h : Inv s) (hcall : s.call tid = some c) :
    Inv (s.finish tid c) := by
  obtain ⟨n, hn, hskip⟩ := s.finish_eq tid c
  rw [hn]
  refine ⟨h.flag, fun hpoll hne => ?_⟩
  obtain hn | ⟨rfl, hloop, hflag⟩ := hskip
  · exact .inl hn
  · obtain hfd | ⟨t, ht, hin⟩ := h.announced hpoll hne
    · exact .inl hfd
    · refine .inr ⟨t, ?_, hin⟩
      have hne : t ≠ tid := by
        rintro rfl
        cases hcall.symm.trans ht
        cases (hflag rfl).symm.trans (hin hloop)
      rwa [setCall_of_ne hne]

theorem Inv.loop (h : Inv s) (hcall : s.call s.threadId = none) (hs : s.loop active = some s') :
    Inv s' := by
  rw [EventLoop.loop] at hs
  have hflag := h.flag
  have hannounced := h.announced
  rw [FlagSet] at hflag
  split at hs <;> rename_i hphase <;> rw [hphase] at hflag hannounced
  case h_3 =>
    split at hs <;> cases hs
    · exact ⟨hflag, fun ha => Bool.noConfusion ha⟩
    · exact ⟨hflag, fun _ => hannounced rfl⟩
  case h_4 =>
    split at hs <;> cases hs
    exact ⟨hflag, fun ha => Bool.noConfusion ha⟩
  case h_9 =>
    -- the swap leaves nothing in the queue
    cases hs
    exact ⟨hflag, fun _ hne => absurd rfl hne⟩
  case h_10 =>
    -- the flag falls: the announcement is not the loop thread's own
    cases hs
    refine ⟨rfl, fun _ hne => (hannounced rfl hne).imp_right ?_⟩
    rintro ⟨t, ht, -⟩
    refine ⟨t, ht, fun hloop => ?_⟩
    rw [hloop, hcall] at ht
    cases ht
  case h_1 | h_2 | h_11 | h_12 =>
    cases hs
    exact ⟨hflag, fun _ => hannounced rfl⟩
  case h_5 =>
    cases hs
    exact ⟨rfl, fun ha => Bool.noConfusion ha⟩
  case h_6 | h_7 | h_8 =>
    cases hs
    exact ⟨hflag, fun ha => Bool.noConfusion ha⟩
  case h_13 => cases hs

theorem Inv.step (h : Inv s) (hin : s.QueuesInLoop i) (hs : s.step i = some s') : Inv s' := by
  cases i with
  | queueInLoop tid cb =>
    obtain ⟨hcall, hs⟩ := Option.ite_none_right_eq_some.mp hs
    cases hs
    exact h.queueInLoop hcall hin
  | quit tid =>
    obtain ⟨hcall, hs⟩ := Option.ite_none_right_eq_some.mp hs
    cases hs
    exact ⟨h.flag, fun hpoll => Announced.setCall (s := { s with quit := true })
      (h.announced hpoll) (.inl (mayCall_iff.mp hcall).1)⟩
  | wakeup tid =>
    obtain ⟨c, hcall, rfl⟩ := Option.map_eq_some_iff.mp hs
    exact h.finish hcall
  | loop active =>
    obtain ⟨hcall, hs⟩ := Option.ite_none_right_eq_some.mp hs
    exact h.loop hcall hs

/-- **No lost wake-up.** In every run in which the loop's own thread queues nothing before `loop()`,
whenever that thread enters or is in a wait and the queue is not empty, the counter is not 0, or
another thread has inserted a functor and not yet written to the eventfd. -/
theorem announced_of_run (tid : ThreadId) (is : List (Input α)) (s : EventLoop α)
    (h : Run.run step (new tid) is = some s) (hin : Run.Along step QueuesInLoop (new tid) is)
    (hpoll : s.phase = .poll) (hne : s.pendingFunctors ≠ []) :
    s.wakeupFd ≠ 0 ∨ ∃ t ≠ s.threadId, s.call t = some .queued := by
  have hinv : Inv s := Run.run_invariant (fun _ _ _ hinv hi hs => hinv.step hi hs) (inv_new tid)
    hin h
  refine (hinv.announced (by rw [hpoll]; rfl) hne).imp_right ?_
  rintro ⟨t, ht, hflag⟩
  refine ⟨t, fun hloop => ?_, ht⟩
  have hfalse := hinv.flag
  rw [FlagSet, hpoll, hflag hloop] at hfalse
  cases hfalse

/-- A functor is in the queue of a waiting loop, and its thread has not written yet. -/
theorem announced_of_run_inserted : ∃ s, Run.run step (new 1)
      [.loop [], .loop [], .loop [], .queueInLoop 7 "a"] = some s ∧
    s.phase = .poll ∧ s.pendingFunctors = ["a"] ∧
    (s.wakeupFd ≠ 0 ∨ ∃ t ≠ s.threadId, s.call t = some .queued) := by
  refine ⟨_, rfl, rfl, rfl, announced_of_run 1 [.loop [], .loop [], .loop [],
    .queueInLoop 7 "a"] _ rfl ?_ rfl (List.cons_ne_nil _ _)⟩
  refine ⟨trivial, fun s₁ h₁ => ⟨trivial, fun s₂ h₂ => ⟨trivial, fun s₃ h₃ => ⟨?_, fun _ _ =>
    trivial⟩⟩⟩⟩
  cases h₁
  cases h₂
  cases h₃
  exact nofun

end EventLoop

end MuduoX.Loop
