import MuduoX.Loop.EventLoop

/-! # `EventLoopThread`

The thread of `include/EventLoopThread.h`, `src/EventLoopThread.cpp`: `threadFunc` makes the loop,
runs the initial callback, publishes the pointer and enters `loop()`; `startLoop()` returns as soon as
the pointer is there. From then on other threads call the loop's member functions; the destructor's
call of `quit()` before `join()` is one of them. -/

namespace MuduoX.Loop

/-- Where `threadFunc` is. -/
inductive ThreadFunc where
  | notStarted
  /-- The loop is made; `callback_` may be running. -/
  | callback
  /-- behind the publication: about to call `loop.loop()`, in it, or behind it -/
  | loop
  /-- `loop_` is null again and the loop is gone. -/
  | finished
  deriving DecidableEq, Repr

structure EventLoopThread (α : Type*) where
  threadFunc : ThreadFunc
  /-- `loop_` is not null. -/
  published : Bool
  /-- `startLoop()` has returned the pointer. -/
  started : Bool
  loop : EventLoop α

inductive ThreadInput (α : Type*) where
  /-- `thread_.start()` in `startLoop()` -/
  | startLoop
  /-- the locked region of `threadFunc` before the loop -/
  | publish
  /-- the end of `startLoop()` -/
  | startLoopReturns
  | eventLoop (i : Input α)
  /-- the locked region behind the loop, and the end of `threadFunc` -/
  | finish
  deriving DecidableEq, Repr

variable {α : Type*}

/-- `loop()` has been called and has not returned. -/
def Phase.inLoop : Phase α → Bool
  | .outside | .returned => false
  | _ => true

/-- `loop()` has cleared `quit_`. -/
def Phase.initialised : Phase α → Bool
  | .outside | .entered => false
  | _ => true

namespace EventLoopThread

def new (tid : ThreadId) : EventLoopThread α where
  threadFunc := .notStarted
  published := false
  started := false
  loop := .new tid

/-- The loop's own thread makes calls in `callback_` and in `loop()`, another one between the return
of `startLoop()` and the end of the loop. -/
def mayCall (tid : ThreadId) (s : EventLoopThread α) : Bool :=
  if s.loop.isInLoopThread tid then
    s.threadFunc = .callback ∨ (s.threadFunc = .loop ∧ s.loop.phase.inLoop)
  else s.threadFunc = .loop ∧ s.started

def runs (s : EventLoopThread α) : Input α → Bool
  | .queueInLoop tid _ | .quit tid => s.mayCall tid
  | .wakeup _ => true
  | .loop _ => s.threadFunc = .loop

def step (s : EventLoopThread α) : ThreadInput α → Option (EventLoopThread α)
  | .startLoop =>
    if s.threadFunc = .notStarted then some { s with threadFunc := .callback } else none
  | .publish =>
    if s.threadFunc = .callback ∧ s.loop.call s.loop.threadId = none then
      some { s with threadFunc := .loop, published := true }
    else none
  | .startLoopReturns => if s.published then some { s with started := true } else none
  | .eventLoop i =>
    if s.runs i then (s.loop.step i).map fun l => { s with loop := l } else none
  | .finish =>
    if s.threadFunc = .loop ∧ s.loop.phase matches .returned then
      some { s with threadFunc := .finished, published := false }
    else none

variable {s s' : EventLoopThread α} {i : ThreadInput α} {is : List (ThreadInput α)}
  {tid t : ThreadId}

theorem eventLoop_some {j : Input α} (hs : s.step (.eventLoop j) = some s') :
    s.runs j = true ∧ ∃ l, s.loop.step j = some l ∧ s' = { s with loop := l } := by
  obtain ⟨hruns, hs⟩ := Option.ite_none_right_eq_some.mp hs
  obtain ⟨l, hl, rfl⟩ := Option.map_eq_some_iff.mp hs
  exact ⟨hruns, l, hl, rfl⟩

theorem mayCall_self (ht : t = s.loop.threadId) : s.mayCall t ↔
    s.threadFunc = .callback ∨ s.threadFunc = .loop ∧ s.loop.phase.inLoop = true := by
  simp [mayCall, EventLoop.isInLoopThread, ht]

theorem mayCall_of_ne (ht : t ≠ s.loop.threadId) :
    s.mayCall t ↔ s.threadFunc = .loop ∧ s.started = true := by
  simp [mayCall, EventLoop.isInLoopThread, ht.symm]

/-! ### Between the publication and the loop -/

/-- From the publication to the end of the initialisation no user code runs on the loop's thread. -/
structure Inv (tid : ThreadId) (s : EventLoopThread α) : Prop where
  threadId : s.loop.threadId = tid
  idle : s.threadFunc = .loop → s.loop.phase.initialised = false → s.loop.call tid = none

theorem inv_new (tid : ThreadId) : Inv tid (new tid : EventLoopThread α) := ⟨rfl, nofun⟩

/-- There, the thread begins no call. -/
theorem Inv.ne_of_mayCall (h : Inv tid s) (hcall : s.mayCall t = true)
    (hloop : s.loop.mayCall t = true) (hfunc : s.threadFunc = .loop)
    (hinit : s.loop.phase.initialised = false) : tid ≠ t := by
  rintro rfl
  obtain hcallback | ⟨-, hin⟩ := (mayCall_self h.threadId.symm).mp hcall
  · cases hfunc.symm.trans hcallback
  · have huser := (EventLoop.mayCall_iff.mp hloop).2 h.threadId.symm
    cases hphase : s.loop.phase <;> rw [hphase] at hinit hin huser <;> cases hinit <;>
      cases hin
    cases huser

theorem Inv.eventLoop {j : Input α} {l : EventLoop α} (h : Inv tid s) (hruns : s.runs j = true)
    (hl : s.loop.step j = some l) : Inv tid { s with loop := l } := by
  refine ⟨(EventLoop.step_threadId hl).trans h.threadId, fun hfunc hinit => ?_⟩
  cases j with
  | queueInLoop t cb =>
    obtain ⟨hcall, hl⟩ := Option.ite_none_right_eq_some.mp hl
    cases hl
    have hne := h.ne_of_mayCall hruns hcall hfunc hinit
    exact (EventLoop.setCall_of_ne hne _).trans (h.idle hfunc hinit)
  | quit t =>
    obtain ⟨hcall, hl⟩ := Option.ite_none_right_eq_some.mp hl
    cases hl
    have hne := h.ne_of_mayCall hruns hcall hfunc hinit
    exact (EventLoop.setCall_of_ne hne _).trans (h.idle hfunc hinit)
  | wakeup t =>
    obtain ⟨c, -, rfl⟩ := Option.map_eq_some_iff.mp hl
    obtain ⟨n, hn, -⟩ := s.loop.finish_eq t c
    rw [hn] at hinit ⊢
    obtain rfl | hne := eq_or_ne tid t
    · exact EventLoop.setCall_self _
    · exact (EventLoop.setCall_of_ne hne _).trans (h.idle hfunc hinit)
  | loop active =>
    obtain ⟨hcall, hl⟩ := Option.ite_none_right_eq_some.mp hl
    rw [(EventLoop.loop_call hl).1]
    rwa [h.threadId] at hcall

theorem Inv.step (h : Inv tid s) (hs : s.step i = some s') : Inv tid s' := by
  cases i with
  | startLoop =>
    obtain ⟨-, hs⟩ := Option.ite_none_right_eq_some.mp hs
    cases hs
    exact ⟨h.threadId, nofun⟩
  | publish =>
    obtain ⟨⟨-, hcall⟩, hs⟩ := Option.ite_none_right_eq_some.mp hs
    cases hs
    rw [h.threadId] at hcall
    exact ⟨h.threadId, fun _ _ => hcall⟩
  | startLoopReturns =>
    obtain ⟨-, hs⟩ := Option.ite_none_right_eq_some.mp hs
    cases hs
    exact ⟨h.threadId, h.idle⟩
  | eventLoop j =>
    obtain ⟨hruns, l, hl, rfl⟩ := eventLoop_some hs
    exact h.eventLoop hruns hl
  | finish =>
    obtain ⟨-, hs⟩ := Option.ite_none_right_eq_some.mp hs
    cases hs
    exact ⟨h.threadId, nofun⟩

/-! ### The request -/

/-- `quit_` is set, `loop()` will not clear it again, and its body has been entered `n` times. -/
structure Quitting (n : Nat) (s : EventLoopThread α) : Prop where
  quit : s.loop.quit = true
  initialised : s.loop.phase.initialised = true
  iterations : s.loop.iterations = n

theorem Quitting.loop {n : Nat} {active : List ActiveChannel} {l : EventLoop α}
    (h : Quitting n s) (hl : s.loop.loop active = some l) : Quitting n { s with loop := l } := by
  have hinit := h.initialised
  rw [EventLoop.loop] at hl
  split at hl <;> rename_i hphase <;> rw [hphase] at hinit
  case h_1 | h_2 => cases hinit
  case h_3 =>
    -- the test of `quit_`: the body is not entered again
    rw [if_pos h.quit] at hl
    cases hl
    exact ⟨h.quit, rfl, h.iterations⟩
  case h_4 =>
    split at hl <;> cases hl
    exact ⟨h.quit, rfl, h.iterations⟩
  case h_13 => cases hl
  all_goals
    cases hl
    exact ⟨h.quit, rfl, h.iterations⟩

theorem Quitting.step {n : Nat} (h : Quitting n s) (hs : s.step i = some s') : Quitting n s' := by
  cases i with
  | startLoop | publish | startLoopReturns | finish =>
    obtain ⟨-, hs⟩ := Option.ite_none_right_eq_some.mp hs
    cases hs
    exact ⟨h.quit, h.initialised, h.iterations⟩
  | eventLoop j =>
    obtain ⟨-, l, hl, rfl⟩ := eventLoop_some hs
    cases j with
    | queueInLoop t cb =>
      obtain ⟨-, hl⟩ := Option.ite_none_right_eq_some.mp hl
      cases hl
      exact ⟨h.quit, h.initialised, h.iterations⟩
    | quit t =>
      obtain ⟨-, hl⟩ := Option.ite_none_right_eq_some.mp hl
      cases hl
      exact ⟨rfl, h.initialised, h.iterations⟩
    | wakeup t =>
      obtain ⟨c, -, rfl⟩ := Option.map_eq_some_iff.mp hl
      obtain ⟨m, hm, -⟩ := s.loop.finish_eq t c
      rw [hm]
      exact ⟨h.quit, h.initialised, h.iterations⟩
    | loop active =>
      obtain ⟨-, hl⟩ := Option.ite_none_right_eq_some.mp hl
      exact h.loop hl

theorem step_loop {active : List ActiveChannel} {l : EventLoop α} (hfunc : s.threadFunc = .loop)
    (hcall : s.loop.call s.loop.threadId = none) (hl : s.loop.loop active = some l) :
    s.step (.eventLoop (.loop active)) = some { s with loop := l } := by
  simp only [EventLoopThread.step, runs, hfunc, decide_true, if_true, EventLoop.step, hcall, hl,
    Option.map_some]

theorem clears_entered (hfunc : s.threadFunc = .loop)
    (hcall : s.loop.call s.loop.threadId = none) (hphase : s.loop.phase = .entered) :
    ∃ s', s.step (.eventLoop (.loop [])) = some s' ∧ s'.loop.quit = false := by
  have hl : s.loop.loop [] = some { s.loop with quit := false, phase := .test } := by
    rw [EventLoop.loop, hphase]
  exact ⟨_, step_loop hfunc hcall hl, rfl⟩

/-- Before the initialisation the loop's thread is on its way to it. -/
theorem Inv.clears (h : Inv tid s) (hfunc : s.threadFunc = .loop)
    (hinit : s.loop.phase.initialised = false) :
    ∃ js s', Run.run EventLoopThread.step s js = some s' ∧ s'.loop.quit = false := by
  have hcall := h.idle hfunc hinit
  rw [← h.threadId] at hcall
  cases hphase : s.loop.phase with
  | entered =>
    obtain ⟨s₁, hs₁, hquit⟩ := clears_entered hfunc hcall hphase
    exact ⟨[.eventLoop (.loop [])], s₁, Run.run_cons.mpr ⟨s₁, hs₁, rfl⟩, hquit⟩
  | outside =>
    have hl : s.loop.loop [] = some { s.loop with looping := true, phase := .entered } := by
      rw [EventLoop.loop, hphase]
    have hstep := step_loop hfunc hcall hl
    obtain ⟨s₂, hs₂, hquit⟩ := clears_entered (s := { s with
      loop := { s.loop with looping := true, phase := .entered } }) hfunc hcall rfl
    exact ⟨[.eventLoop (.loop []), .eventLoop (.loop [])], s₂,
      Run.run_cons.mpr ⟨_, hstep, Run.run_cons.mpr ⟨s₂, hs₂, rfl⟩⟩, hquit⟩
  | test | poll | handle | callback | calling | functors | functor | returned =>
    rw [hphase] at hinit
    cases hinit

/-- **When a quit request is kept.** In every run, a call of `quit()` by another thread is never
lost (`quit_` stays set, and the body of the loop is not entered again) exactly if `loop()` has cleared
`quit_` before. -/
theorem quit_kept_iff (tid : ThreadId) (is : List (ThreadInput α)) (s s' : EventLoopThread α)
    (h : Run.run step (new tid) is = some s) (t : ThreadId) (ht : t ≠ tid)
    (hquit : s.step (.eventLoop (.quit t)) = some s') :
    (∀ js s'', Run.run step s' js = some s'' →
      s''.loop.quit = true ∧ s''.loop.iterations = s'.loop.iterations) ↔
    s.loop.phase.initialised = true := by
  have hinv : Inv tid s := Run.run_invariant' (fun _ _ _ hinv hs => hinv.step hs) (inv_new tid) h
  have hinv' := hinv.step hquit
  obtain ⟨hruns, l, hl, rfl⟩ := eventLoop_some hquit
  obtain ⟨-, hl⟩ := Option.ite_none_right_eq_some.mp hl
  cases hl
  constructor
  · intro hkept
    by_contra hinit
    have hne : t ≠ s.loop.threadId := by rwa [hinv.threadId]
    have hfunc := ((mayCall_of_ne hne).mp hruns).1
    obtain ⟨js, s'', hjs, hfalse⟩ := hinv'.clears hfunc (Bool.eq_false_iff.mpr hinit)
    cases hfalse.symm.trans (hkept js s'' hjs).1
  · intro hinit js s'' hjs
    have hquitting : Quitting s.loop.iterations { s with loop := s.loop.setQuit t } :=
      ⟨rfl, hinit, rfl⟩
    have hquitting' := Run.run_invariant' (fun _ _ _ hq hs => hq.step hs) hquitting hjs
    exact ⟨hquitting'.quit, hquitting'.iterations⟩

/-- A request during the first wait. -/
theorem quit_kept_iff_polling : ∃ s s',
    Run.run step (new 1 : EventLoopThread Nat) [.startLoop, .publish, .startLoopReturns,
      .eventLoop (.loop []), .eventLoop (.loop []), .eventLoop (.loop [])] = some s ∧
    s.step (.eventLoop (.quit 7)) = some s' ∧
    ∀ js s'', Run.run step s' js = some s'' →
      s''.loop.quit = true ∧ s''.loop.iterations = s'.loop.iterations :=
  ⟨_, _, rfl, rfl, (quit_kept_iff 1 [.startLoop, .publish, .startLoopReturns,
    .eventLoop (.loop []), .eventLoop (.loop []), .eventLoop (.loop [])] _ _ rfl 7 (by decide)
    rfl).mpr rfl⟩

/-- A request that comes right after `startLoop()`: the loop clears it, spends the wakeup on its first
round, and waits again. -/
theorem quit_lost : ∃ s s' s'',
    Run.run step (new 1 : EventLoopThread Nat) [.startLoop, .publish, .startLoopReturns] = some s ∧
    s.step (.eventLoop (.quit 7)) = some s' ∧ s'.loop.quit = true ∧
    Run.run step s' [.eventLoop (.wakeup 7), .eventLoop (.loop []), .eventLoop (.loop []),
      .eventLoop (.loop []), .eventLoop (.loop [.wakeupChannel]), .eventLoop (.loop []),
      .eventLoop (.loop []), .eventLoop (.loop []), .eventLoop (.loop []),
      .eventLoop (.loop [])] = some s'' ∧
    s''.loop.quit = false ∧ s''.loop.phase = .poll ∧ s''.loop.iterations = 2 ∧
    s''.loop.wakeupFd = 0 ∧ s''.loop.pendingFunctors = [] :=
  ⟨_, _, _, rfl, rfl, rfl, rfl, rfl, rfl, rfl, rfl, rfl⟩

end EventLoopThread

end MuduoX.Loop
