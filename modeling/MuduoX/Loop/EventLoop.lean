import MuduoX.Theory.Run

/-! `EventLoop` (`include/EventLoop.h`, `src/EventLoop.cpp`) as the threads of the process see it: the
queue of functors, the eventfd that ends a wait, and the rounds of `loop()`.

A step is a locked region, a read or a write of an atomic flag, a system call, or the call or the
return of a user's callback. What user code does while it runs is free: any thread may be in the
middle of one `queueInLoop` or `quit` at any time, and the loop's own thread wherever a callback or a
functor has been called and has not returned. A functor is only a name here. -/

namespace MuduoX

abbrev ThreadId := Nat

namespace Loop

/-- `activeChannels_` tells the wakeup channel from the others, whose callbacks are user code. -/
inductive ActiveChannel where
  | wakeupChannel
  | channel
  deriving DecidableEq, Repr

/-- Where the loop's thread is. -/
inductive Phase (α : Type*) where
  /-- before `loop()` -/
  | outside
  /-- `looping_` is set, `quit_` is not cleared yet -/
  | entered
  /-- before `while(!quit_)` -/
  | test
  /-- entering `poller_->poll`, or blocked there -/
  | poll
  /-- in the loop over `activeChannels_`, with those that are left -/
  | handle (rest : List ActiveChannel)
  /-- in a callback of a channel -/
  | callback (rest : List ActiveChannel)
  /-- in `doPendingFunctors`, before the locked region -/
  | calling
  /-- in the loop over `functors`, with those that are left -/
  | functors (rest : List α)
  /-- in a functor -/
  | functor (rest : List α)
  /-- behind `loop()` -/
  | returned
  deriving DecidableEq, Repr

/-- What a thread still has to do of a call: the functor is in the queue, or `quit_` is set, and
what follows is the wakeup. -/
inductive Call where
  | queued
  | quitting
  deriving DecidableEq, Repr

structure EventLoop (α : Type*) where
  threadId : ThreadId
  looping : Bool
  quit : Bool
  callingPendingFunctors : Bool
  pendingFunctors : List α
  /-- The counter of the eventfd. -/
  wakeupFd : Nat
  phase : Phase α
  /-- The call that a thread is in. -/
  call : ThreadId → Option Call
  /-- ghost: the functors that have been called -/
  executed : List α
  /-- ghost: how often the body of the loop has been entered -/
  iterations : Nat

/-- What a thread does next: a call, the rest of its call, or a step of `loop()`. Only `poll` looks at
`active`, the channels that it returns. -/
inductive Input (α : Type*) where
  | queueInLoop (tid : ThreadId) (cb : α)
  | quit (tid : ThreadId)
  | wakeup (tid : ThreadId)
  | loop (active : List ActiveChannel)
  deriving DecidableEq, Repr

variable {α : Type*}

/-- User code is running on the loop's thread. -/
def Phase.inUserCode : Phase α → Bool
  | .outside | .callback _ | .functor _ | .returned => true
  | _ => false

namespace EventLoop

def new (tid : ThreadId) : EventLoop α where
  threadId := tid
  looping := false
  quit := false
  callingPendingFunctors := false
  pendingFunctors := []
  wakeupFd := 0
  phase := .outside
  call _ := none
  executed := []
  iterations := 0

def isInLoopThread (tid : ThreadId) (s : EventLoop α) : Bool := s.threadId = tid

/-- A write of 1. It fails when the counter is at its maximum. -/
def wakeup (s : EventLoop α) : EventLoop α :=
  { s with wakeupFd := if s.wakeupFd < 2 ^ 64 - 2 then s.wakeupFd + 1 else s.wakeupFd }

/-- A read of the counter. It fails when the counter is 0. -/
def handleRead (s : EventLoop α) : EventLoop α := { s with wakeupFd := 0 }

/-- The thread may begin a call. -/
def mayCall (tid : ThreadId) (s : EventLoop α) : Bool :=
  s.call tid = none ∧ (s.isInLoopThread tid → s.phase.inUserCode)

def setCall (tid : ThreadId) (c : Option Call) (s : EventLoop α) : EventLoop α :=
  { s with call := Function.update s.call tid c }

/-- `queueInLoop(cb)` up to the end of its locked region. -/
def queueInLoop (tid : ThreadId) (cb : α) (s : EventLoop α) : EventLoop α :=
  { s with pendingFunctors := s.pendingFunctors ++ [cb] }.setCall tid (some .queued)

/-- The write of `quit_`. -/
def setQuit (tid : ThreadId) (s : EventLoop α) : EventLoop α :=
  { s with quit := true }.setCall tid (some .quitting)

/-- The rest of a call. -/
def finish (tid : ThreadId) (c : Call) (s : EventLoop α) : EventLoop α :=
  if ¬s.isInLoopThread tid ∨ (c = .queued ∧ s.callingPendingFunctors) then
    s.wakeup.setCall tid none
  else s.setCall tid none

/-- The next step of `loop()`. -/
def loop (active : List ActiveChannel) (s : EventLoop α) : Option (EventLoop α) :=
  match s.phase with
  | .outside => some { s with looping := true, phase := .entered }
  | .entered => some { s with quit := false, phase := .test }
  | .test =>
    if s.quit then some { s with looping := false, phase := .returned }
    else some { s with phase := .poll, iterations := s.iterations + 1 }
  | .poll =>
    if .wakeupChannel ∈ active ∧ s.wakeupFd = 0 then none
    else some { s with phase := .handle active }
  | .handle [] => some { s with callingPendingFunctors := true, phase := .calling }
  | .handle (.wakeupChannel :: rest) => some { s.handleRead with phase := .handle rest }
  | .handle (.channel :: rest) => some { s with phase := .callback rest }
  | .callback rest => some { s with phase := .handle rest }
  | .calling => some { s with pendingFunctors := [], phase := .functors s.pendingFunctors }
  | .functors [] => some { s with callingPendingFunctors := false, phase := .test }
  | .functors (f :: rest) => some { s with executed := s.executed ++ [f], phase := .functor rest }
  | .functor rest => some { s with phase := .functors rest }
  | .returned => none

def step (s : EventLoop α) : Input α → Option (EventLoop α)
  | .queueInLoop tid cb => if s.mayCall tid then some (s.queueInLoop tid cb) else none
  | .quit tid => if s.mayCall tid then some (s.setQuit tid) else none
  | .wakeup tid => (s.call tid).map fun c => s.finish tid c
  | .loop active => if s.call s.threadId = none then s.loop active else none

/-! ### Lemmas -/

variable {s s' : EventLoop α} {i : Input α} {tid : ThreadId} {active : List ActiveChannel}

@[simp] theorem setCall_self (c : Option Call) : (s.setCall tid c).call tid = c :=
  Function.update_self ..

theorem setCall_of_ne {t : ThreadId} (h : t ≠ tid) (c : Option Call) :
    (s.setCall tid c).call t = s.call t :=
  Function.update_of_ne h ..

theorem mayCall_iff : s.mayCall tid ↔
    s.call tid = none ∧ (tid = s.threadId → s.phase.inUserCode = true) := by
  rw [eq_comm (a := tid)]
  simp only [mayCall, isInLoopThread, decide_eq_true_eq]

/-- A write leaves the counter nonzero, also one that fails. -/
theorem wakeup_wakeupFd (s : EventLoop α) : s.wakeup.wakeupFd ≠ 0 := by
  simp only [wakeup]
  split <;> omega

/-- The end of a call writes to the eventfd or leaves it alone. -/
theorem finish_eq (s : EventLoop α) (tid : ThreadId) (c : Call) :
    ∃ n, s.finish tid c = { s with wakeupFd := n }.setCall tid none ∧
      (n ≠ 0 ∨ n = s.wakeupFd ∧ tid = s.threadId ∧
        (c = .queued → s.callingPendingFunctors = false)) := by
  rw [finish]
  split
  · exact ⟨_, rfl, .inl s.wakeup_wakeupFd⟩
  · rename_i hskip
    refine ⟨_, rfl, .inr ⟨rfl, ?_, fun hc => ?_⟩⟩
    · by_contra hne
      exact hskip (.inl (by simpa [isInLoopThread, eq_comm] using hne))
    · rw [Bool.eq_false_iff]
      exact fun hflag => hskip (.inr ⟨hc, hflag⟩)

theorem loop_call (hs : s.loop active = some s') :
    s'.call = s.call ∧ s'.threadId = s.threadId := by
  rw [loop] at hs
  split at hs
  case h_3 => split at hs <;> cases hs <;> exact ⟨rfl, rfl⟩
  case h_4 =>
    split at hs <;> cases hs
    exact ⟨rfl, rfl⟩
  case h_13 => cases hs
  all_goals
    cases hs
    exact ⟨rfl, rfl⟩

theorem step_threadId (hs : s.step i = some s') : s'.threadId = s.threadId := by
  cases i with
  | queueInLoop tid cb =>
    obtain ⟨-, hs⟩ := Option.ite_none_right_eq_some.mp hs
    cases hs
    rfl
  | quit tid =>
    obtain ⟨-, hs⟩ := Option.ite_none_right_eq_some.mp hs
    cases hs
    rfl
  | wakeup tid =>
    obtain ⟨c, -, rfl⟩ := Option.map_eq_some_iff.mp hs
    obtain ⟨n, hn, -⟩ := s.finish_eq tid c
    rw [hn]
    rfl
  | loop active =>
    obtain ⟨-, hs⟩ := Option.ite_none_right_eq_some.mp hs
    exact (loop_call hs).2

end EventLoop

end Loop

end MuduoX
