import MuduoX.TimeStamp
import MuduoX.Theory.OrderedSet
import MuduoX.Theory.Run

/-! `TimerQueue`, `Timer`, `TimerId` (`include/TimerQueue.h`, `src/TimerQueue.cpp`, `src/Timer.cpp`)
and the timerfd under them.

A `Timer*` is the address of an object on the heap, which `delete` takes away and `new` may hand
out again. Signed arithmetic that does not fit in 64 bits has no result. Wall clock and monotonic
clock are one clock, and an operation of the loop thread takes no time on it: time passes between
the steps, also between two callbacks of one batch.

A step is a call of `addTimer` or `cancel` (in the loop thread, possibly out of a timer's callback,
or in another one, which queues a functor), a functor, or a part of `handleRead`: what comes before
the callbacks, one callback, `reset`. -/

namespace MuduoX

abbrev Address := Nat

def nullptr : Address := 0
def UINTPTR_MAX : Address := 2 ^ 64 - 1

/-- A `Timer`, without its callback: what a callback does are steps of the loop. -/
structure Timer where
  expiration : Timestamp
  interval : Interval
  sequence : Nat

namespace Timer

/-- `repeat_`. -/
def repeats (t : Timer) : Bool := t.interval.positive

def restart (t : Timer) (now : Timestamp) : Option Timer :=
  if t.repeats then (addTime now t.interval).map fun e => { t with expiration := e }
  else some { t with expiration := 0 }

end Timer

structure TimerId where
  timer : Address
  sequence : Nat
  deriving DecidableEq

/-- `TimerId()`. -/
def TimerId.null : TimerId := ⟨nullptr, 0⟩

abbrev TimerEntry := Timestamp ×ₗ Address
abbrev ActiveTimer := Address ×ₗ Nat

def TimerId.active (id : TimerId) : ActiveTimer := toLex (id.timer, id.sequence)

/-! ### The timerfd -/

/-- The deadline the timerfd is armed with, and the moment of arming. -/
structure Arming where
  deadline : Timestamp
  since : Timestamp
  deriving DecidableEq

structure Timerfd where
  /-- expirations that have not been read -/
  ticks : Nat
  armed : Option Arming
  deriving DecidableEq

structure Timespec where
  tv_sec : Int
  tv_nsec : Int

def howMuchTimeFromNow (when now : Timestamp) : Option Timespec :=
  (int64 (when - now)).map fun microseconds =>
    let microseconds := if microseconds < 100 then 100 else microseconds
    ⟨microseconds / kMicroSecondsPerSecond, microseconds % kMicroSecondsPerSecond * 1000⟩

namespace Timerfd

/-- `timerfd_settime` with a relative value and no interval. -/
def settime (now : Timestamp) (value : Timespec) : Timerfd :=
  ⟨0, some ⟨now + value.tv_sec * kMicroSecondsPerSecond + value.tv_nsec / 1000, now⟩⟩

/-- `readTimerfd`. Without an expiration to read it fails, and is logged. -/
def read (fd : Timerfd) : Timerfd := { fd with ticks := 0 }

/-- What the kernel has done by `now`. -/
def elapse (now : Timestamp) (fd : Timerfd) : Timerfd :=
  match fd.armed with
  | some a => if a.deadline ≤ now then ⟨fd.ticks + 1, none⟩ else fd
  | none => fd

end Timerfd

/-! ### The queue -/

/-- What a thread that is not the loop's leaves in `pendingFunctors_`. -/
inductive TimerFunctor where
  | addTimerInLoop (timer : Address)
  | cancelInLoop (id : TimerId)
  deriving DecidableEq

/-- What is done to a `Timer`; `invalid` is the use of one that is not there. -/
inductive TimerEvent where
  | run (id : TimerId)
  | cancelled (id : TimerId)
  | deleted (id : TimerId)
  | invalid (timer : Address)
  deriving DecidableEq

/-- The locals of `handleRead`: `now`, `expired`, and how much of the range `for` has still to
run. -/
structure Batch where
  now : Timestamp
  expired : List TimerEntry
  todo : List TimerEntry

structure TimerQueue where
  clock : Timestamp
  heap : Address → Option Timer
  /-- `s_numCreated_`, which all queues of the process share -/
  numCreated : Nat
  pendingFunctors : List TimerFunctor
  timerfd : Timerfd
  timers : OrderedSet TimerEntry
  activeTimers : OrderedSet ActiveTimer
  callingExpiredTimers : Bool
  cancelingTimers : OrderedSet ActiveTimer
  batch : Option Batch
  /-- ghost: the timers created, and what has been done to them -/
  created : List TimerId
  log : List TimerEvent

namespace TimerQueue

def new (clock : Timestamp) : TimerQueue where
  clock := clock
  heap _ := none
  numCreated := 0
  pendingFunctors := []
  timerfd := ⟨0, none⟩
  timers := ∅
  activeTimers := ∅
  callingExpiredTimers := false
  cancelingTimers := ∅
  batch := none
  created := []
  log := []

def emit (e : TimerEvent) (s : TimerQueue) : TimerQueue := { s with log := s.log ++ [e] }

/-- What is at an address of the heap from now on. -/
def store (timer : Address) (t : Option Timer) (s : TimerQueue) : TimerQueue :=
  { s with heap := Function.update s.heap timer t }

/-- `delete timer`. -/
def delete (timer : Address) (s : TimerQueue) : TimerQueue :=
  match s.heap timer with
  | none => s.emit (.invalid timer)
  | some t => (s.store timer none).emit (.deleted ⟨timer, t.sequence⟩)

def resetTimerfd (expiration : Timestamp) (s : TimerQueue) : Option TimerQueue :=
  (howMuchTimeFromNow expiration s.clock).map fun value =>
    { s with timerfd := .settime s.clock value }

/-- `insert(timer)`, with the timer that the pointer leads to. -/
def insert (timer : Address) (t : Timer) (s : TimerQueue) : Bool × TimerQueue :=
  let when := t.expiration
  let earliestChanged := match s.timers.begin? with
    | none => true
    | some e => decide (when < (ofLex e).1)
  (earliestChanged, { s with
    timers := s.timers.insert (toLex (when, timer))
    activeTimers := s.activeTimers.insert (toLex (timer, t.sequence)) })

def addTimerInLoop (timer : Address) (s : TimerQueue) : Option TimerQueue :=
  match s.heap timer with
  | none => some (s.emit (.invalid timer))
  | some t =>
    let r := s.insert timer t
    if r.1 then r.2.resetTimerfd t.expiration else some r.2

def cancelInLoop (id : TimerId) (s : TimerQueue) : TimerQueue :=
  let s' :=
    if id.active ∈ s.activeTimers then
      match s.heap id.timer with
      | none => s.emit (.invalid id.timer)
      | some t =>
        let s₁ := { s with timers := s.timers.erase (toLex (t.expiration, id.timer)) }
        let s₂ := s₁.delete id.timer
        { s₂ with activeTimers := s₂.activeTimers.erase id.active }
    else if s.callingExpiredTimers then
      { s with cancelingTimers := s.cancelingTimers.insert id.active }
    else s
  s'.emit (.cancelled id)

/-- The loop of `getExpired`: an expired timer leaves `activeTimers_`. -/
def eraseActive (s : TimerQueue) (e : TimerEntry) : TimerQueue :=
  match s.heap (ofLex e).2 with
  | none => s.emit (.invalid (ofLex e).2)
  | some t => { s with activeTimers := s.activeTimers.erase (toLex ((ofLex e).2, t.sequence)) }

def getExpired (now : Timestamp) (s : TimerQueue) : List TimerEntry × TimerQueue :=
  let sentry : TimerEntry := toLex (now, UINTPTR_MAX)
  let expired := s.timers.below sentry
  (expired, expired.foldl eraseActive { s with timers := s.timers.notBelow sentry })

/-- `handleRead` up to its loop. -/
def beginBatch (s : TimerQueue) : TimerQueue :=
  let now := s.clock
  let r := { s with timerfd := s.timerfd.read }.getExpired now
  { r.2 with
    callingExpiredTimers := true
    cancelingTimers := ∅
    batch := some ⟨now, r.1, r.1⟩ }

/-- `it.second->run()`. -/
def runTimer (timer : Address) (s : TimerQueue) : TimerQueue :=
  match s.heap timer with
  | none => s.emit (.invalid timer)
  | some t => s.emit (.run ⟨timer, t.sequence⟩)

/-- One round of the loop of `reset`. -/
def resetEntry (now : Timestamp) (s : TimerQueue) (e : TimerEntry) : Option TimerQueue :=
  match s.heap (ofLex e).2 with
  | none => some (s.emit (.invalid (ofLex e).2))
  | some t =>
    if t.repeats ∧ toLex ((ofLex e).2, t.sequence) ∉ s.cancelingTimers then
      (t.restart now).map fun t' =>
        ((s.store (ofLex e).2 (some t')).insert (ofLex e).2 t').2
    else some (s.delete (ofLex e).2)

/-- The end of `reset`. -/
def rearm (s : TimerQueue) : Option TimerQueue :=
  let nextExpire : Timestamp := match s.timers.begin? with
    | none => 0
    | some e => (ofLex e).1
  if nextExpire.valid then s.resetTimerfd nextExpire else some s

def reset (expired : List TimerEntry) (now : Timestamp) (s : TimerQueue) : Option TimerQueue :=
  (expired.foldlM (resetEntry now) s).bind rearm

/-- `handleRead` from the end of its loop. -/
def endBatch (b : Batch) (s : TimerQueue) : Option TimerQueue :=
  { s with callingExpiredTimers := false, batch := none }.reset b.expired b.now

/-- `new Timer(cb, when, interval)`, at an address that is free. -/
def create (timer : Address) (when : Timestamp) (interval : Interval) (s : TimerQueue) :
    TimerQueue :=
  { s.store timer (some ⟨when, interval, s.numCreated⟩) with
    numCreated := s.numCreated + 1
    created := s.created ++ [⟨timer, s.numCreated⟩] }

/-- `loop_->runInLoop(f)`. -/
def runInLoop (inLoop : Bool) (f : TimerFunctor) (run : TimerQueue → Option TimerQueue)
    (s : TimerQueue) : Option TimerQueue :=
  if inLoop then run s else some { s with pendingFunctors := s.pendingFunctors ++ [f] }

def addTimer (inLoop : Bool) (timer : Address) (when : Timestamp) (interval : Interval)
    (s : TimerQueue) : Option TimerQueue :=
  (s.create timer when interval).runInLoop inLoop (.addTimerInLoop timer) (addTimerInLoop timer)

def cancel (inLoop : Bool) (id : TimerId) (s : TimerQueue) : Option TimerQueue :=
  s.runInLoop inLoop (.cancelInLoop id) fun s => some (s.cancelInLoop id)

end TimerQueue

/-! ### Steps -/

inductive TimerInput where
  /-- time passes -/
  | elapse (micros : Nat)
  /-- another `TimerQueue` of the process creates a timer -/
  | elsewhere
  | addTimer (inLoop : Bool) (timer : Address) (when : Timestamp) (interval : Interval)
  | cancel (inLoop : Bool) (id : TimerId)
  /-- the loop runs the first of its functors -/
  | doPendingFunctor
  | handleRead
  /-- the next callback of the batch -/
  | callback
  | reset

namespace TimerQueue

/-- The ids that there are: `TimerId()` and what the calls of `addTimer` have returned. -/
def Known (s : TimerQueue) (id : TimerId) : Prop := id = .null ∨ id.sequence < s.numCreated

instance (s : TimerQueue) (id : TimerId) : Decidable (s.Known id) :=
  inferInstanceAs (Decidable (_ ∨ _))

def Free (s : TimerQueue) (timer : Address) : Prop :=
  timer ≠ nullptr ∧ timer < UINTPTR_MAX ∧ (s.heap timer).isNone

instance (s : TimerQueue) (timer : Address) : Decidable (s.Free timer) :=
  inferInstanceAs (Decidable (_ ∧ _ ∧ _))

def runFunctor (s : TimerQueue) : TimerFunctor → Option TimerQueue
  | .addTimerInLoop timer => s.addTimerInLoop timer
  | .cancelInLoop id => some (s.cancelInLoop id)

def step (s : TimerQueue) : TimerInput → Option TimerQueue
  | .elapse micros => some { s with
      clock := s.clock + micros, timerfd := s.timerfd.elapse (s.clock + micros) }
  | .elsewhere => some { s with numCreated := s.numCreated + 1 }
  | .addTimer inLoop timer when interval =>
    if s.Free timer then s.addTimer inLoop timer when interval else none
  | .cancel inLoop id => if s.Known id then s.cancel inLoop id else none
  | .doPendingFunctor =>
    match s.batch, s.pendingFunctors with
    | none, f :: fs => { s with pendingFunctors := fs }.runFunctor f
    | _, _ => none
  | .handleRead =>
    match s.batch with
    | none => some s.beginBatch
    | some _ => none
  | .callback =>
    match s.batch with
    | some ⟨now, expired, e :: es⟩ =>
      some ({ s with batch := some ⟨now, expired, es⟩ }.runTimer (ofLex e).2)
    | _ => none
  | .reset =>
    match s.batch with
    | some ⟨now, expired, []⟩ => s.endBatch ⟨now, expired, []⟩
    | _ => none

/-! ### What the operations leave alone -/

/-- The parts that only time, other threads and the loop itself change. -/
structure Frame (s s' : TimerQueue) : Prop where
  clock : s'.clock = s.clock
  numCreated : s'.numCreated = s.numCreated
  pendingFunctors : s'.pendingFunctors = s.pendingFunctors
  batch : s'.batch = s.batch
  created : s'.created = s.created

variable {s s' s'' : TimerQueue} {timer : Address} {t : Timer} {e : TimerEntry}
  {es : List TimerEntry} {now : Timestamp} {expiration : Timestamp}

namespace Frame

theorem refl (s : TimerQueue) : Frame s s := ⟨rfl, rfl, rfl, rfl, rfl⟩

theorem trans (h : Frame s s') (h' : Frame s' s'') : Frame s s'' :=
  ⟨h'.clock.trans h.clock, h'.numCreated.trans h.numCreated,
    h'.pendingFunctors.trans h.pendingFunctors, h'.batch.trans h.batch,
    h'.created.trans h.created⟩

theorem emit (s : TimerQueue) (e : TimerEvent) : Frame s (s.emit e) := ⟨rfl, rfl, rfl, rfl, rfl⟩

theorem insert (s : TimerQueue) (timer : Address) (t : Timer) : Frame s (s.insert timer t).2 :=
  ⟨rfl, rfl, rfl, rfl, rfl⟩

theorem delete (s : TimerQueue) (timer : Address) : Frame s (s.delete timer) := by
  rw [TimerQueue.delete]
  split <;> exact ⟨rfl, rfl, rfl, rfl, rfl⟩

theorem resetTimerfd (h : s.resetTimerfd expiration = some s') : Frame s s' := by
  obtain ⟨value, -, rfl⟩ := Option.map_eq_some_iff.mp h
  exact ⟨rfl, rfl, rfl, rfl, rfl⟩

theorem addTimerInLoop (h : s.addTimerInLoop timer = some s') : Frame s s' := by
  rw [TimerQueue.addTimerInLoop] at h
  split at h
  · cases h
    exact emit ..
  · rename_i t _
    extract_lets r at h
    have hr : Frame s r.2 := insert s timer t
    split at h
    · exact hr.trans (resetTimerfd h)
    · cases h
      exact hr

theorem cancelInLoop (s : TimerQueue) (id : TimerId) : Frame s (s.cancelInLoop id) := by
  rw [TimerQueue.cancelInLoop]
  refine Frame.trans ?_ (emit ..)
  split
  · split
    · exact emit ..
    · rename_i t _
      have hd := delete { s with timers := s.timers.erase (toLex (t.expiration, id.timer)) } id.timer
      exact ⟨hd.clock, hd.numCreated, hd.pendingFunctors, hd.batch, hd.created⟩
  · split <;> exact ⟨rfl, rfl, rfl, rfl, rfl⟩

theorem runTimer (s : TimerQueue) (timer : Address) : Frame s (s.runTimer timer) := by
  rw [TimerQueue.runTimer]
  split <;> exact emit ..

theorem eraseActive (s : TimerQueue) (e : TimerEntry) : Frame s (s.eraseActive e) := by
  rw [TimerQueue.eraseActive]
  split <;> exact ⟨rfl, rfl, rfl, rfl, rfl⟩

theorem foldl_eraseActive (es : List TimerEntry) (s : TimerQueue) :
    Frame s (es.foldl TimerQueue.eraseActive s) := by
  induction es generalizing s with
  | nil => exact refl s
  | cons e es ih => exact (eraseActive s e).trans (ih _)

theorem getExpired (s : TimerQueue) (now : Timestamp) : Frame s (s.getExpired now).2 := by
  have h := foldl_eraseActive (s.getExpired now).1
    { s with timers := s.timers.notBelow (toLex (now, UINTPTR_MAX)) }
  exact ⟨h.clock, h.numCreated, h.pendingFunctors, h.batch, h.created⟩

theorem resetEntry (h : s.resetEntry now e = some s') : Frame s s' := by
  rw [TimerQueue.resetEntry] at h
  split at h
  · cases h
    exact emit ..
  split at h
  · obtain ⟨t', -, rfl⟩ := Option.map_eq_some_iff.mp h
    exact ⟨rfl, rfl, rfl, rfl, rfl⟩
  · cases h
    exact delete ..

theorem foldlM_resetEntry (h : es.foldlM (TimerQueue.resetEntry now) s = some s') :
    Frame s s' := by
  induction es generalizing s with
  | nil =>
    cases h
    exact refl _
  | cons e es ih =>
    obtain ⟨s₁, h₁, h⟩ := Option.bind_eq_some_iff.mp h
    exact (resetEntry h₁).trans (ih h)

theorem rearm (h : s.rearm = some s') : Frame s s' := by
  unfold TimerQueue.rearm at h
  extract_lets nextExpire at h
  split at h
  · exact resetTimerfd h
  · cases h
    exact refl _

theorem reset (h : s.reset es now = some s') : Frame s s' := by
  obtain ⟨s₁, h₁, h⟩ := Option.bind_eq_some_iff.mp h
  exact (foldlM_resetEntry h₁).trans (rearm h)

end Frame

end TimerQueue

end MuduoX
