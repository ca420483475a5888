import MuduoX.Bytes

/-! `Channel` (`include/Channel.h`, `src/Channel.cpp`) and what `EPollPoller`
(`src/EPollPoller.cpp`) does with one.

There is one loop per thread, so a loop and the thread that runs it have one name; the base loop
is 0. A channel belongs to one loop, and every change of its events or callbacks ends in that
loop's poller: `index` says what the poller believes about the channel. The poller's table
`channels_` is left out: only `hasChannel` reads it, and nothing calls `hasChannel`. -/

namespace MuduoX

abbrev LoopId := Nat

def baseLoop : LoopId := 0

/-- `kNew`, `kAdded` and `kDeleted` of `EPollPoller.cpp`. -/
inductive Index where
  | kNew | kAdded | kDeleted
  deriving DecidableEq, Repr

/-- The operation handed to `epoll_ctl`. -/
inductive EpollCtl where
  | add | mod | del
  deriving DecidableEq, Repr

/-- `events_` is the two interests: `kReadEvent` is `EPOLLIN | EPOLLPRI`, `kWriteEvent` is
`EPOLLOUT`. -/
structure Channel where
  loop : LoopId
  reading : Bool
  writing : Bool
  index : Index
  deriving DecidableEq

namespace Channel

/-- `Channel(loop, fd)`. -/
def new (loop : LoopId) : Channel := ⟨loop, false, false, .kNew⟩

def isNoneEvent (ch : Channel) : Bool := !ch.reading && !ch.writing
abbrev isWriting (ch : Channel) : Bool := ch.writing

@[simp] theorem new_loop (loop : LoopId) : (new loop).loop = loop := rfl
@[simp] theorem new_reading (loop : LoopId) : (new loop).reading = false := rfl
@[simp] theorem new_writing (loop : LoopId) : (new loop).writing = false := rfl

end Channel

namespace EPollPoller

/-- `updateChannel`, with the operation that it hands to `epoll_ctl`. -/
def updateChannel (ch : Channel) : Channel × EpollCtl :=
  match ch.index with
  | .kNew | .kDeleted => ({ ch with index := .kAdded }, .add)
  | .kAdded => if ch.isNoneEvent then ({ ch with index := .kDeleted }, .del) else (ch, .mod)

/-- `removeChannel`. -/
def removeChannel (ch : Channel) : Channel × Option EpollCtl :=
  ({ ch with index := .kNew }, if ch.index = .kAdded then some .del else none)

variable (ch : Channel)

@[simp] theorem updateChannel_loop : (updateChannel ch).1.loop = ch.loop := by
  unfold updateChannel; split <;> (try split) <;> rfl

@[simp] theorem updateChannel_reading : (updateChannel ch).1.reading = ch.reading := by
  unfold updateChannel; split <;> (try split) <;> rfl

@[simp] theorem updateChannel_writing : (updateChannel ch).1.writing = ch.writing := by
  unfold updateChannel; split <;> (try split) <;> rfl

@[simp] theorem removeChannel_loop : (removeChannel ch).1.loop = ch.loop := rfl

end EPollPoller

/-- What the poller reports for a channel: `revents_`. -/
structure Revents where
  hup : Bool
  inp : Bool
  pri : Bool
  err : Bool
  out : Bool
  deriving DecidableEq, Repr

end MuduoX
