import MuduoX.Bytes
import MuduoX.Theory.Run

/-! `UringManager` (`include/IOuring.h`, `src/IOuring.cpp`), `File::asyncRW`, and what liburing and the
kernel do with the ring.

A step is a call of `asyncRW` on the loop's thread or on another one, a queued functor of
`appendIOContext`, the return of `doPendingFunctors`, a part of `handleCQE` up to or behind a
callback, or a completion by the kernel. While a callback runs, its thread may call `asyncRW` again,
and other threads and the kernel go on.

An entry points to the array of the `ctx` in the functor: what goes to `pendingIOs_` or `activeIOs_`
are copies, since the functor holds its `ctx` as a constant. The array is freed with the functor, when
`runInLoop` returns, or `doPendingFunctors` for a queued one; the kernel reads it when it takes the
entry (`IORING_FEAT_SUBMIT_STABLE`).

The number of an entry and the request that it was made for are ghosts: the kernel sees the prepared
operation and `user_data`. -/

namespace MuduoX

structure IOVec where
  base : Nat
  len : Nat
  deriving DecidableEq, Repr

inductive Operation where
  | READ | WRITE
  deriving DecidableEq, Repr

structure RWOperation where
  op : Operation
  offset : Int
  iovec : List IOVec
  deriving DecidableEq, Repr

/-- A request: the call of `asyncRW`, which stands for its callback, and the operation. -/
structure IOContext where
  request : Nat
  /-- `file_->fd()` -/
  fd : Int
  rwOp : RWOperation
  deriving DecidableEq, Repr

namespace Uring

/-! ### The ring -/

inductive Opcode where
  | readv | writev
  deriving DecidableEq, Repr

/-- The address of an array of `iovec`s. -/
abbrev IOVecPtr := Nat

structure SQE where
  opcode : Opcode
  fd : Int
  iovecs : IOVecPtr
  nrVecs : Nat
  off : Int
  userData : Nat
  /-- ghost: how many entries have been given out before -/
  number : Nat
  /-- ghost: the request that the entry is for -/
  ctx : IOContext
  deriving DecidableEq, Repr

/-- An entry that the kernel has taken, with the `iovec`s that it has found: `none` if the array was
gone, since what is there then is not defined. -/
structure Transfer extends SQE where
  buffers : Option (List IOVec)
  deriving DecidableEq, Repr

structure CQE where
  userData : Nat
  res : Int
  /-- ghost: the entry that it completes -/
  sqe : Transfer
  deriving DecidableEq, Repr

structure Ring where
  /-- The entries that the kernel has not taken, the oldest first. -/
  sq : List SQE
  /-- What the kernel works on. -/
  inFlight : List Transfer
  cq : List CQE
  deriving DecidableEq, Repr

def URING_ENTRYS : Nat := 8

/-- The conversion of a `size_t` to the keys of `activeIOs_`. -/
def toInt (n : Nat) : Int := (n : Int).bmod (2 ^ 32)

/-- `io_uring_prep_readv` or `io_uring_prep_writev`, and `io_uring_sqe_set_data`; the number of the
`iovec`s becomes an `unsigned`. -/
def prep (ctx : IOContext) (rawIov : IOVecPtr) (number : Nat) : SQE where
  opcode := match ctx.rwOp.op with
    | .READ => .readv
    | .WRITE => .writev
  fd := ctx.fd
  iovecs := rawIov
  nrVecs := ctx.rwOp.iovec.length % 2 ^ 32
  off := ctx.rwOp.offset
  userData := number % 2 ^ 64
  number := number
  ctx := ctx

/-- The kernel takes an entry. -/
def SQE.take (memory : IOVecPtr → Option (List IOVec)) (sqe : SQE) : Transfer where
  toSQE := sqe
  buffers := (memory sqe.iovecs).bind fun array =>
    if sqe.nrVecs ≤ array.length then some (array.take sqe.nrVecs) else none

namespace Ring

def empty : Ring := ⟨[], [], []⟩

/-- The entry that `io_uring_get_sqe` has given out is filled. -/
def push (sqe : SQE) (r : Ring) : Ring := { r with sq := r.sq ++ [sqe] }

/-- `io_uring_submit`: its result is the number of the entries taken, or an error and none is. -/
def submit (memory : IOVecPtr → Option (List IOVec)) (ret : Int) (r : Ring) : Ring :=
  { r with
    sq := r.sq.drop ret.toNat
    inFlight := r.inFlight ++ (r.sq.take ret.toNat).map (SQE.take memory) }

/-- The kernel completes an entry. -/
def complete (sqe : Transfer) (res : Int) (r : Ring) : Ring :=
  { r with
    inFlight := r.inFlight.erase sqe
    cq := r.cq ++ [⟨sqe.userData, res, sqe⟩] }

/-- `io_uring_cqe_seen` -/
def seen (r : Ring) : Ring := { r with cq := r.cq.tail }

end Ring

/-! ### The manager -/

/-- The completion loop runs on the thread of the event loop. -/
inductive Phase where
  /-- not in `handleCQE` -/
  | idle
  /-- before `io_uring_peek_cqe` -/
  | handling
  /-- in the callback of the first entry of the completion queue -/
  | callback
  deriving DecidableEq, Repr

/-- A run of a callback: the context, what it gets, and (ghost) what it gets it for. -/
structure Callback where
  ctx : IOContext
  res : Int
  cqe : CQE
  deriving DecidableEq, Repr

structure UringManager where
  ring : Ring
  activeIOs : Int → Option IOContext
  /-- `currentIdx_`, before it is reduced to the width of a `size_t` -/
  currentIdx : Nat
  pendingIOs : List IOContext
  /-- The functors of `appendIOContext` that wait in the loop's queue. -/
  functors : List IOContext
  /-- The arrays of the functors that have run and have not been destroyed. -/
  arrays : IOVecPtr → Option (List IOVec)
  phase : Phase
  /-- ghost: how often `asyncRW` has been called -/
  requests : Nat
  /-- ghost: the requests whose functor has run -/
  accepted : List Nat
  /-- ghost -/
  calls : List Callback

/-- What liburing answers to `io_uring_get_sqe` and `io_uring_submit`, and where the array of the
functor is. -/
structure Answers where
  null : Bool
  ret : Int
  rawIov : IOVecPtr
  deriving DecidableEq, Repr

inductive Input where
  /-- on the loop's thread -/
  | asyncRW (fd : Int) (rwOp : RWOperation) (a : Answers)
  /-- on another thread -/
  | queueInLoop (fd : Int) (rwOp : RWOperation)
  | functor (a : Answers)
  | doPendingFunctorsReturns
  | complete (sqe : Transfer) (res : Int)
  | handEventRead
  | peek (fails : Bool)
  | callbackReturns (a : Answers)

namespace UringManager

def new : UringManager where
  ring := .empty
  activeIOs _ := none
  currentIdx := 0
  pendingIOs := []
  functors := []
  arrays _ := none
  phase := .idle
  requests := 0
  accepted := []
  calls := []

/-- `activeIOs_.emplace`: an entry that is there stays. -/
def emplace (key : Int) (ctx : IOContext) (s : UringManager) : UringManager :=
  { s with activeIOs := fun k =>
      if k = key then some ((s.activeIOs key).getD ctx) else s.activeIOs k }

/-- What the functor of `appendIOContext` does. There is an entry to give out only while the
submission queue has room; the array of the functor is not where another one is. -/
def appendIOContext (ctx : IOContext) (a : Answers) (s : UringManager) : Option UringManager :=
  if s.arrays a.rawIov ≠ none then none
  else if a.null then some { s with pendingIOs := s.pendingIOs ++ [ctx] }
  else if s.ring.sq.length < URING_ENTRYS ∧ a.ret ≤ s.ring.sq.length + 1 then
    let sqe := prep ctx a.rawIov s.currentIdx
    let memory := Function.update s.arrays a.rawIov (some ctx.rwOp.iovec)
    some ({ s with
      ring := (s.ring.push sqe).submit memory a.ret
      currentIdx := s.currentIdx + 1 }.emplace (toInt sqe.userData) ctx)
  else none

/-- The call of `asyncRW` makes a context. -/
def makeContext (fd : Int) (rwOp : RWOperation) (s : UringManager) : IOContext :=
  ⟨s.requests, fd, rwOp⟩

def accept (ctx : IOContext) (s : UringManager) : UringManager :=
  { s with accepted := s.accepted ++ [ctx.request] }

/-- A queued functor is destroyed later. -/
def hold (ctx : IOContext) (a : Answers) (s : UringManager) : UringManager :=
  { s with arrays := Function.update s.arrays a.rawIov (some ctx.rwOp.iovec) }

/-- `activeIOs_.at` throws when there is no such key. -/
def runCallback (cqe : CQE) (s : UringManager) : Except Fault UringManager :=
  match s.activeIOs (toInt cqe.userData) with
  | none => .error .outOfRange
  | some ctx => .ok { s with phase := .callback, calls := s.calls ++ [⟨ctx, cqe.res, cqe⟩] }

/-- The request is done; the oldest parked one is appended. -/
def finish (cqe : CQE) (a : Answers) (s : UringManager) : Option UringManager :=
  let s := { s with
    activeIOs := Function.update s.activeIOs (toInt cqe.userData) none
    ring := s.ring.seen
    phase := .handling }
  match s.pendingIOs with
  | [] => some s
  | nextCtx :: rest => { s with pendingIOs := rest }.appendIOContext nextCtx a

def step : Except Fault UringManager → Input → Option (Except Fault UringManager)
  | .error _, _ => none
  | .ok s, .asyncRW fd rwOp a =>
    if s.phase = .handling then none
    else
      let ctx := s.makeContext fd rwOp
      (({ s with requests := s.requests + 1 }.accept ctx).appendIOContext ctx a).map .ok
  | .ok s, .queueInLoop fd rwOp =>
    some (.ok { s with
      requests := s.requests + 1
      functors := s.functors ++ [s.makeContext fd rwOp] })
  | .ok s, .functor a =>
    match s.phase, s.functors with
    | .idle, ctx :: rest =>
      (({ s with functors := rest }.accept ctx).appendIOContext ctx a).map fun s =>
        .ok (hold ctx a s)
    | _, _ => none
  | .ok s, .doPendingFunctorsReturns =>
    if s.phase = .idle then some (.ok { s with arrays := fun _ => none }) else none
  | .ok s, .complete sqe res =>
    if sqe ∈ s.ring.inFlight then some (.ok { s with ring := s.ring.complete sqe res }) else none
  | .ok s, .handEventRead =>
    if s.phase = .idle then some (.ok { s with phase := .handling }) else none
  | .ok s, .peek fails =>
    if s.phase = .handling then
      match s.ring.cq with
      | [] => some (.ok { s with phase := .idle })
      | cqe :: _ => some (if fails then .ok { s with phase := .idle } else s.runCallback cqe)
    else none
  | .ok s, .callbackReturns a =>
    match s.phase, s.ring.cq with
    | .callback, cqe :: _ => (s.finish cqe a).map .ok
    | _, _ => none

end UringManager

end Uring

end MuduoX
