import Mathlib.Algebra.BigOperators.Group.Finset.Basic
import MuduoX.Net.TcpConnection

/-! # `TcpConnection::sendFileInLoop`

What `::sendfile` has not copied is left to another `sendFileInLoop`, which `runInLoop` calls at once,
as it is on the loop's thread already: the calls are nested, and nothing else runs on that thread
before the first of them returns. Only that thread changes the channel and the output buffer or
disconnects, so each of the calls finds the connection as the first one did.

`sendInLoop` leaves such a rest in the output buffer, for `handleWrite`. -/

namespace MuduoX

/-- What a call does to the outside. -/
inductive SendFileEvent where
  /-- A `::sendfile` from `off`, with the number of the bytes it has copied. -/
  | sendfile (off : Int) (nwrote : Nat)
  /-- `writeCompleteCallback_` is queued. -/
  | queueWriteComplete
  deriving DecidableEq

/-- The locals of a call, before its last `if`. -/
structure SendFileLocals where
  off : Int
  remaining : Nat
  faultError : Bool
  events : List SendFileEvent
  deriving DecidableEq

namespace WriteResult

/-- The bytes that there are for a `::sendfile`: of the file, and room in the socket. -/
def bytes : WriteResult → Nat
  | .room n => n
  | .error _ => 0

/-- The error is one that `sendFileInLoop` gives up on. -/
def Fatal (r : WriteResult) : Prop := r = .error .EPIPE ∨ r = .error .ECONNRESET

instance (r : WriteResult) : Decidable r.Fatal := inferInstanceAs (Decidable (_ ∨ _))

end WriteResult

namespace TcpConnection

/-- There is no output to be sent before the file. -/
def Idle (c : TcpConnection) : Prop := ¬c.channel.isWriting ∧ c.outputBuffer.readableBytes = 0

instance (c : TcpConnection) : Decidable c.Idle := inferInstanceAs (Decidable (_ ∧ _))

/-- A call of `sendFileInLoop` up to its last `if`; `callback` says whether
`writeCompleteCallback_` is set. -/
def trySendfile (callback : Bool) (r : WriteResult) (off : Int) (count : Nat)
    (c : TcpConnection) : SendFileLocals :=
  if c.Idle then
    match r with
    | .room n =>
      let nwrote := min n count
      let remaining := count - nwrote
      ⟨off + nwrote, remaining, false, .sendfile off nwrote ::
        if remaining = 0 ∧ callback then [.queueWriteComplete] else []⟩
    | .error e => ⟨off, count, e = .EPIPE ∨ e = .ECONNRESET, [.sendfile off 0]⟩
  else ⟨off, count, false, []⟩

/-- `sendFileInLoop(filefd, off, count)` with at most `fuel` calls, one in the other. The answers
that their `::sendfile` get are `results`, in order. -/
def sendFileInLoop (callback : Bool) (c : TcpConnection) :
    (fuel : Nat) → (results : Nat → WriteResult) → (off : Int) → (count : Nat) →
      Option (List SendFileEvent)
  | 0, _, _, _ => none
  | fuel + 1, results, off, count =>
    if c.state = .kDisconnected then some []
    else
      let a := c.trySendfile callback (results 0) off count
      if ¬a.faultError ∧ a.remaining > 0 then
        (sendFileInLoop callback c fuel (fun i => results (i + 1)) a.off a.remaining).map
          (a.events ++ ·)
      else some a.events

/-- The call returns after finitely many nested calls. -/
def SendFileReturns (callback : Bool) (c : TcpConnection) (results : Nat → WriteResult)
    (off : Int) (count : Nat) : Prop :=
  ∃ fuel, (c.sendFileInLoop callback fuel results off count).isSome

variable {c : TcpConnection} {callback : Bool} {results : Nat → WriteResult} {off : Int}
  {count n : Nat}

theorem trySendfile_of_not_idle {r : WriteResult} (h : ¬c.Idle) :
    c.trySendfile callback r off count = ⟨off, count, false, []⟩ := by
  simp only [trySendfile, if_neg h]

theorem trySendfile_of_idle (callback : Bool) (r : WriteResult) (off : Int) (count : Nat)
    (h : c.Idle) :
    ((c.trySendfile callback r off count).faultError ↔ r.Fatal) ∧
      (c.trySendfile callback r off count).remaining = count - r.bytes := by
  simp only [trySendfile, if_pos h]
  cases r with
  | room n =>
    refine ⟨iff_of_false Bool.false_ne_true ?_, ?_⟩
    · rintro (h | h) <;> cases h
    · change count - min n count = count - n
      omega
  | error e => simp [WriteResult.Fatal, WriteResult.bytes]

/-- A call, in terms of the call it makes. -/
theorem sendFileInLoop_succ (hstate : c.state ≠ .kDisconnected) (fuel : Nat) :
    (c.sendFileInLoop callback (fuel + 1) results off count).isSome ↔
      (c.trySendfile callback (results 0) off count).faultError ∨
        (c.trySendfile callback (results 0) off count).remaining = 0 ∨
        (c.sendFileInLoop callback fuel (fun i => results (i + 1))
          (c.trySendfile callback (results 0) off count).off
          (c.trySendfile callback (results 0) off count).remaining).isSome := by
  rw [sendFileInLoop, if_neg hstate]
  simp only
  split
  · rename_i hagain
    rw [Option.isSome_map, or_iff_right (Bool.not_eq_true _ ▸ hagain.1),
      or_iff_right (Nat.pos_iff_ne_zero.mp hagain.2)]
  · rename_i hend
    refine iff_of_true rfl ?_
    rw [← or_assoc]
    left
    by_contra hnot
    obtain ⟨hfault, hremaining⟩ := not_or.mp hnot
    exact hend ⟨hfault, Nat.pos_of_ne_zero hremaining⟩

/-- With output pending nothing is ever sent, and each call makes another one. -/
theorem not_isSome_of_not_idle (hstate : c.state ≠ .kDisconnected) (hidle : ¬c.Idle)
    (hcount : count ≠ 0) (fuel : Nat) :
    ¬(c.sendFileInLoop callback fuel results off count).isSome := by
  induction fuel generalizing results with
  | zero => exact Bool.false_ne_true
  | succ fuel ih =>
    rw [sendFileInLoop_succ hstate, trySendfile_of_not_idle hidle]
    rintro (h | h | h)
    · cases h
    · exact hcount h
    · exact ih h

/-- The answers up to the `n`th cover the count, or one of them is an error to give up on. -/
def Covers (results : Nat → WriteResult) (count n : Nat) : Prop :=
  (results n).Fatal ∨ count ≤ ∑ i ∈ Finset.range n, (results i).bytes

/-- `Covers` for the rest that a call leaves. -/
theorem covers_succ : Covers results count (n + 1) ↔
    (results (n + 1)).Fatal ∨
      count - (results 0).bytes ≤ ∑ i ∈ Finset.range n, (results (i + 1)).bytes := by
  rw [Covers, Finset.sum_range_succ', Nat.sub_le_iff_le_add]

theorem isSome_of_covers (hstate : c.state ≠ .kDisconnected) (hidle : c.Idle)
    (h : Covers results count n) :
    (c.sendFileInLoop callback (n + 1) results off count).isSome := by
  obtain ⟨hfault, hremaining⟩ := trySendfile_of_idle callback (results 0) off count hidle
  induction n generalizing results off count with
  | zero =>
    rw [sendFileInLoop_succ hstate, hfault, hremaining]
    rcases h with h | h
    · exact .inl h
    · rw [Finset.sum_range_zero, Nat.le_zero] at h
      exact .inr (.inl (by rw [h, Nat.zero_sub]))
  | succ n ih =>
    rw [sendFileInLoop_succ hstate]
    refine .inr (.inr (ih ?_ ?_ ?_))
    · rw [hremaining]
      exact covers_succ.mp h
    · exact (trySendfile_of_idle callback _ _ _ hidle).1
    · exact (trySendfile_of_idle callback _ _ _ hidle).2

theorem covers_of_isSome (hstate : c.state ≠ .kDisconnected) (hidle : c.Idle) {fuel : Nat}
    (h : (c.sendFileInLoop callback fuel results off count).isSome) :
    ∃ n, Covers results count n := by
  induction fuel generalizing results off count with
  | zero => cases h
  | succ fuel ih =>
    obtain ⟨hfault, hremaining⟩ := trySendfile_of_idle callback (results 0) off count hidle
    rw [sendFileInLoop_succ hstate, hfault, hremaining] at h
    rcases h with h | h | h
    · exact ⟨0, .inl h⟩
    · refine ⟨1, .inr ?_⟩
      rw [Finset.sum_range_one]
      omega
    · obtain ⟨n, hn⟩ := ih h
      exact ⟨n + 1, covers_succ.mpr hn⟩

/-- **`sendFileInLoop` returns** if and only if the connection is down, there is nothing to send, or
nothing is pending and the answers of `::sendfile` add up to the count or one of them is an error to
give up on. -/
theorem sendFileReturns_iff (callback : Bool) (c : TcpConnection) (results : Nat → WriteResult)
    (off : Int) (count : Nat) :
    c.SendFileReturns callback results off count ↔
      c.state = .kDisconnected ∨ count = 0 ∨
        (¬c.channel.isWriting ∧ c.outputBuffer.readableBytes = 0) ∧
          ∃ n, (results n = .error .EPIPE ∨ results n = .error .ECONNRESET) ∨
            count ≤ ∑ i ∈ Finset.range n, (results i).bytes := by
  by_cases hstate : c.state = .kDisconnected
  · refine iff_of_true ⟨1, ?_⟩ (.inl hstate)
    rw [sendFileInLoop, if_pos hstate]
    rfl
  rw [or_iff_right hstate]
  by_cases hidle : c.Idle
  · constructor
    · rintro ⟨fuel, h⟩
      exact .inr ⟨hidle, covers_of_isSome hstate hidle h⟩
    · rintro (rfl | ⟨-, n, hn⟩)
      · exact ⟨1, isSome_of_covers hstate hidle (.inr (Nat.zero_le _))⟩
      · exact ⟨n + 1, isSome_of_covers hstate hidle hn⟩
  · constructor
    · rintro ⟨fuel, h⟩
      by_contra hnot
      exact not_isSome_of_not_idle hstate hidle (not_or.mp hnot).1 fuel h
    · rintro (rfl | ⟨h, -⟩)
      · refine ⟨1, ?_⟩
        rw [sendFileInLoop_succ hstate, trySendfile_of_not_idle hidle]
        exact .inr (.inl rfl)
      · exact absurd h hidle

/-- The socket is full, and `sendFileInLoop` calls itself until the stack is used up. -/
theorem not_sendFileReturns : ¬∀ (callback : Bool) (c : TcpConnection)
    (results : Nat → WriteResult) (off : Int) (count : Nat),
    c.SendFileReturns callback results off count := by
  intro h
  obtain ⟨fuel, hfuel⟩ := h false (established 0 0) (fun _ => .error .EWOULDBLOCK) 0 1
  obtain ⟨n, hn⟩ := covers_of_isSome (by decide) (by decide) hfuel
  rcases hn with hn | hn
  · rcases hn with hn | hn <;> cases hn
  · have hnothing : ∑ i ∈ Finset.range n, (WriteResult.error .EWOULDBLOCK).bytes = 0 :=
      Finset.sum_eq_zero fun _ _ => rfl
    exact absurd (hn.trans hnothing.le) (by decide)

end TcpConnection

end MuduoX
