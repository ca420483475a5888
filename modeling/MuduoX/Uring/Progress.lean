import MuduoX.Uring.Matching

/-! # Something is in flight

Only the end of a completion takes up what is parked, and only a later submission takes up what an
`io_uring_submit` has left behind. So the requests that wait are taken up as long as something is in
flight, and stay where they are when nothing is. -/

namespace MuduoX.Uring

namespace Ring

variable {r : Ring} {ret : Int} {memory : IOVecPtr → Option (List IOVec)}

theorem submit_of_nonpos (h : ret ≤ 0) : r.submit memory ret = r := by
  rw [submit, Int.toNat_of_nonpos h, List.drop_zero, List.take_zero, List.map_nil, List.append_nil]

theorem taken_submit_push {sqe : SQE} (h : 0 < ret) :
    ((r.push sqe).submit memory ret).taken ≠ [] := by
  have hpos : ret.toNat ≠ 0 := by omega
  simp [taken, submit, push, List.take_eq_nil_iff, hpos]

end Ring

namespace UringManager

variable {s s' : UringManager} {a : Answers} {ctx : IOContext} {i : Input}

/-- Nothing waits unless something is in flight. -/
def Driven (s : UringManager) : Prop :=
  s.ring.taken = [] → s.ring.sq = [] ∧ s.pendingIOs = []

/-- liburing gives out an entry while the submission queue has room. -/
def NullWhenFull : Except Fault UringManager → Input → Prop
  | .ok s, .asyncRW _ _ a | .ok s, .functor a =>
    a.null = true → s.ring.sq.length = URING_ENTRYS
  | .ok s, .callbackReturns a =>
    s.pendingIOs ≠ [] → a.null = true → s.ring.sq.length = URING_ENTRYS
  | _, _ => True

/-- A submission takes an entry, unless something else is in flight. When the last completion in flight
has been handled, nothing is left in the submission queue, or a parked request is submitted. -/
def Drives : Except Fault UringManager → Input → Prop
  | .ok s, .asyncRW _ _ a | .ok s, .functor a =>
    a.null = false → a.ret ≤ 0 → s.ring.taken ≠ []
  | .ok s, .callbackReturns a =>
    s.ring.seen.taken = [] → (s.pendingIOs = [] → s.ring.sq = []) ∧
      (s.pendingIOs ≠ [] → a.null = false ∧ 0 < a.ret)
  | _, _ => True

/-- Behind `appendIOContext` something waits. -/
theorem driven_append (hs : s.appendIOContext ctx a = some s') :
    s'.Driven ↔ s.ring.taken ≠ [] ∨ (a.null = false ∧ 0 < a.ret) := by
  obtain ⟨hnull, rfl⟩ | ⟨hnull, -, -, rfl⟩ := appendIOContext_some hs
  · simp [Driven, hnull]
  · obtain hret | hret := lt_or_ge 0 a.ret
    · refine iff_of_true (fun hnil => ?_) (.inr ⟨hnull, hret⟩)
      exact absurd hnil (Ring.taken_submit_push hret)
    · have hnot : ¬0 < a.ret := not_lt.mpr hret
      simp only [Driven, emplace, Ring.submit_of_nonpos hret, hnull, hnot, and_false, or_false]
      simp [Ring.push, Ring.taken]

theorem driven_append_iff (hs : s.appendIOContext ctx a = some s') (h : s.Driven)
    (hnull : a.null = true → s.ring.sq.length = URING_ENTRYS) :
    s'.Driven ↔ (a.null = false → a.ret ≤ 0 → s.ring.taken ≠ []) := by
  rw [driven_append hs]
  constructor
  · rintro (htaken | ⟨-, hret⟩) _ hle
    · exact htaken
    · exact absurd hret (not_lt.mpr hle)
  · intro hdrives
    cases hn : a.null with
    | true =>
      refine .inl fun hnil => ?_
      have hfull := hnull hn
      rw [(h hnil).1] at hfull
      cases hfull
    | false =>
      obtain hret | hret := lt_or_ge 0 a.ret
      · exact .inr ⟨rfl, hret⟩
      · exact .inl (hdrives hn hret)

theorem driven_finish {c : CQE} (hs : s.finish c a = some s') :
    s'.Driven ↔ (s.ring.seen.taken = [] → (s.pendingIOs = [] → s.ring.sq = []) ∧
      (s.pendingIOs ≠ [] → a.null = false ∧ 0 < a.ret)) := by
  rw [finish] at hs
  cases hpending : s.pendingIOs with
  | nil =>
    rw [hpending] at hs
    cases hs
    simp [Driven, Ring.seen]
  | cons nextCtx rest =>
    rw [hpending] at hs
    rw [driven_append hs]
    simp only [reduceCtorEq, false_implies, true_and, ne_eq, not_false_eq_true, true_implies]
    exact Decidable.imp_iff_not_or.symm

theorem driven_complete {sqe : Transfer} (hsqe : sqe ∈ s.ring.inFlight) (res : Int) :
    { s with ring := s.ring.complete sqe res }.Driven ↔ s.Driven := by
  have hnil : (s.ring.complete sqe res).taken = [] ↔ s.ring.taken = [] := by
    rw [← List.length_eq_zero_iff, (Ring.complete_taken res hsqe).length_eq,
      List.length_eq_zero_iff]
  simp only [Driven, hnil]
  rfl

/-- A step keeps the requests driven exactly if it meets the condition. -/
theorem Driven.step (h : s.Driven) (hnull : NullWhenFull (.ok s) i)
    (hs : step (.ok s) i = some (.ok s')) : s'.Driven ↔ Drives (.ok s) i := by
  cases i with
  | asyncRW fd rwOp a =>
    rw [UringManager.step] at hs
    split at hs
    · cases hs
    · obtain ⟨t, ht, hs⟩ := Option.map_eq_some_iff.mp hs
      cases hs
      have happend := driven_append_iff ht
      exact happend h hnull
  | queueInLoop fd rwOp =>
    cases hs
    exact iff_of_true h trivial
  | functor a =>
    rw [UringManager.step] at hs
    split at hs
    · obtain ⟨t, ht, hs⟩ := Option.map_eq_some_iff.mp hs
      cases hs
      have happend := driven_append_iff ht
      exact happend h hnull
    · cases hs
  | doPendingFunctorsReturns =>
    obtain ⟨-, hs⟩ := Option.ite_none_right_eq_some.mp hs
    cases hs
    exact iff_of_true h trivial
  | complete sqe res =>
    obtain ⟨hsqe, hs⟩ := Option.ite_none_right_eq_some.mp hs
    cases hs
    exact iff_of_true ((driven_complete hsqe res).mpr h) trivial
  | handEventRead =>
    obtain ⟨-, hs⟩ := Option.ite_none_right_eq_some.mp hs
    cases hs
    exact iff_of_true h trivial
  | peek fails =>
    obtain ⟨-, hs⟩ := Option.ite_none_right_eq_some.mp hs
    refine iff_of_true ?_ trivial
    split at hs
    · cases hs
      exact h
    · cases fails with
      | true =>
        cases hs
        exact h
      | false =>
        -- a callback is called: the ring does not change
        have hcall := Option.some.inj hs
        rw [if_neg Bool.false_ne_true, runCallback] at hcall
        split at hcall <;> cases hcall
        exact h
  | callbackReturns a =>
    rw [UringManager.step] at hs
    split at hs
    · obtain ⟨t, ht, hs⟩ := Option.map_eq_some_iff.mp hs
      cases hs
      exact driven_finish ht
    · cases hs

theorem Inv.mem_accepted (h : Inv [] s) {r : Nat} (hr : r ∈ s.submitted) : r ∈ s.accepted := by
  have hcount := h.count r
  have hpos := List.count_pos_iff.mpr hr
  rw [List.count_nil] at hcount
  by_cases hrunning : r ∈ s.running
  · have hcalled := List.count_pos_iff.mpr (h.running r hrunning)
    have hle := h.running_le r
    exact List.count_pos_iff.mp (by omega)
  · rw [List.count_eq_zero.mpr hrunning] at hcount
    exact List.count_pos_iff.mp (by omega)

/-- **When no read is stranded.** In every run in which liburing gives out an entry while there is
room, no request is in flight while 2³² later ones are submitted, and every step meets the condition:
if the callback of some accepted request has not been called, some accepted request has been taken by
the kernel and its completion has not been handled. -/
theorem driven_of_run (is : List Input) (r : Except Fault UringManager)
    (hr : Run.run step (.ok new) is = some r) (hnull : Run.Along step NullWhenFull (.ok new) is)
    (hwithin : Run.Along step Within (.ok new) is) (hdrives : Run.Along step Drives (.ok new) is) :
    ∃ s, r = .ok s ∧ ∀ q ∈ s.accepted, q ∉ s.calls.map (fun c => c.ctx.request) →
      ∃ t ∈ s.ring.inFlight ++ s.ring.cq.map CQE.sqe, t.ctx.request ∈ s.accepted := by
  have hnew : new.Driven := fun _ => ⟨rfl, rfl⟩
  obtain ⟨s, rfl, hinv, hdriven⟩ := Run.run_invariant
    (I := fun r => ∃ s, r = Except.ok s ∧ Inv [] s ∧ s.Driven) (fun _ _ _ hI hG hs => by
      obtain ⟨s, rfl, hinv, hdriven⟩ := hI
      obtain ⟨s', rfl, hinv'⟩ := hinv.step hG.2.1 hs
      exact ⟨s', rfl, hinv', (hdriven.step hG.1 hs).mpr hG.2.2⟩)
    ⟨new, rfl, inv_new, hnew⟩ (hnull.and (hwithin.and hdrives)) hr
  refine ⟨s, rfl, fun q hq hnot => ?_⟩
  have hone := hinv.submitted_add_parked hq hnot
  have hne : s.ring.taken ≠ [] := by
    intro hnil
    obtain ⟨hsq, hpending⟩ := hdriven hnil
    rw [submitted, parked, Ring.outstanding, hsq, hnil, hpending] at hone
    cases hone
  obtain ⟨t, ht⟩ := List.exists_mem_of_ne_nil _ hne
  exact ⟨t, ht, hinv.mem_accepted (List.mem_map_of_mem (Ring.toSQE_mem_outstanding ht))⟩

/-- A read that is submitted. -/
theorem driven_of_run_submitted : ∃ (io : RWOperation) (s : UringManager),
    Run.run step (.ok new) [.asyncRW 3 io ⟨false, 1, 64⟩] = some (.ok s) ∧ s.accepted = [0] ∧
    ∀ q ∈ s.accepted, q ∉ s.calls.map (fun c => c.ctx.request) →
      ∃ t ∈ s.ring.inFlight ++ s.ring.cq.map CQE.sqe, t.ctx.request ∈ s.accepted := by
  obtain ⟨s, hs, haccepted⟩ : ∃ s, Run.run step (.ok new)
      [.asyncRW 3 ⟨.READ, 0, [⟨4096, 16⟩]⟩ ⟨false, 1, 64⟩] = some (.ok s) ∧ s.accepted = [0] :=
    ⟨_, rfl, rfl⟩
  obtain ⟨s', heq, hdriven⟩ := driven_of_run _ _ hs ⟨nofun, fun _ _ => trivial⟩
    ⟨fun _ _ ht => absurd ht List.not_mem_nil, fun _ _ => trivial⟩
    ⟨fun _ hle => absurd hle (by decide), fun _ _ => trivial⟩
  cases heq
  exact ⟨_, s, hs, haccepted, hdriven⟩

set_option maxRecDepth 8000 in
/-- A first read whose submission fails, and one whose submission fails while another is in flight that
then completes: it stays in the submission queue. -/
theorem not_driven :
    (∃ (io : RWOperation) (s : UringManager),
      Run.run step (.ok new) [.asyncRW 3 io ⟨false, -11, 64⟩] = some (.ok s) ∧
      s.accepted = [0] ∧ s.calls = [] ∧ s.ring.inFlight = [] ∧ s.ring.cq = []) ∧
    ∃ (io : RWOperation) (s : UringManager),
      Run.run step (.ok new) [.asyncRW 3 io ⟨false, 1, 64⟩, .asyncRW 3 io ⟨false, -11, 64⟩,
        .complete ⟨prep ⟨0, 3, io⟩ 64 0, some io.iovec⟩ 16, .handEventRead, .peek false,
        .callbackReturns ⟨false, 0, 64⟩,
        .peek false] = some (.ok s) ∧
      s.accepted = [0, 1] ∧ (s.calls.map fun c => c.ctx.request) = [0] ∧ s.phase = .idle ∧
      s.functors = [] ∧ s.ring.inFlight = [] ∧ s.ring.cq = [] :=
  ⟨⟨⟨.READ, 0, [⟨4096, 16⟩]⟩, _, rfl, rfl, rfl, rfl, rfl⟩,
    ⟨.READ, 0, [⟨4096, 16⟩]⟩, _, rfl, rfl, rfl, rfl, rfl, rfl, rfl⟩

end UringManager

end MuduoX.Uring
