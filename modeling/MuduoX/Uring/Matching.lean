import MuduoX.Theory.Index
import MuduoX.Uring.UringManager

/-! # Every completion reaches its own request

The keys of `activeIOs_` are the ids of the entries that have been given out and whose completion has
not been handled; a key leads to the request that its entry was made for. A request is parked, or has
an entry, or its callback has been called. -/

namespace MuduoX.Uring

def SQE.key (t : SQE) : Int := toInt t.userData

theorem toInt_emod (n : Nat) : toInt n % (2 ^ 32 : Nat) = n % (2 ^ 32 : Nat) := Int.bmod_emod

theorem mod_eq_of_toInt_eq {m n : Nat} (h : toInt m = toInt n) : m % 2 ^ 32 = n % 2 ^ 32 := by
  have hmod := toInt_emod m
  rw [h, toInt_emod] at hmod
  omega

/-- The keys of two entries are different when there are less than 2³² entries between them. -/
theorem toInt_ne {m n : Nat} (hlt : m < n) (hle : n < m + 2 ^ 32) :
    toInt (m % 2 ^ 64) ≠ toInt (n % 2 ^ 64) := by
  intro heq
  have hmod := mod_eq_of_toInt_eq heq
  omega

theorem prep_number (ctx : IOContext) (p : IOVecPtr) (n : Nat) : (prep ctx p n).number = n := rfl

theorem prep_ctx (ctx : IOContext) (p : IOVecPtr) (n : Nat) : (prep ctx p n).ctx = ctx := rfl

namespace Ring

variable {r : Ring} {t : SQE} {sqe u : Transfer} {n : Nat} {memory : IOVecPtr → Option (List IOVec)}

/-- Taken by the kernel, and the completion not yet handled. -/
def taken (r : Ring) : List Transfer := r.inFlight ++ r.cq.map CQE.sqe

/-- Given out, and the completion not yet handled. -/
def outstanding (r : Ring) : List SQE := r.sq ++ r.taken.map Transfer.toSQE

theorem mem_outstanding : t ∈ r.outstanding ↔ t ∈ r.sq ∨ ∃ u ∈ r.taken, u.toSQE = t := by
  rw [outstanding, List.mem_append, List.mem_map]

theorem toSQE_mem_outstanding (hu : u ∈ r.taken) : u.toSQE ∈ r.outstanding :=
  mem_outstanding.mpr (.inr ⟨u, hu, rfl⟩)

theorem push_outstanding (sqe : SQE) (r : Ring) :
    (r.push sqe).outstanding.Perm (sqe :: r.outstanding) := by
  rw [outstanding, push, List.append_assoc]
  exact List.perm_middle

theorem submit_outstanding (memory : IOVecPtr → Option (List IOVec)) (ret : Int) (r : Ring) :
    (r.submit memory ret).outstanding.Perm r.outstanding := by
  have hsq : r.sq.Perm (r.sq.drop ret.toNat ++ r.sq.take ret.toNat) := by
    conv_lhs => rw [← List.take_append_drop ret.toNat r.sq]
    exact List.perm_append_comm
  have htake : ((r.sq.take ret.toNat).map (SQE.take memory)).map Transfer.toSQE =
      r.sq.take ret.toNat := by
    rw [List.map_map]
    exact List.map_id _
  simp only [outstanding, taken, submit, List.append_assoc, List.map_append, htake]
  refine .trans ?_ (hsq.symm.append_right _)
  rw [List.append_assoc]
  refine List.Perm.append_left _ ?_
  rw [← List.append_assoc, ← List.append_assoc]
  exact List.perm_append_comm.append_right _

/-- What a submission takes, it takes from the submission queue. -/
theorem mem_taken_submit {ret : Int} (hu : u ∈ (r.submit memory ret).taken) :
    u ∈ r.taken ∨ ∃ t ∈ r.sq.take ret.toNat, u = t.take memory := by
  simp only [taken, submit, List.mem_append, List.mem_map] at hu ⊢
  obtain (hu | ⟨t, ht, rfl⟩) | hu := hu
  · exact .inl (.inl hu)
  · exact .inr ⟨t, ht, rfl⟩
  · exact .inl (.inr hu)

theorem complete_taken (res : Int) (h : sqe ∈ r.inFlight) :
    (r.complete sqe res).taken.Perm r.taken := by
  simp only [taken, complete, List.map_append, List.map_cons, List.map_nil]
  rw [← List.append_assoc]
  refine (List.perm_append_singleton ..).trans ?_
  exact (List.perm_cons_erase h).symm.append_right _

theorem complete_outstanding (res : Int) (h : sqe ∈ r.inFlight) :
    (r.complete sqe res).outstanding.Perm r.outstanding :=
  ((complete_taken res h).map _).append_left _

theorem mem_taken_of_seen (hu : u ∈ r.seen.taken) : u ∈ r.taken := by
  obtain hu | hu := List.mem_append.mp hu
  · exact List.mem_append_left _ hu
  · obtain ⟨c, hc, rfl⟩ := List.mem_map.mp hu
    exact List.mem_append_right _ (List.mem_map_of_mem (List.mem_of_mem_tail hc))

theorem seen_outstanding {c : CQE} {cs : List CQE} (h : r.cq = c :: cs) :
    r.outstanding.Perm (c.sqe.toSQE :: r.seen.outstanding) := by
  simp only [outstanding, taken, seen, h, List.map_append, List.map_cons, List.tail_cons,
    ← List.append_assoc]
  exact List.perm_middle

/-- The entries carry their own numbers, the unsubmitted ones are the last that have been given out,
and a completion carries what its entry carries. -/
structure Numbered (n : Nat) (r : Ring) : Prop where
  length_le : r.sq.length ≤ n
  room : r.sq.length ≤ URING_ENTRYS
  sq : r.sq.map SQE.number = List.range' (n - r.sq.length) r.sq.length
  taken : ∀ t ∈ r.taken, t.number < n
  prep : ∀ t ∈ r.outstanding, t = prep t.ctx t.iovecs t.number
  cq : ∀ c ∈ r.cq, c.userData = c.sqe.userData

theorem Numbered.number_lt (h : Numbered n r) (ht : t ∈ r.outstanding) : t.number < n := by
  obtain hsq | ⟨u, htaken, rfl⟩ := mem_outstanding.mp ht
  · have hmem := List.mem_map_of_mem (f := SQE.number) hsq
    rw [h.sq, List.mem_range'_1] at hmem
    have := h.length_le
    omega
  · exact h.taken u htaken

theorem Numbered.push (h : Numbered n r) (hroom : r.sq.length < URING_ENTRYS) (ctx : IOContext)
    (p : IOVecPtr) : Numbered (n + 1) (r.push (Uring.prep ctx p n)) := by
  have hlen := h.length_le
  refine ⟨?_, ?_, ?_, fun t ht => (h.taken t ht).trans (Nat.lt_succ_self n), fun t ht => ?_, h.cq⟩
  · simp only [Ring.push, List.length_append, List.length_singleton]
    omega
  · simp only [Ring.push, List.length_append, List.length_singleton]
    omega
  · simp only [Ring.push, List.map_append, h.sq, List.length_append, List.length_singleton,
      List.map_cons, List.map_nil, Nat.add_sub_add_right, List.range'_1_concat, prep_number,
      Nat.sub_add_cancel hlen]
  · obtain rfl | ht := List.mem_cons.mp ((push_outstanding _ r).mem_iff.mp ht)
    · rfl
    · exact h.prep t ht

theorem Numbered.submit (h : Numbered n r) (memory : IOVecPtr → Option (List IOVec)) (ret : Int) :
    Numbered n (r.submit memory ret) := by
  have hlen := h.length_le
  have hroom := h.room
  refine ⟨?_, ?_, ?_, fun t ht => ?_, fun t ht =>
    h.prep t ((submit_outstanding memory ret r).mem_iff.mp ht), h.cq⟩
  · simp only [Ring.submit, List.length_drop]
    omega
  · simp only [Ring.submit, List.length_drop]
    omega
  · simp only [Ring.submit, List.map_drop, h.sq, List.drop_range', List.length_drop]
    by_cases hall : r.sq.length ≤ ret.toNat
    · simp [Nat.sub_eq_zero_of_le hall]
    · congr 1
      omega
  · exact h.number_lt ((submit_outstanding memory ret r).mem_iff.mp (toSQE_mem_outstanding ht))

theorem Numbered.complete (h : Numbered n r) (hsqe : sqe ∈ r.inFlight) (res : Int) :
    Numbered n (r.complete sqe res) := by
  refine ⟨h.length_le, h.room, h.sq, fun t ht => ?_, fun t ht => ?_, fun c hc => ?_⟩
  · exact h.taken t ((complete_taken res hsqe).mem_iff.mp ht)
  · exact h.prep t ((complete_outstanding res hsqe).mem_iff.mp ht)
  · obtain hc | hc := List.mem_append.mp hc
    · exact h.cq c hc
    · rw [List.mem_singleton.mp hc]

theorem Numbered.seen {c : CQE} {cs : List CQE} (h : Numbered n r) (hcq : r.cq = c :: cs) :
    Numbered n r.seen := by
  have hmem : ∀ t ∈ r.seen.outstanding, t ∈ r.outstanding := fun t ht =>
    (seen_outstanding hcq).mem_iff.mpr (List.mem_cons_of_mem _ ht)
  exact ⟨h.length_le, h.room, h.sq,
    fun t ht => h.number_lt (hmem _ (toSQE_mem_outstanding ht)), fun t ht => h.prep t (hmem t ht),
    fun c hc => h.cq c (List.mem_of_mem_tail hc)⟩

/-- No entry that the kernel has taken is 2³² entries back. -/
def RoomFor (n : Nat) (r : Ring) : Prop := ∀ t ∈ r.taken, n < t.number + 2 ^ 32

instance (n : Nat) (r : Ring) : Decidable (r.RoomFor n) :=
  inferInstanceAs (Decidable (∀ t ∈ r.taken, n < t.number + 2 ^ 32))

/-- Then the key of the next entry is free. -/
theorem Numbered.key_ne (h : Numbered n r) (hroom : r.RoomFor n) (ht : t ∈ r.outstanding)
    (ctx : IOContext) (p : IOVecPtr) : t.key ≠ (Uring.prep ctx p n).key := by
  have hlt := h.number_lt ht
  rw [h.prep t ht]
  refine toInt_ne hlt ?_
  obtain hsq | ⟨u, htaken, rfl⟩ := mem_outstanding.mp ht
  · have hmem := List.mem_map_of_mem (f := SQE.number) hsq
    rw [h.sq, List.mem_range'_1] at hmem
    have hle := h.room
    rw [URING_ENTRYS] at hle
    omega
  · exact hroom u htaken

end Ring

namespace UringManager

variable {s s' : UringManager} {a : Answers} {ctx : IOContext} {moving : List Nat}

/-- The request whose callback is running. -/
def running (s : UringManager) : List Nat :=
  match s.phase, s.ring.cq with
  | .callback, c :: _ => [c.sqe.ctx.request]
  | _, _ => []

/-- The requests whose callbacks have been called. -/
def called (s : UringManager) : List Nat := s.calls.map fun c => c.ctx.request

/-- The requests that have an entry, and those that are parked. -/
def submitted (s : UringManager) : List Nat := s.ring.outstanding.map fun t => t.ctx.request

def parked (s : UringManager) : List Nat := s.pendingIOs.map IOContext.request

/-- Every accepted request has been called, or has an entry, or is parked, or is on its way from one
place to another; the one whose callback is running still has its entry. -/
structure Inv (moving : List Nat) (s : UringManager) : Prop where
  ring : s.ring.Numbered s.currentIdx
  index : Indexes SQE.key SQE.ctx s.ring.outstanding s.activeIOs
  count : ∀ r, s.accepted.count r + s.running.count r =
    s.called.count r + s.submitted.count r + s.parked.count r + moving.count r
  nodup : (s.accepted ++ s.functors.map IOContext.request).Nodup
  lt : ∀ r ∈ s.accepted ++ s.functors.map IOContext.request, r < s.requests
  running : ∀ r ∈ s.running, r ∈ s.called
  cq : s.phase = .callback → s.ring.cq ≠ []
  calls : ∀ c ∈ s.calls, c.ctx = c.cqe.sqe.ctx ∧ c.res = c.cqe.res

theorem inv_new : Inv [] new := by
  have hring : new.ring.Numbered 0 :=
    ⟨Nat.zero_le _, Nat.zero_le _, rfl, fun _ ht => absurd ht List.not_mem_nil,
      fun _ ht => absurd ht List.not_mem_nil, fun _ ht => absurd ht List.not_mem_nil⟩
  exact ⟨hring, .nil, fun _ => rfl, List.nodup_nil, fun _ hr => absurd hr List.not_mem_nil,
    fun _ hr => absurd hr List.not_mem_nil, nofun, fun _ hc => absurd hc List.not_mem_nil⟩

theorem emplace_new {key : Int} (h : s.activeIOs key = none) :
    s.emplace key ctx = { s with activeIOs := Function.update s.activeIOs key (some ctx) } := by
  rw [emplace]
  congr 1
  funext k
  rw [Function.update_apply, h, Option.getD_none]

theorem running_of_ne (h : s.phase ≠ .callback) : s.running = [] := by
  rw [UringManager.running]
  split
  · exact absurd ‹_› h
  · rfl

/-- What the kernel can read while the functor runs. -/
def memory (ctx : IOContext) (a : Answers) (s : UringManager) : IOVecPtr → Option (List IOVec) :=
  Function.update s.arrays a.rawIov (some ctx.rwOp.iovec)

/-- The request is parked, or gets an entry. -/
theorem appendIOContext_some (hs : s.appendIOContext ctx a = some s') :
    (a.null = true ∧ s' = { s with pendingIOs := s.pendingIOs ++ [ctx] }) ∨
    (a.null = false ∧ s.ring.sq.length < URING_ENTRYS ∧ s.arrays a.rawIov = none ∧
      s' = { s with
        ring := (s.ring.push (prep ctx a.rawIov s.currentIdx)).submit (s.memory ctx a) a.ret
        currentIdx := s.currentIdx + 1 }.emplace (prep ctx a.rawIov s.currentIdx).key ctx) := by
  rw [appendIOContext] at hs
  obtain ⟨hfree, hs⟩ := Option.ite_none_left_eq_some.mp hs
  split at hs
  · cases hs
    exact .inl ⟨‹_›, rfl⟩
  · obtain ⟨hsq, hs⟩ := Option.ite_none_right_eq_some.mp hs
    cases hs
    exact .inr ⟨Bool.eq_false_iff.mpr ‹_›, hsq.1, not_not.mp hfree, rfl⟩

theorem Inv.appendIOContext (h : Inv [ctx.request] s) (hs : s.appendIOContext ctx a = some s')
    (hroom : a.null = false → s.ring.RoomFor s.currentIdx) : Inv [] s' := by
  obtain ⟨-, rfl⟩ | ⟨hnull, hsq, -, rfl⟩ := appendIOContext_some hs
  · refine ⟨h.ring, h.index, fun r => ?_, h.nodup, h.lt, h.running, h.cq, h.calls⟩
    have hcount := h.count r
    simp only [parked, List.map_append, List.map_cons, List.map_nil, List.count_append,
      List.count_nil] at hcount ⊢
    exact hcount.trans (Nat.add_assoc ..)
  · have hne : ∀ t ∈ s.ring.outstanding, t.key ≠ (prep ctx a.rawIov s.currentIdx).key := fun t ht =>
      h.ring.key_ne (hroom hnull) ht ctx a.rawIov
    have hperm := (Ring.submit_outstanding (s.memory ctx a) a.ret _).trans
      (s.ring.push_outstanding (prep ctx a.rawIov s.currentIdx))
    have hindex := (h.index.cons hne).of_perm hperm
    rw [prep_ctx] at hindex
    rw [emplace_new (s := { s with
      ring := (s.ring.push (prep ctx a.rawIov s.currentIdx)).submit (s.memory ctx a) a.ret
      currentIdx := s.currentIdx + 1 }) (h.index.eq_none hne)]
    refine ⟨(h.ring.push hsq ctx a.rawIov).submit (s.memory ctx a) a.ret, hindex, fun r => ?_, h.nodup, h.lt, h.running,
      h.cq, h.calls⟩
    have hcount := h.count r
    have hsub := (hperm.map fun t => t.ctx.request).count_eq r
    rw [List.map_cons, List.count_cons, prep_ctx] at hsub
    rw [List.count_singleton, submitted] at hcount
    change s.accepted.count r + s.running.count r = s.called.count r +
      (List.map (fun t : SQE => t.ctx.request)
        ((s.ring.push (prep ctx a.rawIov s.currentIdx)).submit (s.memory ctx a) a.ret).outstanding).count
          r +
      s.parked.count r + 0
    omega

theorem Inv.accept (h : Inv [] s) {functors : List IOContext} {requests : Nat}
    (hperm : (s.accepted ++ ctx.request :: functors.map IOContext.request).Nodup)
    (hlt : ∀ r ∈ s.accepted ++ ctx.request :: functors.map IOContext.request, r < requests) :
    Inv [ctx.request] ({ s with functors := functors, requests := requests }.accept ctx) := by
  refine ⟨h.ring, h.index, fun r => ?_, ?_, ?_, h.running, h.cq, h.calls⟩
  · have hcount := h.count r
    simp only [UringManager.accept, List.count_append]
    rw [List.count_nil, Nat.add_zero] at hcount
    simp only [UringManager.running, called, submitted, parked] at hcount ⊢
    omega
  · simpa only [UringManager.accept, List.append_assoc, List.singleton_append] using hperm
  · simpa only [UringManager.accept, List.append_assoc, List.singleton_append] using hlt

theorem running_complete (sqe : Transfer) (res : Int)
    (hcq : s.phase = .callback → s.ring.cq ≠ []) :
    { s with ring := s.ring.complete sqe res }.running = s.running := by
  by_cases hphase : s.phase = .callback
  · obtain ⟨c, cs, hc⟩ := List.exists_cons_of_ne_nil (hcq hphase)
    simp only [UringManager.running, Ring.complete, hphase, hc, List.cons_append]
  · rw [running_of_ne hphase]
    exact running_of_ne hphase

theorem Inv.complete {sqe : Transfer} (h : Inv [] s) (hsqe : sqe ∈ s.ring.inFlight) (res : Int) :
    Inv [] { s with ring := s.ring.complete sqe res } := by
  have hperm := Ring.complete_outstanding res hsqe
  have hrunning := running_complete sqe res h.cq
  refine ⟨h.ring.complete hsqe res, h.index.of_perm hperm, fun r => ?_, h.nodup, h.lt, ?_,
    fun _ => List.append_ne_nil_of_right_ne_nil _ (List.cons_ne_nil _ _), h.calls⟩
  · rw [hrunning, submitted, (hperm.map fun t => t.ctx.request).count_eq r]
    exact h.count r
  · rw [hrunning]
    exact h.running

/-- No callback is running before or after the change of the phase. -/
theorem Inv.setPhase {p : Phase} (h : Inv moving s) (hs : s.phase ≠ .callback)
    (hp : p ≠ .callback) : Inv moving { s with phase := p } := by
  have hrunning : { s with phase := p }.running = s.running :=
    (running_of_ne (s := { s with phase := p }) hp).trans (running_of_ne hs).symm
  refine ⟨h.ring, h.index, fun r => ?_, h.nodup, h.lt, ?_, fun hc => absurd hc hp, h.calls⟩
  · rw [hrunning]
    exact h.count r
  · rw [hrunning]
    exact h.running

/-- The key of a completion is in the map, and leads to the request of its entry. -/
theorem Inv.runCallback {c : CQE} {cs : List CQE} (h : Inv [] s) (hphase : s.phase ≠ .callback)
    (hcq : s.ring.cq = c :: cs) :
    ∃ s', s.runCallback c = .ok s' ∧ Inv [] s' := by
  have hmem : c ∈ s.ring.cq := hcq ▸ List.mem_cons_self ..
  have hget := h.index.get c.sqe.toSQE ((Ring.seen_outstanding hcq).mem_iff.mpr (List.mem_cons_self ..))
  rw [SQE.key, ← h.ring.cq c hmem] at hget
  refine ⟨_, by rw [UringManager.runCallback, hget], ?_⟩
  have hnone := running_of_ne hphase
  refine ⟨h.ring, h.index, fun r => ?_, h.nodup, h.lt, fun r hr => ?_, fun _ => ?_,
    fun d hd => ?_⟩
  · have hcount := h.count r
    rw [hnone, List.count_nil] at hcount
    simp only [UringManager.running, hcq, called, submitted, parked, List.map_append, List.map_cons,
      List.map_nil, List.count_append, List.count_nil] at hcount ⊢
    omega
  · simp only [UringManager.running, hcq] at hr
    rw [List.mem_singleton.mp hr]
    simp only [called, List.map_append, List.map_cons, List.map_nil]
    exact List.mem_append_right _ (List.mem_singleton_self _)
  · rw [hcq]
    exact List.cons_ne_nil _ _
  · obtain hd | hd := List.mem_append.mp hd
    · exact h.calls d hd
    · rw [List.mem_singleton.mp hd]
      exact ⟨rfl, rfl⟩

/-- Behind the callback, before the oldest parked request is appended. -/
theorem Inv.seen {c : CQE} {cs : List CQE} (h : Inv [] s) (hphase : s.phase = .callback)
    (hcq : s.ring.cq = c :: cs) : Inv [] { s with
      activeIOs := Function.update s.activeIOs (toInt c.userData) none
      ring := s.ring.seen
      phase := .handling } := by
  have hmem : c ∈ s.ring.cq := hcq ▸ List.mem_cons_self ..
  have hperm := Ring.seen_outstanding hcq
  have hindex := (h.index.of_perm hperm.symm).tail
  rw [SQE.key, ← h.ring.cq c hmem] at hindex
  refine ⟨h.ring.seen hcq, hindex, fun r => ?_, h.nodup, h.lt, nofun, nofun, h.calls⟩
  have hcount := h.count r
  have hsub := (hperm.map fun t => t.ctx.request).count_eq r
  rw [List.map_cons, List.count_cons] at hsub
  simp only [UringManager.running, hphase, hcq, called, submitted, parked, List.count_nil,
    List.count_singleton] at hcount hsub ⊢
  omega

theorem Inv.finish {c : CQE} {cs : List CQE} (h : Inv [] s) (hphase : s.phase = .callback)
    (hcq : s.ring.cq = c :: cs) (hs : s.finish c a = some s')
    (hroom : s.pendingIOs ≠ [] → a.null = false → s.ring.seen.RoomFor s.currentIdx) :
    Inv [] s' := by
  have hseen := h.seen hphase hcq
  rw [UringManager.finish] at hs
  cases hpending : s.pendingIOs with
  | nil =>
    rw [hpending] at hs
    cases hs
    rwa [hpending] at hseen
  | cons nextCtx rest =>
    rw [hpending] at hs
    refine Inv.appendIOContext (s := { s with
      activeIOs := Function.update s.activeIOs (toInt c.userData) none
      ring := s.ring.seen
      phase := .handling
      pendingIOs := rest }) ?_ hs (hroom (hpending ▸ List.cons_ne_nil _ _))
    refine ⟨hseen.ring, hseen.index, fun r => ?_, hseen.nodup, hseen.lt, hseen.running, nofun,
      hseen.calls⟩
    have hcount := hseen.count r
    simp only [UringManager.running, called, submitted, parked, hpending, List.map_cons,
      List.count_cons, List.count_nil] at hcount ⊢
    omega

/-- No request is in flight while 2³² later ones are submitted: when an entry is given out, every
entry that the kernel has taken and whose completion has not been handled is less than that far
back. -/
def Within : Except Fault UringManager → Input → Prop
  | .ok s, .asyncRW _ _ a | .ok s, .functor a => a.null = false → s.ring.RoomFor s.currentIdx
  | .ok s, .callbackReturns a =>
    s.pendingIOs ≠ [] → a.null = false → s.ring.seen.RoomFor s.currentIdx
  | _, _ => True

instance : ∀ r i, Decidable (Within r i)
  | .ok s, .asyncRW _ _ a | .ok s, .functor a =>
    inferInstanceAs (Decidable (a.null = false → s.ring.RoomFor s.currentIdx))
  | .ok s, .callbackReturns a => inferInstanceAs
    (Decidable (s.pendingIOs ≠ [] → a.null = false → s.ring.seen.RoomFor s.currentIdx))
  | .ok _, .queueInLoop _ _ | .ok _, .doPendingFunctorsReturns | .ok _, .complete _ _
  | .ok _, .handEventRead | .ok _, .peek _ | .error _, _ => isTrue trivial

theorem Inv.fresh (h : Inv [] s) (fd : Int) (rwOp : RWOperation) :
    (s.accepted ++ (s.makeContext fd rwOp).request :: s.functors.map IOContext.request).Nodup ∧
    ∀ r ∈ s.accepted ++ (s.makeContext fd rwOp).request :: s.functors.map IOContext.request,
      r < s.requests + 1 := by
  refine ⟨List.nodup_middle.mpr (List.nodup_cons.mpr ⟨fun hmem => ?_, h.nodup⟩), fun r hr => ?_⟩
  · exact Nat.lt_irrefl _ (h.lt _ hmem)
  · obtain rfl | hr := List.mem_cons.mp (List.perm_middle.mem_iff.mp hr)
    · exact Nat.lt_succ_self _
    · exact (h.lt r hr).trans (Nat.lt_succ_self _)

theorem Inv.queueInLoop (h : Inv [] s) (fd : Int) (rwOp : RWOperation) : Inv [] { s with
    requests := s.requests + 1
    functors := s.functors ++ [s.makeContext fd rwOp] } := by
  have hfresh := h.fresh fd rwOp
  have hperm : (s.accepted ++ (s.functors ++ [s.makeContext fd rwOp]).map IOContext.request).Perm
      (s.accepted ++ (s.makeContext fd rwOp).request :: s.functors.map IOContext.request) := by
    rw [List.map_append]
    exact List.Perm.append_left _ List.perm_append_comm
  exact ⟨h.ring, h.index, h.count, hperm.nodup_iff.mpr hfresh.1,
    fun r hr => hfresh.2 r (hperm.mem_iff.mp hr), h.running, h.cq, h.calls⟩

/-- What functors hold does not matter for the places of the requests. -/
theorem Inv.setArrays (h : Inv moving s) (arrays : IOVecPtr → Option (List IOVec)) :
    Inv moving { s with arrays } :=
  ⟨h.ring, h.index, h.count, h.nodup, h.lt, h.running, h.cq, h.calls⟩

theorem Inv.step {i : Input} {r : Except Fault UringManager} (h : Inv [] s)
    (hwithin : Within (.ok s) i) (hs : step (.ok s) i = some r) : ∃ s', r = .ok s' ∧ Inv [] s' := by
  cases i with
  | asyncRW fd rwOp a =>
    rw [UringManager.step] at hs
    split at hs
    · cases hs
    · obtain ⟨s', hs', rfl⟩ := Option.map_eq_some_iff.mp hs
      obtain ⟨hnodup, hlt⟩ := h.fresh fd rwOp
      exact ⟨s', rfl, (h.accept hnodup hlt).appendIOContext hs' hwithin⟩
  | queueInLoop fd rwOp =>
    cases hs
    exact ⟨_, rfl, h.queueInLoop fd rwOp⟩
  | functor a =>
    rw [UringManager.step] at hs
    split at hs
    · rename_i ctx rest hphase hfunctors
      obtain ⟨s', hs', rfl⟩ := Option.map_eq_some_iff.mp hs
      have hnodup := h.nodup
      have hlt := h.lt
      rw [hfunctors, List.map_cons] at hnodup hlt
      exact ⟨_, rfl, ((h.accept hnodup hlt).appendIOContext hs' hwithin).setArrays _⟩
    · cases hs
  | doPendingFunctorsReturns =>
    obtain ⟨-, hs⟩ := Option.ite_none_right_eq_some.mp hs
    cases hs
    exact ⟨_, rfl, h.setArrays _⟩
  | complete sqe res =>
    obtain ⟨hsqe, hs⟩ := Option.ite_none_right_eq_some.mp hs
    cases hs
    exact ⟨_, rfl, h.complete hsqe res⟩
  | handEventRead =>
    obtain ⟨hphase, hs⟩ := Option.ite_none_right_eq_some.mp hs
    cases hs
    exact ⟨_, rfl, h.setPhase (by rw [hphase]; nofun) nofun⟩
  | peek fails =>
    obtain ⟨hphase, hs⟩ := Option.ite_none_right_eq_some.mp hs
    have hne : s.phase ≠ .callback := by rw [hphase]; nofun
    split at hs
    · cases hs
      exact ⟨_, rfl, h.setPhase hne nofun⟩
    · rename_i c cs hcq
      cases hs
      cases fails with
      | true => exact ⟨_, rfl, h.setPhase hne nofun⟩
      | false => exact h.runCallback hne hcq
  | callbackReturns a =>
    rw [UringManager.step] at hs
    split at hs
    · rename_i c cs hphase hcq
      obtain ⟨s', hs', rfl⟩ := Option.map_eq_some_iff.mp hs
      exact ⟨s', rfl, h.finish hphase hcq hs' hwithin⟩
    · cases hs

/-- No request is called or accepted twice, or is in two places. -/
theorem Inv.count_le (h : Inv [] s) (r : Nat) :
    s.called.count r + s.submitted.count r + s.parked.count r ≤ 1 + s.running.count r := by
  have hnodup := List.nodup_iff_count_le_one.mp h.nodup r
  rw [List.count_append] at hnodup
  have hcount := h.count r
  rw [List.count_nil] at hcount
  omega

/-- The running request has its entry. -/
theorem Inv.running_le (h : Inv [] s) (r : Nat) : s.running.count r ≤ s.submitted.count r := by
  by_cases hphase : s.phase = .callback
  · obtain ⟨c, cs, hcq⟩ := List.exists_cons_of_ne_nil (h.cq hphase)
    have hsub := ((Ring.seen_outstanding hcq).map fun t => t.ctx.request).count_eq r
    rw [List.map_cons, List.count_cons] at hsub
    simp only [UringManager.running, hphase, hcq, List.count_singleton, submitted]
    omega
  · rw [running_of_ne hphase, List.count_nil]
    exact Nat.zero_le _

theorem Inv.nodup_called (h : Inv [] s) : s.called.Nodup := by
  refine List.nodup_iff_count_le_one.mpr fun r => ?_
  have hle := h.count_le r
  have hrunning := h.running_le r
  omega

/-- A request whose callback has not been called has an entry or is parked, and not both. -/
theorem Inv.submitted_add_parked (h : Inv [] s) {r : Nat} (hr : r ∈ s.accepted)
    (hnot : r ∉ s.called) : s.submitted.count r + s.parked.count r = 1 := by
  have hrunning : s.running.count r = 0 := List.count_eq_zero.mpr fun hmem => hnot (h.running r hmem)
  have hcalled := List.count_eq_zero.mpr hnot
  have hpos := List.count_pos_iff.mpr hr
  have hle := h.count_le r
  have hcount := h.count r
  rw [List.count_nil] at hcount
  omega

/-- A request has an entry if `activeIOs_` holds it. -/
theorem Inv.mem_submitted (h : Inv [] s) {r : Nat} :
    r ∈ s.submitted ↔ ∃ k ctx, s.activeIOs k = some ctx ∧ ctx.request = r := by
  constructor
  · intro hr
    obtain ⟨t, ht, rfl⟩ := List.mem_map.mp hr
    exact ⟨t.key, t.ctx, h.index.get t ht, rfl⟩
  · rintro ⟨k, ctx, hk, rfl⟩
    obtain ⟨t, ht, -, rfl⟩ := h.index.exists_of_get hk
    exact List.mem_map_of_mem ht

/-! ### Its own buffers -/

/-- The transfer is what the request asks for, with the buffers of the request. -/
structure Serves (u : Transfer) (ctx : IOContext) : Prop where
  opcode : u.opcode = .readv ↔ ctx.rwOp.op = .READ
  fd : u.fd = ctx.fd
  off : u.off = ctx.rwOp.offset
  buffers : u.buffers = some (ctx.rwOp.iovec.take (ctx.rwOp.iovec.length % 2 ^ 32))

/-- An entry serves its request if its array is there when the kernel takes it. -/
theorem serves_take {memory : IOVecPtr → Option (List IOVec)} {p : IOVecPtr} {n : Nat}
    (h : memory p = some ctx.rwOp.iovec) : Serves ((prep ctx p n).take memory) ctx := by
  refine ⟨?_, rfl, rfl, ?_⟩
  · rw [SQE.take, prep]
    cases ctx.rwOp.op with
    | READ => exact iff_of_true rfl rfl
    | WRITE => simp
  · change (memory p).bind _ = _
    rw [h, Option.bind_some]
    exact if_pos (Nat.mod_le _ _)

/-- All that the kernel has taken serves the request that it is for. -/
structure Served (s : UringManager) : Prop where
  taken : ∀ u ∈ s.ring.taken, Serves u u.ctx
  calls : ∀ c ∈ s.calls, Serves c.cqe.sqe c.cqe.sqe.ctx

/-- The arrays of the entries that a submission takes, besides that of the running functor, are
there. -/
def Arrays (a : Answers) (s : UringManager) : Prop :=
  ∀ t ∈ s.ring.sq.take a.ret.toNat, s.arrays t.iovecs = some t.ctx.rwOp.iovec

instance (a : Answers) (s : UringManager) : Decidable (s.Arrays a) := inferInstanceAs
  (Decidable (∀ t ∈ s.ring.sq.take a.ret.toNat, s.arrays t.iovecs = some t.ctx.rwOp.iovec))

/-- Every submission takes entries of functors that have not been destroyed: an entry that an earlier
submission has left is not taken, unless its functor was queued, and is one of this round of
`doPendingFunctors`. -/
def TakesLive : Except Fault UringManager → Input → Prop
  | .ok s, .asyncRW _ _ a | .ok s, .functor a => a.null = false → s.Arrays a
  | .ok s, .callbackReturns a => s.pendingIOs ≠ [] → a.null = false → s.Arrays a
  | _, _ => True

instance : ∀ r i, Decidable (TakesLive r i)
  | .ok s, .asyncRW _ _ a | .ok s, .functor a =>
    inferInstanceAs (Decidable (a.null = false → s.Arrays a))
  | .ok s, .callbackReturns a =>
    inferInstanceAs (Decidable (s.pendingIOs ≠ [] → a.null = false → s.Arrays a))
  | .ok _, .queueInLoop _ _ | .ok _, .doPendingFunctorsReturns | .ok _, .complete _ _
  | .ok _, .handEventRead | .ok _, .peek _ | .error _, _ => isTrue trivial

theorem served_new : new.Served :=
  ⟨fun _ hu => absurd hu List.not_mem_nil, fun _ hc => absurd hc List.not_mem_nil⟩

theorem Served.appendIOContext (hs : s.appendIOContext ctx a = some s') (h : s.Served)
    (hring : s.ring.Numbered s.currentIdx) (harrays : a.null = false → s.Arrays a) :
    s'.Served := by
  obtain ⟨-, rfl⟩ | ⟨hnull, -, hfree, rfl⟩ := appendIOContext_some hs
  · exact ⟨h.taken, h.calls⟩
  · refine ⟨fun u hu => ?_, h.calls⟩
    obtain hu | ⟨t, ht, rfl⟩ := Ring.mem_taken_submit hu
    · exact h.taken u hu
    rw [Ring.push, List.take_append, List.mem_append] at ht
    obtain ht | ht := ht
    · -- an entry of an earlier functor: its array is not the one of this functor
      have hlive := harrays hnull t ht
      have hne : t.iovecs ≠ a.rawIov := fun heq => by
        rw [heq, hfree] at hlive
        cases hlive
      have hprep := hring.prep t (Ring.mem_outstanding.mpr (.inl (List.mem_of_mem_take ht)))
      change Serves _ t.ctx
      rw [hprep]
      refine serves_take ?_
      rw [memory, Function.update_of_ne hne, hlive]
    · rw [List.mem_singleton.mp (List.mem_of_mem_take ht)]
      exact serves_take (Function.update_self ..)

theorem Served.step {i : Input} (h : s.Served) (hinv : Inv [] s) (hlive : TakesLive (.ok s) i)
    (hs : step (.ok s) i = some (.ok s')) : s'.Served := by
  cases i with
  | asyncRW fd rwOp a =>
    rw [UringManager.step] at hs
    split at hs
    · cases hs
    · obtain ⟨s₁, hs₁, heq⟩ := Option.map_eq_some_iff.mp hs
      cases heq
      exact Served.appendIOContext hs₁ ⟨h.taken, h.calls⟩ hinv.ring hlive
  | queueInLoop fd rwOp =>
    cases hs
    exact ⟨h.taken, h.calls⟩
  | functor a =>
    rw [UringManager.step] at hs
    split at hs
    · obtain ⟨s₁, hs₁, heq⟩ := Option.map_eq_some_iff.mp hs
      cases heq
      have hserved := Served.appendIOContext hs₁ ⟨h.taken, h.calls⟩ hinv.ring hlive
      exact ⟨hserved.taken, hserved.calls⟩
    · cases hs
  | doPendingFunctorsReturns =>
    obtain ⟨-, hs⟩ := Option.ite_none_right_eq_some.mp hs
    cases hs
    exact ⟨h.taken, h.calls⟩
  | complete sqe res =>
    obtain ⟨hsqe, hs⟩ := Option.ite_none_right_eq_some.mp hs
    cases hs
    exact ⟨fun u hu => h.taken u ((Ring.complete_taken res hsqe).mem_iff.mp hu), h.calls⟩
  | handEventRead =>
    obtain ⟨-, hs⟩ := Option.ite_none_right_eq_some.mp hs
    cases hs
    exact ⟨h.taken, h.calls⟩
  | peek fails =>
    obtain ⟨-, hs⟩ := Option.ite_none_right_eq_some.mp hs
    split at hs
    · cases hs
      exact ⟨h.taken, h.calls⟩
    · rename_i c cs hcq
      cases fails with
      | true =>
        cases hs
        exact ⟨h.taken, h.calls⟩
      | false =>
        have hcall := Option.some.inj hs
        rw [if_neg Bool.false_ne_true, UringManager.runCallback] at hcall
        split at hcall <;> cases hcall
        refine ⟨h.taken, List.forall_mem_append.mpr ⟨h.calls, List.forall_mem_singleton.mpr ?_⟩⟩
        exact h.taken _ (List.mem_append_right _
          (List.mem_map_of_mem (hcq ▸ List.mem_cons_self ..)))
  | callbackReturns a =>
    rw [UringManager.step] at hs
    split at hs
    · rename_i c cs hphase hcq
      obtain ⟨s₁, hs₁, heq⟩ := Option.map_eq_some_iff.mp hs
      cases heq
      have hseen : ∀ u ∈ s.ring.seen.taken, Serves u u.ctx :=
        fun u hu => h.taken u (Ring.mem_taken_of_seen hu)
      rw [UringManager.finish] at hs₁
      cases hpending : s.pendingIOs with
      | nil =>
        rw [hpending] at hs₁
        cases hs₁
        exact ⟨hseen, h.calls⟩
      | cons nextCtx rest =>
        rw [hpending] at hs₁
        exact Served.appendIOContext hs₁ ⟨hseen, h.calls⟩ (hinv.ring.seen hcq)
          (hlive (hpending ▸ List.cons_ne_nil _ _))
    · cases hs

/-- **Each completion reaches its own request, once.** In every run in which no request is in flight
while 2³² later ones are submitted and no submission takes an entry whose array is gone, no lookup
fails, every callback called is that of the request whose entry the completion is for, which is what
the request asks for, with its buffers, and gets its result, none is called twice, and every accepted
request whose callback has not been called is either active or parked. -/
theorem completions_matched (is : List Input) (r : Except Fault UringManager)
    (hr : Run.run step (.ok new) is = some r) (hwithin : Run.Along step Within (.ok new) is)
    (hlive : Run.Along step TakesLive (.ok new) is) :
    ∃ s, r = .ok s ∧
      (∀ c ∈ s.calls, c.ctx = c.cqe.sqe.ctx ∧ c.res = c.cqe.res ∧ Serves c.cqe.sqe c.ctx) ∧
      (s.calls.map fun c => c.ctx.request).Nodup ∧
      ∀ q ∈ s.accepted, q ∉ s.calls.map (fun c => c.ctx.request) →
        Xor (∃ k ctx, s.activeIOs k = some ctx ∧ ctx.request = q)
          (∃ ctx ∈ s.pendingIOs, ctx.request = q) := by
  obtain ⟨s, rfl, hinv, hserved⟩ := Run.run_invariant
    (I := fun r => ∃ s, r = Except.ok s ∧ Inv [] s ∧ s.Served) (fun _ _ _ hI hG hs => by
      obtain ⟨s, rfl, hinv, hserved⟩ := hI
      obtain ⟨s', rfl, hinv'⟩ := hinv.step hG.1 hs
      exact ⟨s', rfl, hinv', hserved.step hinv hG.2 hs⟩)
    ⟨new, rfl, inv_new, served_new⟩ (hwithin.and hlive) hr
  refine ⟨s, rfl, fun c hc => ?_, hinv.nodup_called, fun q hq hnot => ?_⟩
  · obtain ⟨hctx, hres⟩ := hinv.calls c hc
    exact ⟨hctx, hres, hctx ▸ hserved.calls c hc⟩
  have hone := hinv.submitted_add_parked hq hnot
  have hparked : q ∈ s.parked ↔ ∃ ctx ∈ s.pendingIOs, ctx.request = q := List.mem_map
  rw [← hinv.mem_submitted, ← hparked, ← List.count_pos_iff, ← List.count_pos_iff]
  obtain hzero | hpos := Nat.eq_zero_or_pos (s.submitted.count q)
  · exact .inr ⟨by omega, by omega⟩
  · exact .inl ⟨hpos, by omega⟩

set_option maxRecDepth 4000 in
/-- A read whose callback runs while a request of another thread is parked. -/
theorem completions_matched_parked :
    ∃ (io : RWOperation) (s : UringManager), Run.run step (.ok new) [.asyncRW 3 io ⟨false, 1, 64⟩,
        .queueInLoop 4 io, .functor ⟨true, 0, 64⟩, .doPendingFunctorsReturns,
        .complete ⟨prep ⟨0, 3, io⟩ 64 0, some io.iovec⟩ 16, .handEventRead,
        .peek false] = some (.ok s) ∧
      s.accepted = [0, 1] ∧ (s.calls.map fun c => c.ctx.request) = [0] ∧
      (∀ c ∈ s.calls, c.ctx = c.cqe.sqe.ctx ∧ c.res = c.cqe.res ∧ Serves c.cqe.sqe c.ctx) ∧
      ∀ q ∈ s.accepted, q ∉ s.calls.map (fun c => c.ctx.request) →
        Xor (∃ k ctx, s.activeIOs k = some ctx ∧ ctx.request = q)
          (∃ ctx ∈ s.pendingIOs, ctx.request = q) := by
  obtain ⟨s, hs, haccepted, hcalls⟩ : ∃ s, Run.run step (.ok new) [
      .asyncRW 3 ⟨.READ, 0, [⟨4096, 16⟩]⟩ ⟨false, 1, 64⟩,
      .queueInLoop 4 ⟨.READ, 0, [⟨4096, 16⟩]⟩, .functor ⟨true, 0, 64⟩, .doPendingFunctorsReturns,
      .complete ⟨prep ⟨0, 3, .READ, 0, [⟨4096, 16⟩]⟩ 64 0, some [⟨4096, 16⟩]⟩ 16, .handEventRead,
      .peek false] = some (.ok s) ∧
      s.accepted = [0, 1] ∧ (s.calls.map fun c => c.ctx.request) = [0] :=
    ⟨_, rfl, rfl, rfl⟩
  obtain ⟨s', heq, hmatched, -, hplaced⟩ := completions_matched _ _ hs (by decide) (by decide)
  cases heq
  exact ⟨_, s, hs, haccepted, hcalls, hmatched, hplaced⟩

set_option maxRecDepth 4000 in
/-- Three reads, of which the second is left in the submission queue and is taken with the third: its
array was freed, and that of the third is in its place. -/
theorem not_completions_matched : ¬∀ (is : List Input) (r : Except Fault UringManager),
    Run.run step (.ok new) is = some r → Run.Along step Within (.ok new) is →
    ∃ s, r = .ok s ∧
      ∀ c ∈ s.calls, c.ctx = c.cqe.sqe.ctx ∧ c.res = c.cqe.res ∧ Serves c.cqe.sqe c.ctx := by
  intro hall
  obtain ⟨s, hs, hmatched⟩ := hall [.asyncRW 3 ⟨.READ, 0, [⟨4096, 16⟩]⟩ ⟨false, 1, 64⟩,
    .asyncRW 4 ⟨.READ, 0, [⟨8192, 16⟩]⟩ ⟨false, -11, 64⟩,
    .asyncRW 5 ⟨.READ, 0, [⟨12288, 16⟩]⟩ ⟨false, 2, 64⟩,
    .complete ⟨prep ⟨1, 4, .READ, 0, [⟨8192, 16⟩]⟩ 64 1, some [⟨12288, 16⟩]⟩ 16, .handEventRead,
    .peek false] _ rfl (by decide)
  cases hs
  have hbuffers := (hmatched _ (List.mem_singleton_self _)).2.2.buffers
  revert hbuffers
  decide

end UringManager

end MuduoX.Uring
