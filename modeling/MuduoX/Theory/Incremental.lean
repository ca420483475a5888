import Mathlib

/-! # Incremental parsing

A parser is offered all the bytes that have arrived and not been consumed. It reports a complete
message and the bytes behind it, fails, or asks for more, in which case it may keep a state and
will be offered the bytes it left together with the new ones.

`drive` is the loop that takes as many messages as there are; `feedAll` runs it once for each
delivered chunk. `feedAll_eq_drive` is the point of the module: when a parser that asked for more
and is resumed with further bytes answers as if it had been offered them at once (`Resumable`),
then what is parsed does not depend on how the bytes were cut. Resumption may be promised for
some states only; the predicate `Resume` says which, and `feedAll_eq_drive` asks for it at the
cuts that are actually made. -/

namespace MuduoX.Incremental

inductive Reply (σ α μ ε : Type*) where
  | more (s : σ) (rest : List α)
  | done (m : μ) (rest : List α)
  | fail (e : ε)
  deriving DecidableEq

/-- The reply to the same bytes and `u` behind them, when `parse` answers the resumed calls. -/
def Reply.extend {σ α μ ε : Type*} (parse : σ → List α → Reply σ α μ ε) (u : List α) :
    Reply σ α μ ε → Reply σ α μ ε
  | .more s rest => parse s (rest ++ u)
  | .done m rest => .done m (rest ++ u)
  | .fail e => .fail e

/-- Where a run stands between two deliveries. -/
inductive Status (σ α ε : Type*) where
  | idle (s : σ) (rest : List α)
  | failed (e : ε)
  deriving DecidableEq

/-- A parser, the state it starts every message from, and the promise that a message is at least
one byte long. -/
structure Parser (σ α μ ε : Type*) where
  init : σ
  parse : σ → List α → Reply σ α μ ε
  progress : ∀ {s r m r'}, parse s r = .done m r' → r'.length < r.length

namespace Parser

variable {σ α μ ε : Type*}

/-- Parse messages until the bytes run out, one is incomplete or one fails. -/
def drive (P : Parser σ α μ ε) (s : σ) (r : List α) : List μ × Status σ α ε :=
  if r = [] then ([], .idle s r) else
  match _h : P.parse s r with
  | .more s' r' => ([], .idle s' r')
  | .fail e => ([], .failed e)
  | .done m r' =>
    match P.drive P.init r' with
    | (ms, st) => (m :: ms, st)
termination_by r.length
decreasing_by exact P.progress _h

/-- One more chunk. -/
def feed (P : Parser σ α μ ε) : Status σ α ε → List α → List μ × Status σ α ε
  | .idle s r, c => P.drive s (r ++ c)
  | .failed e, _ => ([], .failed e)

def feedAll (P : Parser σ α μ ε) : Status σ α ε → List (List α) → List μ × Status σ α ε
  | st, [] => ([], st)
  | st, c :: cs =>
    let first := P.feed st c
    let next := P.feedAll first.2 cs
    (first.1 ++ next.1, next.2)

/-- Offered further bytes, the parser keeps its verdicts; and resumed in a `Resume` state it
answers as if it had been offered all of them at once. -/
structure Resumable (P : Parser σ α μ ε) (Resume : σ → List α → Prop) : Prop where
  init_resume : ∀ r, Resume P.init r
  append : ∀ {s r} u, Resume s r → (∀ s' r', P.parse s r = .more s' r' → Resume s' (r' ++ u)) →
    P.parse s (r ++ u) = (P.parse s r).extend P.parse u

variable {P : Parser σ α μ ε} {Resume : σ → List α → Prop} {s s' : σ} {r r' u : List α}

@[simp] theorem drive_nil : P.drive s [] = ([], .idle s []) := by
  simp [drive]

theorem drive_more (hr : r ≠ []) (h : P.parse s r = .more s' r') :
    P.drive s r = ([], .idle s' r') := by
  rw [drive, if_neg hr]; split <;> simp_all

theorem drive_fail (hr : r ≠ []) (h : P.parse s r = .fail e) : P.drive s r = ([], .failed e) := by
  rw [drive, if_neg hr]; split <;> simp_all

theorem drive_done (h : P.parse s r = .done m r') :
    P.drive s r = (m :: (P.drive P.init r').1, (P.drive P.init r').2) := by
  have hr : r ≠ [] := by rintro rfl; simpa using P.progress h
  rw [drive, if_neg hr]; split <;> simp_all

theorem drive_congr (hr : r ≠ []) (hr' : r' ≠ []) (h : P.parse s r = P.parse s' r') :
    P.drive s r = P.drive s' r' := by
  cases hp : P.parse s' r' with
  | more => rw [drive_more hr (h.trans hp), drive_more hr' hp]
  | fail => rw [drive_fail hr (h.trans hp), drive_fail hr' hp]
  | done => rw [drive_done (h.trans hp), drive_done hp]

theorem Resumable.done_append (L : P.Resumable Resume) (u : List α) (hs : Resume s r)
    (h : P.parse s r = .done m r') : P.parse s (r ++ u) = .done m (r' ++ u) := by
  rw [L.append u hs (by simp [h]), h]; rfl

theorem Resumable.fail_append (L : P.Resumable Resume) (u : List α) (hs : Resume s r)
    (h : P.parse s r = .fail e) : P.parse s (r ++ u) = .fail e := by
  rw [L.append u hs (by simp [h]), h]; rfl

theorem Resumable.more_append (L : P.Resumable Resume) (u : List α) (hs : Resume s r)
    (h : P.parse s r = .more s' r') (hu : Resume s' (r' ++ u)) :
    P.parse s (r ++ u) = P.parse s' (r' ++ u) := by
  rw [L.append u hs (by rintro _ _ h'; cases h.symm.trans h'; exact hu), h]; rfl

/-- A run that ended idle goes on from where it stopped. -/
theorem Resumable.drive_append (L : P.Resumable Resume) {ms : List μ}
    (h : P.drive s r = (ms, .idle s' r')) (hs : Resume s r) (hu : Resume s' (r' ++ u)) :
    P.drive s (r ++ u) =
      (ms ++ (P.drive s' (r' ++ u)).1, (P.drive s' (r' ++ u)).2) := by
  fun_induction P.drive s r generalizing ms with
  | case1 s =>
    cases h
    simp
  | case2 s r hr _ _ hp =>
    cases h
    rcases Decidable.em (u = []) with rfl | hne
    · -- no further bytes: the parser would answer `more` again
      have hmore := L.more_append [] hs hp hu
      simp only [List.append_nil] at hmore ⊢
      rw [drive_more hr hp]
      rcases Decidable.em (r' = []) with rfl | hne
      · simp
      · rw [drive_more hne (hmore.symm.trans hp)]; simp
    · rw [drive_congr (by simp [hne]) (by simp [hne]) (L.more_append u hs hp hu)]
      simp
  | case3 => cases h
  | case4 s r hr t r₁ hp ms' st hd ih =>
    cases h
    rw [drive_done (L.done_append u hs hp), ih hd (L.init_resume _)]
    rfl

/-- A run that failed has failed whatever follows. -/
theorem Resumable.drive_append_failed (L : P.Resumable Resume) {ms : List μ} {e : ε}
    (h : P.drive s r = (ms, .failed e)) (hs : Resume s r) :
    P.drive s (r ++ u) = (ms, .failed e) := by
  fun_induction P.drive s r generalizing ms with
  | case1 => cases h
  | case2 => cases h
  | case3 s r hr _ hp => rw [drive_fail (by simp [hr]) (L.fail_append u hs hp), ← h]
  | case4 s r hr t r₁ hp ms' st hd ih =>
    cases h
    rw [drive_done (L.done_append u hs hp), ih hd (L.init_resume _)]

theorem feedAll_concat (st : Status σ α ε) (cs : List (List α)) (c : List α) :
    P.feedAll st (cs ++ [c]) =
      ((P.feedAll st cs).1 ++ (P.feed (P.feedAll st cs).2 c).1,
        (P.feed (P.feedAll st cs).2 c).2) := by
  induction cs generalizing st with
  | nil => simp [feedAll]
  | cons d cs ih => simp [feedAll, ih, List.append_assoc]

/-- **Cutting does not matter.** If every cut is made in a state that the parser resumes from,
delivering the chunks one by one is the same as delivering their concatenation. -/
theorem Resumable.feedAll_eq_drive (L : P.Resumable Resume) (cs : List (List α))
    (hcut : ∀ pre c post s r, cs = pre ++ c :: post →
      (P.drive P.init pre.flatten).2 = .idle s r → Resume s (r ++ c)) :
    P.feedAll (.idle P.init []) cs = P.drive P.init cs.flatten := by
  induction cs using List.reverseRecOn with
  | nil => simp [feedAll]
  | append_singleton cs c ih =>
    have ih := ih fun pre d post s r hcs =>
      hcut pre d (post ++ [c]) s r (by simp [hcs])
    rw [feedAll_concat, ih, List.flatten_append, List.flatten_singleton]
    rcases hd : P.drive P.init cs.flatten with ⟨ms, s' | e⟩
    · rw [L.drive_append hd (L.init_resume _) (hcut cs c [] _ _ rfl (by rw [hd]))]
      rfl
    · rw [L.drive_append_failed hd (L.init_resume _)]
      simp [feed]

end Parser

end MuduoX.Incremental
