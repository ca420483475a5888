import MuduoX.Bytes

/-! `FileUtil` (`include/FileUtil.h`, `log/FileUtile.cpp`) over a stream that has been opened.

What `fwrite_unlocked` does is chosen from outside, one answer for each call. -/

namespace MuduoX

/-- How a call of `fwrite_unlocked` goes: it accepts as many of its bytes, and, if that is not all of
them, may set the error flag of the stream. -/
structure Fwrite where
  accepted : Nat
  error : Bool
  deriving DecidableEq

structure FileUtil where
  /-- ghost: what the stream has accepted -/
  content : Bytes
  ferror : Bool
  writtenbytes : Nat
  deriving DecidableEq

namespace FileUtil

def new : FileUtil := ⟨[], false, 0⟩

/-- `write(data, data.length)`. -/
def write (data : Bytes) (call : Fwrite) (f : FileUtil) : Nat × FileUtil :=
  let n := min call.accepted data.length
  (n, { f with
    content := f.content ++ data.take n
    ferror := f.ferror || (call.error && n < data.length) })

/-- The loop of `append`. It has not come to its end when the answers are used up before. -/
def appendLoop (data : Bytes) (writen : Nat) (f : FileUtil) :
    List Fwrite → Option (Nat × FileUtil)
  | [] => if writen < data.length then none else some (writen, f)
  | call :: calls =>
    if writen < data.length then
      let remain := data.length - writen
      let r := f.write (data.drop writen) call
      if r.1 ≠ remain ∧ r.2.ferror then
        -- `clearerr`; what this call has accepted is not added
        some (writen, { r.2 with ferror := false })
      else appendLoop data (writen + r.1) r.2 calls
    else some (writen, f)

def append (data : Bytes) (calls : List Fwrite) (f : FileUtil) : Option FileUtil :=
  (appendLoop data 0 f calls).map fun r => { r.2 with writtenbytes := r.2.writtenbytes + r.1 }

/-! ### What is counted -/

def total (calls : List Fwrite) : Nat := (calls.map Fwrite.accepted).sum

/-- Each call that is short and finds the error flag set has accepted nothing. Only the first such
call is made: there is none before it, and the flag that was set on entry ends the loop at the first
short call. -/
def ErrorsEmpty (data : Bytes) (writen : Nat) (ferror : Bool) (calls : List Fwrite) : Prop :=
  ∀ before call after, calls = before ++ call :: after → (ferror → before = []) →
    (∀ c ∈ before, c.error = false) → writen + total before + call.accepted < data.length →
      ferror || call.error → call.accepted = 0

/-- The two promises of `append`. -/
structure Accounts (f : FileUtil) (data : Bytes) (calls : List Fwrite) : Prop where
  /-- it counts what the stream has accepted meanwhile -/
  written : ∀ f', f.append data calls = some f' → ∃ accepted, f'.content = f.content ++ accepted ∧
    f'.writtenbytes = f.writtenbytes + accepted.length
  /-- it returns if every call makes progress or reports an error -/
  returns : (∀ c ∈ calls, c.error = false → 0 < c.accepted) → data.length ≤ calls.length →
    (f.append data calls).isSome

variable {f f' : FileUtil} {data : Bytes} {writen w : Nat} {ferror : Bool} {call : Fwrite}
  {calls : List Fwrite}

theorem errorsEmpty_nil : ErrorsEmpty data writen ferror [] := by
  intro before call after h
  cases before <;> cases h

theorem errorsEmpty_cons : ErrorsEmpty data writen ferror (call :: calls) ↔
    (writen + call.accepted < data.length → ferror || call.error → call.accepted = 0) ∧
      (ferror = false → call.error = false →
        ErrorsEmpty data (writen + call.accepted) false calls) := by
  constructor
  · intro h
    refine ⟨fun hlt hflag => h [] call calls rfl (fun _ => rfl) (by simp) (by simpa [total]) hflag,
      fun hferror herror before c after hcalls _ hbefore hlt hflag => ?_⟩
    refine h (call :: before) c after (by rw [hcalls, List.cons_append]) (by simp [hferror])
      (List.forall_mem_cons.mpr ⟨herror, hbefore⟩) ?_ (by simpa [hferror] using hflag)
    rw [total, List.map_cons, List.sum_cons]
    rw [total] at hlt
    omega
  · rintro ⟨hhead, htail⟩ before c after hcalls hfirst hbefore hlt hflag
    cases before with
    | nil =>
      cases hcalls
      exact hhead (by simpa [total] using hlt) hflag
    | cons b before =>
      rw [List.cons_append, List.cons.injEq] at hcalls
      obtain ⟨rfl, hcalls⟩ := hcalls
      obtain ⟨hb, hbefore⟩ := List.forall_mem_cons.mp hbefore
      have hferror : ferror = false := by
        cases ferror with
        | false => rfl
        | true => cases hfirst rfl
      refine htail hferror hb before c after hcalls (fun h => by cases h) hbefore ?_
        (by simpa [hferror] using hflag)
      rw [total, List.map_cons, List.sum_cons] at hlt
      rw [total]
      omega

/-- Nothing is left to be written. -/
theorem errorsEmpty_of_le (h : data.length ≤ writen) : ErrorsEmpty data writen ferror calls := by
  intro before c after _ _ _ hlt
  omega

theorem appendLoop_of_le (h : data.length ≤ writen) :
    appendLoop data writen f calls = some (writen, f) := by
  cases calls <;> rw [appendLoop, if_neg (not_lt.mpr h)]

/-- How one call goes on: it is the last one, it is cut off by an error, or it is short. -/
theorem appendLoop_cons (h : writen < data.length) : appendLoop data writen f (call :: calls) =
    if data.length ≤ writen + call.accepted then
      some (data.length, { f with content := f.content ++ data.drop writen })
    else if f.ferror || call.error then
      some (writen, { f with
        content := f.content ++ (data.drop writen).take call.accepted, ferror := false })
    else appendLoop data (writen + call.accepted) { f with
      content := f.content ++ (data.drop writen).take call.accepted, ferror := false } calls := by
  have hdrop : (data.drop writen).length = data.length - writen := List.length_drop ..
  rw [appendLoop, if_pos h, write, hdrop]
  simp only
  by_cases hall : data.length ≤ writen + call.accepted
  · have hn : min call.accepted (data.length - writen) = data.length - writen := by omega
    rw [if_pos hall, hn, if_neg fun hshort => hshort.1 rfl, appendLoop_of_le (by omega), ← hdrop,
      List.take_length, hdrop, decide_eq_false (lt_irrefl _), Bool.and_false, Bool.or_false,
      Nat.add_sub_cancel' h.le]
  · have hn : min call.accepted (data.length - writen) = call.accepted := by omega
    have hlt : call.accepted < data.length - writen := by omega
    rw [if_neg hall, hn, decide_eq_true hlt, Bool.and_true]
    cases f.ferror || call.error with
    | true => rw [if_pos ⟨hlt.ne, rfl⟩, if_pos rfl]
    | false => rw [if_neg fun herror => Bool.noConfusion herror.2, if_neg Bool.false_ne_true]

/-- What has been counted when the loop ends is what the stream has accepted, unless the call that
ended it had accepted something. -/
theorem appendLoop_spec (hle : writen ≤ data.length) :
    (appendLoop data writen f calls = none → ErrorsEmpty data writen f.ferror calls) ∧
      ∀ w f', appendLoop data writen f calls = some (w, f') →
        f'.writtenbytes = f.writtenbytes ∧ ∃ accepted, f'.content = f.content ++ accepted ∧
          (w = writen + accepted.length ↔ ErrorsEmpty data writen f.ferror calls) := by
  induction calls generalizing writen f with
  | nil =>
    refine ⟨fun _ => errorsEmpty_nil, fun w f' hloop => ?_⟩
    obtain ⟨-, hloop⟩ := Option.ite_none_left_eq_some.mp hloop
    cases hloop
    exact ⟨rfl, [], (List.append_nil _).symm, iff_of_true rfl errorsEmpty_nil⟩
  | cons call calls ih =>
    obtain heq | hlt := hle.eq_or_lt
    · rw [appendLoop_of_le heq.ge]
      refine ⟨fun hloop => (by cases hloop), fun w f' hloop => ?_⟩
      cases hloop
      exact ⟨rfl, [], (List.append_nil _).symm, iff_of_true rfl (errorsEmpty_of_le heq.ge)⟩
    rw [appendLoop_cons hlt, errorsEmpty_cons]
    by_cases hall : data.length ≤ writen + call.accepted
    · rw [if_pos hall]
      refine ⟨fun hloop => (by cases hloop), fun w f' hloop => ?_⟩
      cases hloop
      refine ⟨rfl, data.drop writen, rfl, iff_of_true ?_ ⟨fun hshort => absurd hshort (by omega),
        fun _ _ => errorsEmpty_of_le hall⟩⟩
      rw [List.length_drop]
      omega
    rw [if_neg hall]
    cases hflag : f.ferror || call.error with
    | true =>
      rw [if_pos rfl]
      refine ⟨fun hloop => (by cases hloop), fun w f' hloop => ?_⟩
      cases hloop
      refine ⟨rfl, _, rfl, ?_⟩
      rw [List.length_take, List.length_drop]
      constructor
      · intro hw
        refine ⟨fun _ _ => by omega, fun hferror herror => ?_⟩
        rw [hferror, herror] at hflag
        cases hflag
      · intro hempty
        have := hempty.1 (by omega) rfl
        omega
    | false =>
      obtain ⟨hferror, herror⟩ := Bool.or_eq_false_iff.mp hflag
      have hempty : ErrorsEmpty data (writen + call.accepted) false calls ↔
          (writen + call.accepted < data.length → false = true → call.accepted = 0) ∧
            (f.ferror = false → call.error = false →
              ErrorsEmpty data (writen + call.accepted) false calls) :=
        ⟨fun h => ⟨fun _ hfalse => Bool.noConfusion hfalse, fun _ _ => h⟩,
          fun h => h.2 hferror herror⟩
      rw [if_neg Bool.false_ne_true, ← hempty]
      obtain ⟨hnone, hsome⟩ := ih (f := { f with
        content := f.content ++ (data.drop writen).take call.accepted, ferror := false })
        (show writen + call.accepted ≤ data.length by omega)
      refine ⟨hnone, fun w f' hloop => ?_⟩
      obtain ⟨hwritten, accepted, hcontent, hiff⟩ := hsome w f' hloop
      refine ⟨hwritten, (data.drop writen).take call.accepted ++ accepted, ?_, ?_⟩
      · rw [hcontent, List.append_assoc]
      · rw [← hiff, List.length_append, List.length_take, List.length_drop,
          Nat.min_eq_left (by omega), Nat.add_assoc]

/-- Where no call reports an error, everything is written. -/
theorem appendLoop_of_succeeds (hferror : f.ferror = false)
    (hcalls : ∀ c ∈ calls, c.error = false) (hle : writen ≤ data.length)
    (h : appendLoop data writen f calls = some (w, f')) :
    w = data.length ∧ f' = { f with content := f.content ++ data.drop writen } := by
  induction calls generalizing writen f with
  | nil =>
    obtain ⟨hlt, h⟩ := Option.ite_none_left_eq_some.mp h
    cases h
    rw [List.drop_eq_nil_of_le (not_lt.mp hlt), List.append_nil]
    exact ⟨le_antisymm hle (not_lt.mp hlt), rfl⟩
  | cons call calls ih =>
    obtain ⟨hcall, hcalls⟩ := List.forall_mem_cons.mp hcalls
    obtain heq | hlt := hle.eq_or_lt
    · rw [appendLoop_of_le heq.ge] at h
      cases h
      rw [List.drop_eq_nil_of_le heq.ge, List.append_nil]
      exact ⟨heq, rfl⟩
    rw [appendLoop_cons hlt, hferror, hcall, Bool.or_false, if_neg Bool.false_ne_true] at h
    split at h
    · cases h
      rw [hferror]
      exact ⟨rfl, rfl⟩
    · obtain ⟨hw, hf'⟩ := ih rfl hcalls (by omega) h
      refine ⟨hw, ?_⟩
      rw [hf', List.append_assoc, ← List.drop_drop, List.take_append_drop, ← hferror]

theorem append_of_succeeds (hferror : f.ferror = false) (hcalls : ∀ c ∈ calls, c.error = false)
    (h : f.append data calls = some f') : f' = { f with
      content := f.content ++ data, writtenbytes := f.writtenbytes + data.length } := by
  obtain ⟨r, hloop, rfl⟩ := Option.map_eq_some_iff.mp h
  obtain ⟨hw, hr⟩ := appendLoop_of_succeeds hferror hcalls (Nat.zero_le _)
    (show appendLoop data 0 f calls = some (r.1, r.2) from hloop)
  rw [hw, hr, List.drop_zero]

/-- Each call that goes on takes a byte away from what is left. -/
theorem appendLoop_isSome (hprogress : ∀ c ∈ calls, c.error = false → 0 < c.accepted)
    (hlength : data.length ≤ writen + calls.length) :
    (appendLoop data writen f calls).isSome := by
  induction calls generalizing writen f with
  | nil =>
    rw [appendLoop_of_le (show data.length ≤ writen from hlength)]
    rfl
  | cons call calls ih =>
    obtain hle | hlt := le_or_gt data.length writen
    · rw [appendLoop_of_le hle]
      rfl
    obtain ⟨hcall, hcalls⟩ := List.forall_mem_cons.mp hprogress
    rw [List.length_cons] at hlength
    rw [appendLoop_cons hlt]
    split
    · rfl
    · split
      · rfl
      · rename_i hflag
        obtain ⟨-, herror⟩ := Bool.or_eq_false_iff.mp (Bool.eq_false_of_not_eq_true hflag)
        have hpos := hcall herror
        exact ih hcalls (by omega)

/-- **Accounting.** `append` returns as it should; it counts what the stream has accepted if and
only if the call at which it gives up, if there is one, has accepted nothing. -/
theorem accounts_iff (f : FileUtil) (data : Bytes) (calls : List Fwrite) :
    Accounts f data calls ↔ ErrorsEmpty data 0 f.ferror calls := by
  obtain ⟨hnone, hsome⟩ := appendLoop_spec (f := f) (Nat.zero_le data.length)
  constructor
  · rintro ⟨hwritten, -⟩
    cases hloop : appendLoop data 0 f calls with
    | none => exact hnone hloop
    | some r =>
      obtain ⟨hcount, accepted, hcontent, hiff⟩ := hsome r.1 r.2 hloop
      obtain ⟨accepted', hcontent', hcount'⟩ := hwritten _ (by rw [append, hloop]; rfl)
      cases List.append_cancel_left (hcontent.symm.trans hcontent')
      have hcount' : r.2.writtenbytes + r.1 = f.writtenbytes + accepted.length := hcount'
      exact hiff.mp (by omega)
  · intro hempty
    refine ⟨fun f' hf' => ?_, fun hprogress hlength => ?_⟩
    · obtain ⟨r, hloop, rfl⟩ := Option.map_eq_some_iff.mp hf'
      obtain ⟨hcount, accepted, hcontent, hiff⟩ := hsome r.1 r.2 hloop
      refine ⟨accepted, hcontent, ?_⟩
      rw [hcount, hiff.mpr hempty, Nat.zero_add]
    · rw [append, Option.isSome_map]
      exact appendLoop_isSome hprogress (by omega)

/-- The stream takes three bytes of five and reports an error. -/
theorem not_accounts : ¬∀ f data calls, Accounts f data calls := by
  intro hall
  obtain ⟨accepted, hcontent, hcount⟩ := (hall new (ascii "hello") [⟨3, true⟩]).written
    ⟨ascii "hel", false, 0⟩ (by decide)
  rw [new, List.nil_append] at hcontent
  rw [← hcontent] at hcount
  cases hcount

end FileUtil

end MuduoX
