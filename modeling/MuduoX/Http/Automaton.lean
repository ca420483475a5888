import MuduoX.Http.HeaderLine

/-! The header automaton without its positions.

`turn` is the transition function that the `switch` of `parseHeaders` computes and `scan` its run.
As long as the positions that a state works with have been set by the same call (`Ready`), a scan
uses no null pointer, and how it ends is what `scan` says. -/

namespace MuduoX
namespace HttpContext

/-- What one byte does to the state. -/
inductive Turn where
  | next (h : ParseState)
  | error
  | success
  deriving DecidableEq

def turn : ParseState → Byte → Turn
  | .start, ch => if ch = LF ∨ ch = CR then .next .start else .next .key
  | .key, ch =>
    if ch = colon then .next .colon else if ch = LF ∨ ch = CR then .error else .next .key
  | .colon, ch => if ch = space then .next .spacesAfterColon else .error
  | .spacesAfterColon, _ => .next .value
  | .value, ch => if ch = CR then .next .cr else if ch = LF then .next .lf else .next .value
  | .cr, ch => if ch = LF then .next .lf else .error
  | .lf, ch => if ch = CR then .next .endCR else .next .key
  | .endCR, ch => if ch = LF then .success else .error
  | .endLF, _ => .next .endLF

/-- How a scan ends. -/
inductive Verdict where
  | again (h : ParseState)
  | error
  | success
  deriving DecidableEq

def scan : ParseState → Bytes → Verdict
  | h, [] => .again h
  | h, ch :: rest =>
    match turn h ch with
    | .next h => scan h rest
    | .error => .error
    | .success => .success

def HeaderResult.verdict : HeaderResult → Verdict
  | .again s _ => .again s.hState
  | .error _ _ => .error
  | .success _ _ => .success

/-- At offset `k` the positions that the state works with are set, and in their order. -/
inductive HeaderScan.Ready (k : Nat) : HeaderScan → Prop
  | outside {s} : s.hState = .start ∨ s.hState = .lf ∨ s.hState = .endCR ∨ s.hState = .endLF →
    Ready k s
  | key {i} {ke vs ve : Option Nat} : i < k → Ready k ⟨.key, some i, ke, vs, ve⟩
  | colon {i j} {vs ve : Option Nat} : i ≤ j → j < k → Ready k ⟨.colon, some i, some j, vs, ve⟩
  | spacesAfterColon {i j} {vs ve : Option Nat} : i ≤ j → j + 1 < k →
    Ready k ⟨.spacesAfterColon, some i, some j, vs, ve⟩
  | value {i j v} {ve : Option Nat} : i ≤ j → j + 1 < v → v < k →
    Ready k ⟨.value, some i, some j, some v, ve⟩
  | cr {i j v e} : i ≤ j → j + 1 < v → v ≤ e → e < k →
    Ready k ⟨.cr, some i, some j, some v, some e⟩

variable {bytes rest : Bytes} {k : Nat} {ch : Byte} {s : HeaderScan} {req : HttpRequest}

/-- What the step leads to, as the transition function has it. -/
inductive Follows (bytes : Bytes) (k : Nat) (ch : Byte) (s : HeaderScan) : Turn → Prop
  | next {s' : HeaderScan} {stored : Option (Bytes × Bytes)} :
    headerStep bytes k ch s = .ok (.next s' stored) → s'.Ready (k + 1) →
    Follows bytes k ch s (.next s'.hState)
  | error : headerStep bytes k ch s = .ok .error → Follows bytes k ch s .error
  | success : headerStep bytes k ch s = .ok .success → Follows bytes k ch s .success

theorem Follows.of_eq {s' : HeaderScan} {stored : Option (Bytes × Bytes)} {h : ParseState}
    (hstep : headerStep bytes k ch s = .ok (.next s' stored)) (hready : s'.Ready (k + 1))
    (hh : s'.hState = h) : Follows bytes k ch s (.next h) :=
  hh ▸ .next hstep hready

/-- The byte stores no field. -/
theorem Follows.moves (s' : HeaderScan) {h : ParseState}
    (hstep : headerStep bytes k ch s = .ok (.next s' none)) (hready : s'.Ready (k + 1))
    (hh : s'.hState = h) : Follows bytes k ch s (.next h) :=
  .of_eq hstep hready hh

theorem HeaderScan.Ready.follows (h : s.Ready k) (bytes : Bytes) (ch : Byte) :
    Follows bytes k ch s (turn s.hState ch) := by
  cases h with
  | outside hs =>
    obtain hs | hs | hs | hs := hs <;> rw [hs, turn]
    · split
      case isTrue hch =>
        exact .moves s (by simp only [headerStep, hs, if_pos hch]) (.outside (.inl hs)) hs
      case isFalse hch =>
        exact .moves { s with hState := .key, keyStart := some k }
          (by simp only [headerStep, hs, if_neg hch]) (.key (Nat.lt_succ_self k)) rfl
    · split
      case isTrue hch =>
        exact .moves { s with hState := .endCR } (by simp only [headerStep, hs, if_pos hch])
          (.outside (.inr (.inr (.inl rfl)))) rfl
      case isFalse hch =>
        exact .moves { s with hState := .key, keyStart := some k }
          (by simp only [headerStep, hs, if_neg hch]) (.key (Nat.lt_succ_self k)) rfl
    · split
      case isTrue hch => exact .success (by simp only [headerStep, hs, if_pos hch])
      case isFalse hch => exact .error (by simp only [headerStep, hs, if_neg hch])
    · exact .moves s (by simp only [headerStep, hs]) (.outside (.inr (.inr (.inr hs)))) hs
  | @key i ke vs ve hi =>
    rw [turn]
    split
    case isTrue hch =>
      subst hch
      exact .of_eq (headerStep_colon rfl rfl hi.le) (.colon hi.le (Nat.lt_succ_self k)) rfl
    case isFalse hch =>
      split
      case isTrue hend => exact .error (by simp only [headerStep, if_neg hch, if_pos hend])
      case isFalse hend =>
        exact .moves _ (by simp only [headerStep, if_neg hch, if_neg hend]; rfl)
          (.key (Nat.lt_succ_of_lt hi)) rfl
  | colon hij hj =>
    rw [turn]
    split
    case isTrue hch =>
      subst hch
      exact .of_eq (headerStep_blank rfl rfl (by omega))
        (.spacesAfterColon hij (Nat.succ_lt_succ hj)) rfl
    case isFalse hch => exact .error (by simp only [headerStep, if_neg hch])
  | spacesAfterColon hij hj =>
    exact .of_eq (headerStep_valueFirst rfl) (.value hij hj (Nat.lt_succ_self k)) rfl
  | value hij hjv hv =>
    rw [turn]
    split
    case isTrue hch =>
      subst hch
      exact .of_eq (headerStep_valueCR rfl rfl hv.le) (.cr hij hjv hv.le (Nat.lt_succ_self k)) rfl
    case isFalse hcr =>
      split
      case isTrue hch =>
        subst hch
        exact .of_eq (headerStep_valueLF rfl rfl hv.le
          (HttpRequest.addHeader_eq hij (hjv.le.trans hv.le))) (.outside (.inr (.inl rfl))) rfl
      case isFalse hlf =>
        exact .moves _ (by simp only [headerStep, if_neg hcr, if_neg hlf]; rfl)
          (.value hij hjv (Nat.lt_succ_of_lt hv)) rfl
  | cr hij hjv hve he =>
    rw [turn]
    split
    case isTrue hch =>
      subst hch
      exact .of_eq (headerStep_crLF rfl rfl rfl hve
        (HttpRequest.addHeader_eq hij (hjv.le.trans hve))) (.outside (.inr (.inl rfl))) rfl
    case isFalse hch => exact .error (by simp only [headerStep, if_neg hch])

/-- A scan with its positions set uses no null pointer and ends as the transition function says. -/
theorem HeaderScan.Ready.headerLoop (h : s.Ready k) (bytes rest : Bytes) (req : HttpRequest) :
    ∃ r, headerLoop bytes rest k s req = .ok r ∧ r.verdict = scan s.hState rest := by
  induction rest generalizing k s req with
  | nil => exact ⟨_, rfl, rfl⟩
  | cons ch rest ih =>
    rw [scan]
    have hfollows := h.follows bytes ch
    generalize turn s.hState ch = t at hfollows
    cases hfollows with
    | next hstep hready =>
      rw [headerLoop_next hstep]
      exact ih hready _
    | error hstep => exact ⟨_, headerLoop_error hstep, rfl⟩
    | success hstep => exact ⟨_, headerLoop_success hstep, rfl⟩

theorem headerLoop_start (bytes : Bytes) (req : HttpRequest) :
    ∃ r, headerLoop bytes bytes 0 (.enter .start) req = .ok r ∧ r.verdict = scan .start bytes :=
  HeaderScan.Ready.headerLoop (.outside (.inl rfl)) bytes bytes req

end HttpContext
end MuduoX
