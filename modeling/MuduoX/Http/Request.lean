import MuduoX.Bytes
import MuduoX.TimeStamp

/-! `HttpRequest` (`http/HttpRequest.h`): what the parser has gathered of one request.

A setter takes the range of buffer bytes it copies from as two offsets; a null pointer is
`none`. `addHeader` is the only setter that does more than copy. -/

namespace MuduoX

abbrev HeaderMap := Std.ExtTreeMap Bytes Bytes

inductive Method where
  | kInvalid | kGet | kPost | kHead | kPut | kDelete
  deriving DecidableEq, Repr

inductive Version where
  | kUnknown | kHttp10 | kHttp11
  deriving DecidableEq, Repr

structure HttpRequest where
  method : Method
  version : Version
  path : Bytes
  query : Bytes
  receiveTime : Timestamp
  headers : HeaderMap
  body : Bytes
  deriving DecidableEq

/-- `std::string(first, last)` for two pointers into the buffer. Two null pointers are the empty
range; one null pointer, or a range that runs backwards, is no range at all. -/
def cstring (bs : Bytes) : Option Nat → Option Nat → Except Fault Bytes
  | some first, some last =>
    if first ≤ last then .ok (slice bs first last) else .error .outOfBounds
  | none, none => .ok []
  | _, _ => .error .nullPointer

namespace HttpRequest

/-- `HttpRequest()`. -/
def new : HttpRequest where
  method := .kInvalid
  version := .kUnknown
  path := []
  query := []
  receiveTime := 0
  headers := ∅
  body := []

/-- The method a token spells. Anything else is `kInvalid`. -/
def methodOf (m : Bytes) : Method :=
  if m = ascii "GET" then .kGet
  else if m = ascii "POST" then .kPost
  else if m = ascii "HEAD" then .kHead
  else if m = ascii "PUT" then .kPut
  else if m = ascii "DELETE" then .kDelete
  else .kInvalid

/-- `setMethod`: the flag says whether the method is one of the five known ones. -/
def setMethod (r : HttpRequest) (m : Bytes) : Bool × HttpRequest :=
  (methodOf m != .kInvalid, { r with method := methodOf m })

def setVersion (r : HttpRequest) (v : Version) : HttpRequest := { r with version := v }
def setPath (r : HttpRequest) (p : Bytes) : HttpRequest := { r with path := p }
def setQuery (r : HttpRequest) (q : Bytes) : HttpRequest := { r with query := q }
def setReceiveTime (r : HttpRequest) (t : Timestamp) : HttpRequest := { r with receiveTime := t }
def setBody (r : HttpRequest) (b : Bytes) : HttpRequest := { r with body := b }

/-- `headers_[field] = value`. -/
def setHeader (r : HttpRequest) (field value : Bytes) : HttpRequest :=
  { r with headers := r.headers.insert field value }

/-- The value of a field: leading and trailing white space removed. -/
def trim (v : Bytes) : Bytes := (v.dropWhile isspace).rdropWhile isspace

/-- `addHeader(start, colon, end)`: the field and the value that it cuts out of the buffer and
stores with `headers_[field] = value`. -/
def addHeader (bs : Bytes) (start colon last : Option Nat) : Except Fault (Bytes × Bytes) := do
  let field ← cstring bs start colon
  match colon with
  | none => .error .nullPointer -- `++colon`
  | some colon =>
    let value ← cstring bs (some (colon + 1)) last
    return (field, trim value)

/-- `getHeader(field)`: the empty string when the field is absent. -/
def getHeader (r : HttpRequest) (field : Bytes) : Bytes := r.headers.getD field []

def methodString (r : HttpRequest) : Bytes :=
  match r.method with
  | .kGet => ascii "GET"
  | .kPost => ascii "POST"
  | .kHead => ascii "HEAD"
  | .kPut => ascii "PUT"
  | .kDelete => ascii "DELETE"
  | .kInvalid => ascii "UNKNOWN"

/-- `swap(that)`: every member is exchanged but `receiveTime`, which is only copied from `that`.
The pair is the receiver and `that` afterwards. -/
def swap (r that : HttpRequest) : HttpRequest × HttpRequest :=
  (that, { r with receiveTime := that.receiveTime })

/-- `setMethod` reads back what `methodString` writes. -/
theorem methodOf_methodString (r : HttpRequest) : methodOf r.methodString = r.method := by
  unfold methodString
  cases r.method <;> decide

/-- Three positions of the call's own range delimit a field. -/
theorem addHeader_eq {bs : Bytes} {start colon last : Nat} (h₁ : start ≤ colon)
    (h₂ : colon + 1 ≤ last) :
    addHeader bs (some start) (some colon) (some last) =
      .ok (slice bs start colon, trim (slice bs (colon + 1) last)) := by
  simp [addHeader, cstring, h₁, h₂]
  rfl

/-! ### Fields stored one after another -/

def addFields (r : HttpRequest) (fields : List (Bytes × Bytes)) : HttpRequest :=
  fields.foldl (fun r f => r.setHeader f.1 f.2) r

@[simp] theorem addFields_nil (r : HttpRequest) : r.addFields [] = r := rfl

@[simp] theorem addFields_cons (r : HttpRequest) (f : Bytes × Bytes)
    (fields : List (Bytes × Bytes)) :
    r.addFields (f :: fields) = (r.setHeader f.1 f.2).addFields fields := rfl

theorem addFields_append (r : HttpRequest) (fs gs : List (Bytes × Bytes)) :
    r.addFields (fs ++ gs) = (r.addFields fs).addFields gs := by
  simp [addFields]

/-- The value a list of fields leaves under a name: the last one stored. -/
def fieldValue (name : Bytes) : List (Bytes × Bytes) → Option Bytes
  | [] => none
  | f :: fields => (fieldValue name fields).or (if f.1 = name then some f.2 else none)

theorem fieldValue_mem {name v : Bytes} {fields : List (Bytes × Bytes)}
    (h : fieldValue name fields = some v) : (name, v) ∈ fields := by
  induction fields with
  | nil => cases h
  | cons f fields ih =>
    rw [fieldValue] at h
    obtain hrest | ⟨w, hrest⟩ := Option.eq_none_or_eq_some (fieldValue name fields)
    · rw [hrest, Option.none_or] at h
      split at h <;> cases h
      rename_i hname
      exact hname ▸ List.mem_cons_self
    · rw [hrest, Option.some_or] at h
      cases h
      exact List.mem_cons_of_mem f (ih hrest)

theorem fieldValue_eq_none {name : Bytes} {fields : List (Bytes × Bytes)}
    (h : fieldValue name fields = none) : ∀ f ∈ fields, f.1 ≠ name := by
  induction fields with
  | nil => simp
  | cons f fields ih =>
    rw [fieldValue, Option.or_eq_none_iff] at h
    intro g hg
    rcases List.mem_cons.mp hg with rfl | hg
    · intro hname
      simp [hname] at h
    · exact ih h.1 g hg

/-- Storing fields touches nothing but the header map. -/
theorem addFields_eq (r : HttpRequest) (fields : List (Bytes × Bytes)) :
    r.addFields fields = { r with headers := (r.addFields fields).headers } := by
  induction fields generalizing r with
  | nil => rfl
  | cons f fields ih => rw [addFields_cons, ih]; rfl

theorem addFields_getElem? (r : HttpRequest) (fields : List (Bytes × Bytes)) (name : Bytes) :
    (r.addFields fields).headers[name]? = (fieldValue name fields).or r.headers[name]? := by
  induction fields generalizing r with
  | nil => simp [fieldValue]
  | cons f fields ih =>
    rw [addFields_cons, ih, fieldValue, Option.or_assoc]
    congr 1
    simp only [setHeader, Std.ExtTreeMap.getElem?_insert, Std.LawfulEqOrd.compare_eq_iff_eq]
    split <;> rfl

/-- Two header maps over one request are the same request when they agree on every name. -/
theorem ext_headers {r r' : HttpRequest} (h : r' = { r with headers := r'.headers })
    (hh : ∀ name : Bytes, r.headers[name]? = r'.headers[name]?) : r = r' := by
  rw [h, ← Std.ExtTreeMap.ext_getElem? hh]

/-- Storing the same fields again changes nothing. -/
theorem addFields_addFields_self (r : HttpRequest) (fields : List (Bytes × Bytes)) :
    (r.addFields fields).addFields fields = r.addFields fields := by
  refine (ext_headers (addFields_eq _ _) fun name => ?_).symm
  rw [addFields_getElem? (r.addFields fields), addFields_getElem?]
  cases fieldValue name fields <;> simp

/-! ### Trimming -/

theorem dropWhile_isspace_of_head {b : Byte} {v : Bytes} (h : isspace b = false) :
    (b :: v).dropWhile isspace = b :: v := by
  simp [h]

/-- A value free of outer white space is kept. -/
theorem trim_eq_self {v : Bytes} (h₁ : ∀ b ∈ v.head?, isspace b = false)
    (h₂ : ∀ b ∈ v.getLast?, isspace b = false) : trim v = v := by
  have hd : v.dropWhile isspace = v := by
    cases v with
    | nil => rfl
    | cons b v => exact dropWhile_isspace_of_head (h₁ b rfl)
  rw [trim, hd, List.rdropWhile_eq_self_iff]
  intro hne
  simpa using h₂ _ (List.getLast?_eq_some_getLast hne)

theorem trim_cons_of_isspace {b : Byte} (h : isspace b) (v : Bytes) : trim (b :: v) = trim v := by
  rw [trim, trim, List.dropWhile_cons_of_pos h]

/-- The blank after the colon is not part of the value. -/
@[simp] theorem trim_cons_space (v : Bytes) : trim (space :: v) = trim v :=
  trim_cons_of_isspace (by decide) v

@[simp] theorem trim_append_CR (v : Bytes) : trim (v ++ [CR]) = trim v := by
  have hcr : isspace CR := by decide
  rw [trim, trim, List.dropWhile_append]
  split
  · rename_i h
    rw [List.isEmpty_iff.mp h]
    simp [hcr]
  · exact List.rdropWhile_concat_pos _ _ _ hcr

theorem mem_of_mem_trim {b : Byte} {v : Bytes} (h : b ∈ trim v) : b ∈ v :=
  (List.dropWhile_sublist _).subset ((List.rdropWhile_prefix _ _).subset h)

theorem head_trim (v : Bytes) : ∀ b ∈ (trim v).head?, isspace b = false := by
  intro b hb
  obtain ⟨rest, hrest⟩ := List.head?_eq_some_iff.mp hb
  have hhead := List.head?_dropWhile_not isspace v
  obtain ⟨tail, htail⟩ := List.rdropWhile_prefix isspace (v.dropWhile isspace)
  rw [← htail, show (v.dropWhile isspace).rdropWhile isspace = b :: rest from hrest] at hhead
  exact hhead

theorem getLast_trim (v : Bytes) : ∀ b ∈ (trim v).getLast?, isspace b = false := by
  intro b hb
  obtain ⟨hne, hlast⟩ := List.mem_getLast?_eq_getLast hb
  have hnot := List.rdropWhile_last_not isspace (v.dropWhile isspace) hne
  rw [hlast]
  exact Bool.eq_false_iff.mpr hnot

end HttpRequest

end MuduoX
