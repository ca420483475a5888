import MuduoX.Cache.Orphans
import MuduoX.Theory.Double

/-! # `HashLfuCache` (`include/Lfu.h`)

A cache is cut into slices, and the hash of a key says which of them it goes to. The size of a slice
is computed in doubles, converted to `size_t`, and again to the `int` that `LfuCache` takes. A
conversion of a double that is out of range ends the construction in a fault. -/

namespace MuduoX

structure HashLfuCache (Key Value : Type*) where
  hash : Key → UInt64
  capacity : Nat
  sliceNum : Nat
  lfuSliceCaches : List (LfuCache Key Value)

namespace HashLfuCache

variable {Key Value : Type*} [DecidableEq Key] [Inhabited Key] [Inhabited Value]

/-- `hardwareConcurrency` is what `std::thread::hardware_concurrency()` returns. -/
def new (hash : Key → UInt64) (hardwareConcurrency capacity : Nat) (sliceNum maxAverageNum : Int) :
    Except Fault (HashLfuCache Key Value) :=
  let sliceNum := if sliceNum > 0 then sliceNum.toNat else hardwareConcurrency
  let sliceSize := Double.ceilDiv capacity sliceNum
  if sliceNum = 0 ∨ 2 ^ 64 ≤ sliceSize then .error .outOfRange
  else .ok ⟨hash, capacity, sliceNum,
    List.replicate sliceNum (.new (intOfSize sliceSize) maxAverageNum)⟩

def sliceIndex (s : HashLfuCache Key Value) (key : Key) : Nat := (s.hash key).toNat % s.sliceNum

/-- A call that goes to the slice of its key. -/
def onSlice (key : Key) (i : LfuInput Key Value) (s : HashLfuCache Key Value) :
    Except Fault (HashLfuCache Key Value × Option Value) :=
  match s.lfuSliceCaches[s.sliceIndex key]? with
  | none => .error .outOfBounds
  | some slice => (slice.call i).map fun r =>
    ({ s with lfuSliceCaches := s.lfuSliceCaches.set (s.sliceIndex key) r.1 }, r.2)

def put (key : Key) (value : Value) (walk : Traversal Key) (s : HashLfuCache Key Value) :
    Except Fault (HashLfuCache Key Value) :=
  (s.onSlice key (.put key value walk)).map Prod.fst

/-- `get(key, value)`: the value where it returns true. -/
def get (key : Key) (walk : Traversal Key) (s : HashLfuCache Key Value) :
    Except Fault (HashLfuCache Key Value × Option Value) :=
  s.onSlice key (.get key walk)

def purge (s : HashLfuCache Key Value) : HashLfuCache Key Value :=
  { s with lfuSliceCaches := s.lfuSliceCaches.map .purge }

def call (s : HashLfuCache Key Value) : LfuInput Key Value → Except Fault (HashLfuCache Key Value)
  | .put key value walk => s.put key value walk
  | .get key walk => (s.get key walk).map Prod.fst
  | .purge => .ok s.purge

/-- There is no call after a fault. -/
def step (r : Except Fault (HashLfuCache Key Value)) (i : LfuInput Key Value) :
    Option (Except Fault (HashLfuCache Key Value)) :=
  some (r.bind fun s => s.call i)

/-! ### What is answered -/

/-- What a call makes of the values put last, there being none behind a purge. -/
def remember (m : Key → Option Value) : LfuInput Key Value → Key → Option Value
  | .put key value _ => Function.update m key (some value)
  | .get _ _ => m
  | .purge => fun _ => none

def lastPut (is : List (LfuInput Key Value)) : Key → Option Value := is.foldl remember fun _ => none

/-- What a cache owes to its caller behind the calls `is`: it takes 2 ^ 31 calls to overflow an
`int`, and that is the only fault; a hit has the value put last; what has just been put is found. -/
structure Answers (is : List (LfuInput Key Value)) (s : HashLfuCache Key Value) : Prop where
  fault : ∀ i e, s.call i = .error e → e = .outOfRange ∧ 2 ^ 31 ≤ is.length + 1
  hit : ∀ key walk s' value, s.get key walk = .ok (s', some value) → lastPut is key = some value
  get_put : ∀ key value walk walk' s' s'' found, s.put key value walk = .ok s' →
    s'.get key walk' = .ok (s'', found) → found = some value

variable {s s' : HashLfuCache Key Value} {m : Key → Option Value} {key : Key} {value : Value}
  {n j : Nat}

/-- What of `m` belongs to a slice. -/
def routed (s : HashLfuCache Key Value) (m : Key → Option Value) (j : Nat) (key : Key) :
    Option Value :=
  if s.sliceIndex key = j then m key else none

omit [Inhabited Key] [Inhabited Value] in
theorem routed_update_self : s.routed (Function.update m key (some value)) (s.sliceIndex key) =
    Function.update (s.routed m (s.sliceIndex key)) key (some value) := by
  funext key'
  obtain rfl | hne := eq_or_ne key' key
  · rw [Function.update_self, routed, if_pos rfl, Function.update_self]
  · rw [Function.update_of_ne hne, routed, routed, Function.update_of_ne hne]

omit [Inhabited Key] [Inhabited Value] in
theorem routed_update_of_ne (hj : j ≠ s.sliceIndex key) :
    s.routed (Function.update m key (some value)) j = s.routed m j := by
  funext key'
  rw [routed, routed]
  split
  · rename_i hindex
    have hne : key' ≠ key := by
      rintro rfl
      exact hj hindex.symm
    rw [Function.update_of_ne hne]
  · rfl

theorem run_error {e : Fault} {is : List (LfuInput Key Value)} :
    Run.run step (.error e : Except Fault (HashLfuCache Key Value)) is = some (.error e) := by
  induction is with
  | nil => rfl
  | cons i is ih => exact Run.run_cons.mpr ⟨_, rfl, ih⟩

/-! ### Every slice is sound -/

/-- Every slice is sound for the keys that belong to it. -/
structure Sound (n : Nat) (m : Key → Option Value) (s : HashLfuCache Key Value) : Prop where
  sliceNum_pos : 0 < s.sliceNum
  length : s.lfuSliceCaches.length = s.sliceNum
  slice : ∀ {j} {slice : LfuCache Key Value}, s.lfuSliceCaches[j]? = some slice →
    slice.capacity ≠ 0 ∧ 1 ≤ slice.maxAverageNum ∧ ∃ L P, slice.Sound n (s.routed m j) L P

omit [Inhabited Key] [Inhabited Value] in
theorem Sound.lookup (h : Sound n m s) (key : Key) :
    ∃ slice, s.lfuSliceCaches[s.sliceIndex key]? = some slice := by
  refine ⟨_, List.getElem?_eq_getElem ?_⟩
  rw [h.length]
  exact Nat.mod_lt _ h.sliceNum_pos

omit [Inhabited Key] [Inhabited Value] in
/-- A new slice in the place of the one of `key`. -/
theorem Sound.set {m' : Key → Option Value} {slice slice' : LfuCache Key Value} (h : Sound n m s)
    (hslice : s.lfuSliceCaches[s.sliceIndex key]? = some slice) (hsame : slice.Same slice')
    (hm : ∀ j ≠ s.sliceIndex key, s.routed m' j = s.routed m j)
    (hsound : ∃ L P, slice'.Sound (n + 1) (s.routed m' (s.sliceIndex key)) L P) :
    Sound (n + 1) m'
      { s with lfuSliceCaches := s.lfuSliceCaches.set (s.sliceIndex key) slice' } where
  sliceNum_pos := h.sliceNum_pos
  length := (List.length_set ..).trans h.length
  slice {j t} ht := by
    change (s.lfuSliceCaches.set (s.sliceIndex key) slice')[j]? = some t at ht
    obtain rfl | hj := eq_or_ne j (s.sliceIndex key)
    · rw [List.getElem?_set_self (List.getElem?_eq_some_iff.mp hslice).1] at ht
      cases ht
      obtain ⟨hcapacity, hmax, -⟩ := h.slice hslice
      rw [hsame.capacity, hsame.maxAverageNum]
      exact ⟨hcapacity, hmax, hsound⟩
    · rw [List.getElem?_set_ne (Ne.symm hj)] at ht
      obtain ⟨hcapacity, hmax, L, P, hold⟩ := h.slice ht
      refine ⟨hcapacity, hmax, L, P, ?_⟩
      change t.Sound (n + 1) (s.routed m' j) L P
      rw [hm j hj]
      exact hold.succ

theorem Sound.onSlice {m' : Key → Option Value} {i : LfuInput Key Value}
    {Q : LfuCache Key Value → LfuCache Key Value × Option Value → Prop} (h : Sound n m s)
    (hm : ∀ j ≠ s.sliceIndex key, s.routed m' j = s.routed m j)
    (hcall : ∀ (slice : LfuCache Key Value) L P, slice.capacity ≠ 0 → 1 ≤ slice.maxAverageNum →
      slice.Sound n (s.routed m (s.sliceIndex key)) L P → Ends n (slice.call i) fun r =>
        (∃ L' P', r.1.Sound (n + 1) (s.routed m' (s.sliceIndex key)) L' P') ∧ slice.Same r.1 ∧
          Q slice r) :
    Ends n (s.onSlice key i) fun r => Sound (n + 1) m' r.1 ∧ ∃ slice slice',
      s.lfuSliceCaches[s.sliceIndex key]? = some slice ∧
      r.1 = { s with lfuSliceCaches := s.lfuSliceCaches.set (s.sliceIndex key) slice' } ∧
      Q slice (slice', r.2) := by
  obtain ⟨slice, hslice⟩ := h.lookup key
  obtain ⟨hcapacity, hmax, L, P, hsound⟩ := h.slice hslice
  rw [HashLfuCache.onSlice, hslice]
  refine (hcall slice L P hcapacity hmax hsound).map ?_
  rintro r ⟨hsound', hsame, hr⟩
  exact ⟨h.set hslice hsame hm hsound', slice, r.1, rfl, rfl, hr⟩

/-- A `put` leaves a node for its key in the slice of the key. -/
theorem Sound.put (h : Sound n m s) (key : Key) (value : Value) (walk : Traversal Key) :
    Ends n (s.put key value walk) fun s' => Sound (n + 1) (Function.update m key (some value)) s' ∧
      s'.sliceIndex = s.sliceIndex ∧ ∃ slice p, s'.lfuSliceCaches[s.sliceIndex key]? = some slice ∧
        slice.nodeMap.lookup key = some p := by
  have hm (j : Nat) (hj : j ≠ s.sliceIndex key) :
      s.routed (Function.update m key (some value)) j = s.routed m j := routed_update_of_ne hj
  refine (h.onSlice (i := .put key value walk)
    (Q := fun _ r => ∃ p, r.1.nodeMap.lookup key = some p) hm
    fun slice L P hcapacity hmax hsound => ?_).map ?_
  · rw [routed_update_self]
    exact (hsound.put hcapacity hmax key value walk).map fun t ht => ht
  · rintro ⟨_, found⟩ ⟨hsound, slice, slice', hslice, rfl, p, hp⟩
    refine ⟨hsound, rfl, slice', p, ?_, hp⟩
    exact List.getElem?_set_self (List.getElem?_eq_some_iff.mp hslice).1

/-- A `get` answers with what the slice of the key has. -/
theorem Sound.get (h : Sound n m s) (key : Key) (walk : Traversal Key) :
    Ends n (s.get key walk) fun r => Sound (n + 1) m r.1 ∧ ∃ slice,
      s.lfuSliceCaches[s.sliceIndex key]? = some slice ∧
      r.2 = (slice.nodeMap.lookup key).map fun p => (slice.node p).value := by
  refine (h.onSlice (i := .get key walk)
    (Q := fun slice r => r.2 = (slice.nodeMap.lookup key).map fun p => (slice.node p).value)
    (fun j _ => rfl) fun slice L P _ hmax hsound => hsound.get hmax key walk).imp_right ?_
  rintro ⟨r, hr, hsound, slice, slice', hslice, -, hfound⟩
  exact ⟨r, hr, hsound, slice, hslice, hfound⟩

omit [Inhabited Key] [Inhabited Value] in
theorem Sound.purge (h : Sound n m s) : Sound (n + 1) (fun _ => none) s.purge where
  sliceNum_pos := h.sliceNum_pos
  length := (List.length_map ..).trans h.length
  slice {j t} ht := by
    change (s.lfuSliceCaches.map .purge)[j]? = some t at ht
    rw [List.getElem?_map, Option.map_eq_some_iff] at ht
    obtain ⟨slice, hslice, rfl⟩ := ht
    obtain ⟨hcapacity, hmax, L, P, hsound⟩ := h.slice hslice
    refine ⟨hcapacity, hmax, fun _ => [], ∅, ?_⟩
    have hnone : s.purge.routed (fun _ => none) j = fun _ : Key => (none : Option Value) := by
      funext key
      exact ite_self _
    rw [hnone]
    exact hsound.purge

theorem Sound.call (h : Sound n m s) (i : LfuInput Key Value) :
    Ends n (s.call i) fun s' => Sound (n + 1) (remember m i) s' := by
  cases i with
  | put key value walk =>
    refine (h.put key value walk).imp_right ?_
    rintro ⟨s', hok, hsound, -⟩
    exact ⟨s', hok, hsound⟩
  | get key walk => exact (h.get key walk).map fun r hr => hr.1
  | purge => exact .inr ⟨_, rfl, h.purge⟩

omit [Inhabited Key] [Inhabited Value] in
/-- A cached value is one that has been put last. -/
theorem Sound.last_of_lookup {slice : LfuCache Key Value} {p : NodePtr} (h : Sound n m s)
    (hslice : s.lfuSliceCaches[j]? = some slice) (hp : slice.nodeMap.lookup key = some p) :
    m key = some (slice.node p).value := by
  obtain ⟨-, -, L, P, hsound⟩ := h.slice hslice
  have hvalue := (hsound.cached hp).2.2
  rw [routed] at hvalue
  split at hvalue
  · exact hvalue
  · cases hvalue

theorem Sound.toAnswers {is : List (LfuInput Key Value)} (h : Sound is.length (lastPut is) s) :
    Answers is s where
  fault i e herr := by
    obtain ⟨hover, hn⟩ | ⟨s', hok, -⟩ := h.call i
    · cases herr.symm.trans hover
      exact ⟨rfl, hn⟩
    · cases herr.symm.trans hok
  hit key walk s' value hget := by
    obtain ⟨hover, -⟩ | ⟨r, hok, -, slice, hslice, hfound⟩ := h.get key walk
    · cases hget.symm.trans hover
    · cases hget.symm.trans hok
      obtain ⟨p, hp, rfl⟩ := Option.map_eq_some_iff.mp hfound.symm
      exact h.last_of_lookup hslice hp
  get_put key value walk walk' s' s'' found hput hget := by
    obtain ⟨hover, -⟩ | ⟨_, hok, hsound, hindex, slice, p, hslice, hp⟩ := h.put key value walk
    · cases hput.symm.trans hover
    · cases hput.symm.trans hok
      obtain ⟨hover, -⟩ | ⟨r, hok', -, slice', hslice', hfound⟩ := hsound.get key walk'
      · cases hget.symm.trans hover
      · cases hget.symm.trans hok'
        rw [hindex, hslice] at hslice'
        cases hslice'
        have hvalue := hsound.last_of_lookup hslice hp
        rw [Function.update_self] at hvalue
        rw [show found = (slice.nodeMap.lookup key).map fun p => (slice.node p).value from hfound,
          hp, hvalue]
        rfl

theorem Sound.run {done is : List (LfuInput Key Value)} (h : Sound done.length (lastPut done) s)
    (hrun : Run.run step (.ok s) is = some (.ok s')) :
    Sound (done ++ is).length (lastPut (done ++ is)) s' := by
  induction is generalizing done s with
  | nil =>
    cases hrun
    rwa [List.append_nil]
  | cons i is ih =>
    obtain ⟨r, hr, hrun⟩ := Run.run_cons.mp hrun
    cases hr
    have hsucc : (done ++ [i]).length = done.length + 1 := List.length_append
    have hlast : lastPut (done ++ [i]) = remember (lastPut done) i := List.foldl_concat ..
    rw [List.append_cons]
    obtain ⟨hover, -⟩ | ⟨t, hok, hsound⟩ := h.call i
    · rw [Except.bind, hover, run_error] at hrun
      cases hrun
    · rw [Except.bind, hok] at hrun
      refine ih ?_ hrun
      rwa [hsucc, hlast]

/-! ### Which caches answer -/

omit [DecidableEq Key] in
theorem new_eq {hash : Key → UInt64} {hardwareConcurrency capacity : Nat}
    {sliceNum maxAverageNum : Int} (hslice : 1 ≤ sliceNum)
    (hlt : Double.ceilDiv capacity sliceNum.toNat < 2 ^ 64) :
    new hash hardwareConcurrency capacity sliceNum maxAverageNum =
      .ok (⟨hash, capacity, sliceNum.toNat, List.replicate sliceNum.toNat
        (.new (intOfSize (Double.ceilDiv capacity sliceNum.toNat)) maxAverageNum)⟩ :
          HashLfuCache Key Value) := by
  rw [new, if_pos (show sliceNum > 0 by omega)]
  exact if_neg (by omega)

theorem sound_replicate {hash : Key → UInt64} {capacity sliceNum : Nat} {size maxAverageNum : Int}
    (hslice : 0 < sliceNum) (hsize : size ≠ 0) (hmax : 1 ≤ maxAverageNum) :
    Sound 0 (fun _ => none) (⟨hash, capacity, sliceNum,
      List.replicate sliceNum (.new size maxAverageNum)⟩ : HashLfuCache Key Value) where
  sliceNum_pos := hslice
  length := List.length_replicate
  slice {j t} ht := by
    rw [List.eq_of_mem_replicate (List.mem_of_getElem? ht)]
    have hnone : routed (⟨hash, capacity, sliceNum, List.replicate sliceNum
        (.new size maxAverageNum)⟩ : HashLfuCache Key Value) (fun _ => none) j = fun _ => none := by
      funext key
      exact ite_self _
    rw [hnone]
    exact ⟨hsize, hmax, fun _ => [], ∅, LfuCache.sound_new size maxAverageNum⟩

theorem intOfSize_eq_zero_iff {len : Nat} : intOfSize len = 0 ↔ 2 ^ 32 ∣ len := by
  rw [intOfSize_eq_iff (by decide)]
  omega

/-- A slice of capacity 0 does not keep what is put. -/
theorem not_answers_zero (slice : LfuCache Key Value) (key : Key) (walk : Traversal Key)
    (hslice : s.lfuSliceCaches[s.sliceIndex key]? = some slice) (hcapacity : slice.capacity = 0)
    (hkey : slice.nodeMap.lookup key = none) : ¬Answers [] s := by
  have hput : s.put key default walk = .ok { s with
      lfuSliceCaches := s.lfuSliceCaches.set (s.sliceIndex key) slice } := by
    rw [HashLfuCache.put, onSlice, hslice]
    simp only [LfuCache.call, LfuCache.put, if_pos hcapacity]
    rfl
  have hslice' : (s.lfuSliceCaches.set (s.sliceIndex key) slice)[s.sliceIndex key]? = some slice :=
    List.getElem?_set_self (List.getElem?_eq_some_iff.mp hslice).1
  intro h
  have hget := h.get_put key default walk walk _ _ none hput (by
    rw [HashLfuCache.get, onSlice]
    change (match (s.lfuSliceCaches.set (s.sliceIndex key) slice)[s.sliceIndex key]? with
      | none => _
      | some slice => _) = _
    rw [hslice']
    simp only [LfuCache.call, LfuCache.get, hkey]
    rfl)
  cases hget

/-- The cache answers as it should in every run unless its slices, whose size the constructor
converts to `int`, come out with a capacity of 0. -/
theorem answers_iff (hash : Key → UInt64) (hardwareConcurrency : Nat) {capacity : Nat}
    {sliceNum maxAverageNum : Int} (hcapacity : 1 ≤ capacity) (hlt : capacity < 2 ^ 64)
    (hslice : 1 ≤ sliceNum) (hmax : 1 ≤ maxAverageNum) :
    (∃ s₀ : HashLfuCache Key Value,
      new hash hardwareConcurrency capacity sliceNum maxAverageNum = .ok s₀ ∧
      ∀ is s, Run.run step (.ok s₀) is = some (.ok s) → Answers is s) ↔
      ¬2 ^ 32 ∣ Double.ceilDiv capacity sliceNum.toNat := by
  have hpos : 0 < sliceNum.toNat := by omega
  have hle : Double.ceilDiv capacity sliceNum.toNat ≤ 2 ^ 64 :=
    Double.ceilDiv_le_two_pow hcapacity hpos hlt.le
  constructor
  · rintro ⟨s₀, hnew, hruns⟩ hdvd
    obtain hsize | hsize := Nat.lt_or_eq_of_le hle
    · rw [new_eq hslice hsize, intOfSize_eq_zero_iff.mpr hdvd] at hnew
      cases hnew
      refine not_answers_zero (.new 0 maxAverageNum) default ⟨id, fun _ => .refl _⟩ ?_ rfl rfl
        (hruns [] _ rfl)
      exact List.getElem?_replicate_of_lt (Nat.mod_lt _ hpos)
    · rw [new, if_pos (show sliceNum > 0 by omega)] at hnew
      simp only [hsize, Nat.le_refl, or_true, if_true] at hnew
      cases hnew
  · intro hdvd
    have hsize : Double.ceilDiv capacity sliceNum.toNat < 2 ^ 64 := by
      refine Nat.lt_of_le_of_ne hle fun heq => hdvd ?_
      rw [heq]
      decide
    refine ⟨_, new_eq hslice hsize, fun is s hrun => Sound.toAnswers ?_⟩
    have hzero := mt intOfSize_eq_zero_iff.mp hdvd
    exact Sound.run (show Sound ([] : List (LfuInput Key Value)).length (lastPut []) _ from
      sound_replicate hpos hzero hmax) hrun

theorem answers_four : ∃ s₀ : HashLfuCache Nat Nat, new (fun _ => 0) 1 4 2 10 = .ok s₀ ∧
    ∀ is s, Run.run step (.ok s₀) is = some (.ok s) → Answers is s := by
  refine (answers_iff (fun _ => 0) 1 (by decide) (by decide) (by decide) (by decide)).mpr ?_
  rw [Double.ceilDiv_eq (by decide) (by decide) (by decide)]
  decide

/-- One slice of 2 ^ 32 entries is one of none. -/
theorem not_answers : ∃ s₀ : HashLfuCache Nat Nat, new (fun _ => 0) 1 (2 ^ 32) 1 10 = .ok s₀ ∧
    ∃ is s, Run.run step (.ok s₀) is = some (.ok s) ∧ ¬Answers is s := by
  have hsize : Double.ceilDiv (2 ^ 32) (1 : Int).toNat = 2 ^ 32 := by
    rw [Double.ceilDiv_eq (by decide) (by decide) (by decide)]
    decide
  refine ⟨_, new_eq (by decide) ?_, [], _, rfl, ?_⟩
  · rw [hsize]
    decide
  · rw [hsize]
    exact not_answers_zero (.new 0 10) 5 ⟨id, fun _ => .refl _⟩ rfl rfl rfl

end HashLfuCache

end MuduoX
