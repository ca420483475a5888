import MuduoX.MachineInt
import MuduoX.Theory.LinkedList
import MuduoX.Theory.Run

/-! `FreqList` and `LfuCache` (`include/Lfu.h`).

A `shared_ptr<Node>` is an address on a heap of nodes, whose `pre` and `next` are kept apart from
what the node holds. An address is used once, so a node that nobody refers to any more needs no
`delete`. The order in which `nodeMap_` is walked is left open: each call comes with one. Following
a null pointer ends the call in a fault, and so does an `int` that overflows. -/

namespace MuduoX

def INT8_MAX : Int := 127

abbrev NodePtr := Nat

structure LfuNode (Key Value : Type*) where
  freq : Int
  key : Key
  value : Value

/-- `Node()`. -/
instance {Key Value : Type*} [Inhabited Key] [Inhabited Value] : Inhabited (LfuNode Key Value) :=
  ⟨⟨1, default, default⟩⟩

structure FreqList where
  freq : Int
  head : NodePtr
  tail : NodePtr

/-- An order to walk a map in. -/
abbrev Traversal (Key : Type*) := {walk : List Key → List Key // ∀ keys, (walk keys).Perm keys}

structure LfuCache (Key Value : Type*) where
  capacity : Int
  minFreq : Int
  maxAverageNum : Int
  curAverageNum : Int
  curTotalNum : Int
  nodeMap : AList fun _ : Key => NodePtr
  freqToFreqList : AList fun _ : Int => FreqList
  /-- The heap: nodes, their pointers, and the first address that has not been used. -/
  node : NodePtr → LfuNode Key Value
  links : Links NodePtr
  fresh : NodePtr

namespace LfuCache

variable {Key Value : Type*} [DecidableEq Key] [Inhabited Key] [Inhabited Value]

def new (capacity maxAverageNum : Int) : LfuCache Key Value where
  capacity := capacity
  minFreq := INT8_MAX
  maxAverageNum := maxAverageNum
  curAverageNum := 0
  curTotalNum := 0
  nodeMap := ∅
  freqToFreqList := ∅
  node := default
  links := ⟨fun _ => none, fun _ => none⟩
  fresh := 0

/-- `nodeMap_.size()`. -/
def size (s : LfuCache Key Value) : Nat := s.nodeMap.keys.length

/-! ### Lists -/

/-- `l->isEmpty()`. -/
def isEmpty (s : LfuCache Key Value) (l : FreqList) : Bool := s.links.next l.head = some l.tail

/-- `freqToFreqList_[n] = new FreqList(n)`. -/
def newFreqList (n : Int) (s : LfuCache Key Value) : FreqList × LfuCache Key Value :=
  let l : FreqList := ⟨n, s.fresh, s.fresh + 1⟩
  (l, { s with
    freqToFreqList := s.freqToFreqList.insert n l
    node := Function.update (Function.update s.node l.head default) l.tail default
    links := s.links.sentinels l.head l.tail
    fresh := s.fresh + 2 })

def removeFromFreqList (p : NodePtr) (s : LfuCache Key Value) : Except Fault (LfuCache Key Value) :=
  match s.freqToFreqList.lookup (s.node p).freq with
  | none => .error .nullPointer
  | some _ => .ok { s with links := s.links.unlink p }

def addToFreqList (p : NodePtr) (s : LfuCache Key Value) : Except Fault (LfuCache Key Value) :=
  let freq := (s.node p).freq
  let r := match s.freqToFreqList.lookup freq with
    | none => newFreqList freq s
    | some l => (l, s)
  match r.2.links.insertBefore r.1.tail p with
  | none => .error .nullPointer
  | some links => .ok { r.2 with links }

def setFreq (p : NodePtr) (freq : Int) (s : LfuCache Key Value) : LfuCache Key Value :=
  { s with node := Function.update s.node p { s.node p with freq } }

def setValue (p : NodePtr) (value : Value) (s : LfuCache Key Value) : LfuCache Key Value :=
  { s with node := Function.update s.node p { s.node p with value } }

/-! ### Aging -/

def updateMinFreq (s : LfuCache Key Value) : LfuCache Key Value :=
  let minFreq := s.freqToFreqList.entries.foldl
    (fun m pair => if s.isEmpty pair.2 then m else min m pair.1) INT8_MAX
  { s with minFreq := if minFreq = INT8_MAX then 1 else minFreq }

/-- What aging does to one node. Division of `int`s rounds towards zero. -/
def age (p : NodePtr) (s : LfuCache Key Value) : Except Fault (LfuCache Key Value) :=
  (s.removeFromFreqList p).bind fun s =>
  (int32 ((s.node p).freq - s.maxAverageNum.tdiv 2)).bind fun freq =>
    (s.setFreq p (if freq < 1 then 1 else freq)).addToFreqList p

def ageKey (s : LfuCache Key Value) (key : Key) : Except Fault (LfuCache Key Value) :=
  match s.nodeMap.lookup key with
  | none => .ok s
  | some p => s.age p

def handleOverMaxAverageNum (walk : Traversal Key) (s : LfuCache Key Value) :
    Except Fault (LfuCache Key Value) :=
  if s.size = 0 then .ok s
  else ((walk.1 s.nodeMap.keys).foldlM ageKey s).map updateMinFreq

/-! ### Counters -/

/-- `curTotalNum_ / nodeMap_.size()`, as an `int`: the division is one of `size_t`. -/
def average (total : Int) (size : Nat) : Int :=
  if size = 0 then 0 else (total % 2 ^ 64 / size).bmod (2 ^ 32)

def addFreqNum (walk : Traversal Key) (s : LfuCache Key Value) :
    Except Fault (LfuCache Key Value) :=
  (int32 (s.curTotalNum + 1)).bind fun total =>
    let s := { s with curTotalNum := total, curAverageNum := average total s.size }
    if s.curAverageNum > s.maxAverageNum then s.handleOverMaxAverageNum walk else .ok s

def decreaseFreqNum (num : Int) (s : LfuCache Key Value) : Except Fault (LfuCache Key Value) :=
  (int32 (s.curTotalNum - num)).map fun total =>
    { s with curTotalNum := total, curAverageNum := average total s.size }

/-! ### Access -/

/-- `freqToFreqList_[node->freq - 1]` is looked at only for `minFreq_`. -/
def raiseMinFreq (p : NodePtr) (s : LfuCache Key Value) : Except Fault (LfuCache Key Value) :=
  if (s.node p).freq - 1 = s.minFreq then
    match s.freqToFreqList.lookup ((s.node p).freq - 1) with
    | none => .error .nullPointer
    | some l => .ok (if s.isEmpty l then { s with minFreq := s.minFreq + 1 } else s)
  else .ok s

/-- `getInternal` up to the counters. -/
def promote (p : NodePtr) (s : LfuCache Key Value) : Except Fault (LfuCache Key Value) :=
  (s.removeFromFreqList p).bind fun s =>
  (int32 ((s.node p).freq + 1)).bind fun freq =>
  ((s.setFreq p freq).addToFreqList p).bind fun s => s.raiseMinFreq p

def getInternal (p : NodePtr) (walk : Traversal Key) (s : LfuCache Key Value) :
    Except Fault (LfuCache Key Value × Value) :=
  let value := (s.node p).value
  (s.promote p).bind fun s => (s.addFreqNum walk).map fun s => (s, value)

def kickOut (s : LfuCache Key Value) : Except Fault (LfuCache Key Value) :=
  match s.freqToFreqList.lookup s.minFreq with
  | none => .error .nullPointer
  | some l =>
    match s.links.next l.head with
    | none => .error .nullPointer
    | some p =>
      (s.removeFromFreqList p).bind fun s =>
        { s with nodeMap := s.nodeMap.erase (s.node p).key }.decreaseFreqNum (s.node p).freq

/-- `nodeMap_[key] = std::make_shared<Node>(key, value)`. -/
def insertNode (key : Key) (value : Value) (s : LfuCache Key Value) : LfuCache Key Value :=
  { s with
    nodeMap := s.nodeMap.insert key s.fresh
    node := Function.update s.node s.fresh ⟨1, key, value⟩
    links := (s.links.setPre s.fresh none).setNext s.fresh none
    fresh := s.fresh + 1 }

/-- `putInternal` behind the eviction. -/
def putNode (key : Key) (value : Value) (walk : Traversal Key) (s : LfuCache Key Value) :
    Except Fault (LfuCache Key Value) :=
  ((s.insertNode key value).addToFreqList s.fresh).bind fun s =>
  (s.addFreqNum walk).map fun s => { s with minFreq := min s.minFreq 1 }

/-- A negative capacity is the size of no map, as an `int` and as the `size_t` that it is compared
as. -/
def putInternal (key : Key) (value : Value) (walk : Traversal Key) (s : LfuCache Key Value) :
    Except Fault (LfuCache Key Value) :=
  (if (s.size : Int) = s.capacity then s.kickOut else .ok s).bind (putNode key value walk)

def put (key : Key) (value : Value) (walk : Traversal Key) (s : LfuCache Key Value) :
    Except Fault (LfuCache Key Value) :=
  if s.capacity = 0 then .ok s
  else
    match s.nodeMap.lookup key with
    | some p => ((s.setValue p value).getInternal p walk).map Prod.fst
    | none => s.putInternal key value walk

/-- `get(key, value)`: the value where it returns true. -/
def get (key : Key) (walk : Traversal Key) (s : LfuCache Key Value) :
    Except Fault (LfuCache Key Value × Option Value) :=
  match s.nodeMap.lookup key with
  | some p => (s.getInternal p walk).map fun r => (r.1, some r.2)
  | none => .ok (s, none)

def purge (s : LfuCache Key Value) : LfuCache Key Value :=
  { s with nodeMap := ∅, freqToFreqList := ∅ }

end LfuCache

/-- A call, with the order in which it walks the map if it has to. -/
inductive LfuInput (Key Value : Type*) where
  | put (key : Key) (value : Value) (walk : Traversal Key)
  | get (key : Key) (walk : Traversal Key)
  | purge

namespace LfuCache

variable {Key Value : Type*} [DecidableEq Key] [Inhabited Key] [Inhabited Value]

/-- A call and what it finds. -/
def call (s : LfuCache Key Value) : LfuInput Key Value →
    Except Fault (LfuCache Key Value × Option Value)
  | .put key value walk => (s.put key value walk).map (·, none)
  | .get key walk => s.get key walk
  | .purge => .ok (s.purge, none)

/-- A call, behind the results of the calls so far. There is no call after a fault. -/
def step (r : Except Fault (LfuCache Key Value × List (Option Value))) (i : LfuInput Key Value) :
    Option (Except Fault (LfuCache Key Value × List (Option Value))) :=
  some (r.bind fun x => (x.1.call i).map fun y => (y.1, x.2 ++ [y.2]))

/-- What is asked of the cache before each call. -/
def Before (G : LfuCache Key Value → LfuInput Key Value → Prop)
    (r : Except Fault (LfuCache Key Value × List (Option Value))) (i : LfuInput Key Value) : Prop :=
  ∀ x, r = .ok x → G x.1 i

end LfuCache

end MuduoX
