import MuduoX.Net.Channel
import MuduoX.Theory.Run

/-! The table of connections of a `TcpServer`, and the loops that they are given
(`src/TcpServer.cpp`, `src/EventLoopThreadPool.cpp`).

The table is keyed by names that a counter makes different, and the loops are taken in turn by
another counter. Both counters are `int`s here, as the source has them: they wrap. -/

namespace MuduoX

/-- A connection as `newConnection` makes it. -/
structure Conn where
  name : String
  ioLoop : LoopId
  deriving DecidableEq

/-- The part of `TcpServer` and of its `EventLoopThreadPool` that `newConnection` and
`removeConnectionInLoop` use. A connection stands in the table as its number in `conns`. -/
structure ConnectionTable where
  name : String
  ipPort : String
  loops : List LoopId
  next : BitVec 32
  nextConnId : BitVec 32
  connections : String → Option Nat
  /-- ghost: every connection ever made -/
  conns : List Conn
  /-- ghost: those for which `removeConnectionInLoop` has run -/
  removed : List Nat

namespace ConnectionTable

def new (name ipPort : String) (loops : List LoopId) : ConnectionTable where
  name := name
  ipPort := ipPort
  loops := loops
  next := 0
  nextConnId := 1
  connections _ := none
  conns := []
  removed := []

/-- `next_ % loops_.size()`: the `int` becomes a `size_t`. -/
def loopIndex (next : BitVec 32) (size : Nat) : Nat := (next.signExtend 64).toNat % size

def getNextLoop (t : ConnectionTable) : LoopId × ConnectionTable :=
  if t.loops ≠ [] then
    (t.loops.getD (loopIndex t.next t.loops.length) baseLoop, { t with next := t.next + 1 })
  else (baseLoop, t)

/-- `name_` and the text that `snprintf` writes; `buf` is long enough for it. -/
def connName (name ipPort : String) (connId : BitVec 32) : String :=
  name ++ ("-" ++ ipPort ++ "#" ++ toString connId.toInt)

def newConnection (t : ConnectionTable) : ConnectionTable :=
  let (ioLoop, t) := t.getNextLoop
  let connName := connName t.name t.ipPort t.nextConnId
  { t with
    nextConnId := t.nextConnId + 1
    connections := Function.update t.connections connName (some t.conns.length)
    conns := t.conns ++ [⟨connName, ioLoop⟩] }

def removeConnectionInLoop (id : Nat) (conn : Conn) (t : ConnectionTable) : ConnectionTable :=
  { t with connections := Function.update t.connections conn.name none, removed := id :: t.removed }

inductive Input where
  | newConnection
  | removeConnectionInLoop (id : Nat)
  deriving DecidableEq

def step (t : ConnectionTable) : Input → Option ConnectionTable
  | .newConnection => some t.newConnection
  | .removeConnectionInLoop id => (t.conns[id]?).map fun conn => t.removeConnectionInLoop id conn

/-- The table holds the connections that have been made and not been removed, each under its own
name. -/
def Exact (t : ConnectionTable) : Prop :=
  ∀ n id, t.connections n = some id ↔
    ∃ conn, t.conns[id]? = some conn ∧ conn.name = n ∧ id ∉ t.removed

/-- As many connections as there are loops, made one after the other, are in different loops. -/
def RoundRobin (t : ConnectionTable) : Prop :=
  ∀ j, j + t.loops.length ≤ t.conns.length →
    (((t.conns.drop j).take t.loops.length).map Conn.ioLoop).Nodup

/-- No connection that is not removed was made a multiple of 2³² connections before the new one, or
before or after one that is removed again. -/
def NoReuse (t : ConnectionTable) : Input → Prop
  | .newConnection => ∀ k < t.conns.length, k ∉ t.removed → k % 2 ^ 32 ≠ t.conns.length % 2 ^ 32
  | .removeConnectionInLoop id =>
    id ∈ t.removed → ∀ k < t.conns.length, k ∉ t.removed → k % 2 ^ 32 ≠ id % 2 ^ 32

/-- Where `next_` wraps, or changes its sign, the number of loops divides the step that it makes as a
`size_t`. -/
def InTurn (t : ConnectionTable) : Input → Prop
  | .newConnection => (t.next = .intMin 32 → t.loops.length ∣ 2 ^ 64 - 2 ^ 32) ∧
      (t.next = 0 → t.conns ≠ [] → t.loops.length ∣ 2 ^ 64)
  | .removeConnectionInLoop _ => True

instance (t : ConnectionTable) : ∀ i, Decidable (t.NoReuse i)
  | .newConnection => inferInstanceAs (Decidable (∀ k < _, _ → _))
  | .removeConnectionInLoop _ => inferInstanceAs (Decidable (_ → ∀ k < _, _ → _))

instance (t : ConnectionTable) : ∀ i, Decidable (t.InTurn i)
  | .newConnection => inferInstanceAs (Decidable (_ ∧ _))
  | .removeConnectionInLoop _ => isTrue trivial

/-! ### Numbers and names -/

variable {t t' : ConnectionTable} {name ipPort : String} {id k size : Nat} {conn : Conn}

theorem connName_inj {m n : BitVec 32} : connName name ipPort m = connName name ipPort n ↔ m = n := by
  rw [connName, connName, String.append_right_inj, String.append_right_inj]
  exact Int.repr_inj.trans BitVec.toInt_inj

theorem ofNat_eq_iff {a b : Nat} :
    BitVec.ofNat 32 a = BitVec.ofNat 32 b ↔ a % 2 ^ 32 = b % 2 ^ 32 := by
  rw [← BitVec.toNat_inj, BitVec.toNat_ofNat, BitVec.toNat_ofNat]

theorem ofNat_succ_eq_iff {a b : Nat} :
    BitVec.ofNat 32 (a + 1) = BitVec.ofNat 32 (b + 1) ↔ a % 2 ^ 32 = b % 2 ^ 32 := by
  rw [ofNat_eq_iff]
  omega

/-- A negative `next_` is a large `size_t`. -/
theorem toNat_signExtend (x : BitVec 32) : (x.signExtend 64).toNat =
    if 2 ^ 31 ≤ x.toNat then x.toNat + (2 ^ 64 - 2 ^ 32) else x.toNat := by
  have hx := x.isLt
  rw [BitVec.toNat_signExtend, BitVec.toNat_setWidth, Nat.mod_eq_of_lt (by omega),
    BitVec.msb_eq_decide]
  simp only [decide_eq_true_eq]
  split <;> rfl

/-- The index goes up by one, except where `next_` wraps or changes its sign. -/
theorem loopIndex_succ {x : BitVec 32} (hmin : x + 1 = .intMin 32 → size ∣ 2 ^ 64 - 2 ^ 32)
    (hzero : x + 1 = 0 → size ∣ 2 ^ 64) :
    loopIndex (x + 1) size = (loopIndex x size + 1) % size := by
  have hx := x.isLt
  have hsucc : (x + 1).toNat = (x.toNat + 1) % 2 ^ 32 := BitVec.toNat_add ..
  rw [loopIndex, loopIndex, Nat.mod_add_mod, toNat_signExtend, toNat_signExtend, hsucc]
  obtain hlast | hlt := Nat.eq_or_lt_of_le (Nat.le_sub_one_of_lt hx)
  · have hdvd := hzero (BitVec.eq_of_toNat_eq (by rw [hsucc, hlast]; decide))
    have hlarge : x.toNat + (2 ^ 64 - 2 ^ 32) + 1 = 2 ^ 64 := by omega
    rw [if_pos (by omega : 2 ^ 31 ≤ x.toNat), hlarge, Nat.mod_eq_zero_of_dvd hdvd, hlast]
    exact Nat.zero_mod size
  · rw [Nat.mod_eq_of_lt (by omega : x.toNat + 1 < 2 ^ 32)]
    obtain hmax | hmax := eq_or_ne x.toNat (2 ^ 31 - 1)
    · obtain ⟨c, hc⟩ := hmin (BitVec.eq_of_toNat_eq (by rw [hsucc, hmax]; decide))
      rw [if_pos (by omega), if_neg (by omega), hc, Nat.add_mul_mod_self_left]
    · congr 1
      split <;> split <;> omega

theorem newConnection_eq (t : ConnectionTable) : t.newConnection =
    { t with
      next := if t.loops = [] then t.next else t.next + 1
      nextConnId := t.nextConnId + 1
      connections := Function.update t.connections (connName t.name t.ipPort t.nextConnId)
        (some t.conns.length)
      conns := t.conns ++ [⟨connName t.name t.ipPort t.nextConnId, t.getNextLoop.1⟩] } := by
  unfold newConnection getNextLoop
  by_cases hloops : t.loops = []
  · simp only [hloops, ne_eq, not_true, if_false, if_true]
  · simp only [hloops, ne_eq, not_false_eq_true, if_true, if_false]

/-! ### What the counters say -/

structure Counted (t : ConnectionTable) : Prop where
  nextConnId : t.nextConnId = BitVec.ofNat 32 (t.conns.length + 1)
  next : t.loops ≠ [] → t.next = BitVec.ofNat 32 t.conns.length
  name : ∀ k conn, t.conns[k]? = some conn →
    conn.name = connName t.name t.ipPort (BitVec.ofNat 32 (k + 1))
  ioLoop : t.loops ≠ [] → ∀ k conn, t.conns[k]? = some conn →
    conn.ioLoop = t.loops.getD (loopIndex (BitVec.ofNat 32 k) t.loops.length) baseLoop
  removed : ∀ id ∈ t.removed, id < t.conns.length

theorem counted_new (name ipPort : String) (loops : List LoopId) :
    Counted (new name ipPort loops) :=
  ⟨rfl, fun _ => rfl, fun _ _ hconn => absurd hconn nofun, fun _ _ _ hconn => absurd hconn nofun,
    fun _ hid => absurd hid List.not_mem_nil⟩

theorem getElem?_concat {conns : List Conn} {new : Conn} (h : (conns ++ [new])[k]? = some conn) :
    conns[k]? = some conn ∨ k = conns.length ∧ conn = new := by
  obtain hlt | hle := Nat.lt_or_ge k conns.length
  · rw [List.getElem?_append_left hlt] at h
    exact .inl h
  · rw [List.getElem?_append_right hle, List.getElem?_singleton] at h
    split at h
    · cases h
      exact .inr ⟨by omega, rfl⟩
    · cases h

namespace Counted

theorem newConnection (h : Counted t) : Counted t.newConnection := by
  rw [newConnection_eq]
  refine ⟨?_, fun hloops => ?_, fun k conn hconn => ?_, fun hloops k conn hconn => ?_,
    fun id hid => ?_⟩
  · simp only [List.length_append, List.length_singleton, h.nextConnId, BitVec.ofNat_add]
    rfl
  · simp only [List.length_append, List.length_singleton, if_neg hloops, h.next hloops,
      BitVec.ofNat_add]
    rfl
  · obtain hconn | ⟨rfl, rfl⟩ := getElem?_concat hconn
    · exact h.name k conn hconn
    · rw [h.nextConnId]
  · obtain hconn | ⟨rfl, rfl⟩ := getElem?_concat hconn
    · exact h.ioLoop hloops k conn hconn
    · rw [getNextLoop, if_pos hloops, h.next hloops]
  · rw [List.length_append]
    exact Nat.lt_add_right _ (h.removed id hid)

theorem removeConnectionInLoop (h : Counted t) (hconn : t.conns[id]? = some conn) :
    Counted (t.removeConnectionInLoop id conn) := by
  refine ⟨h.nextConnId, h.next, h.name, h.ioLoop, fun id' hid => ?_⟩
  obtain rfl | hid := List.mem_cons.mp hid
  · exact (List.getElem?_eq_some_iff.mp hconn).1
  · exact h.removed id' hid

theorem step {i : Input} (h : Counted t) (hs : t.step i = some t') : Counted t' := by
  cases i with
  | newConnection =>
    cases hs
    exact h.newConnection
  | removeConnectionInLoop id =>
    obtain ⟨conn, hconn, rfl⟩ := Option.map_eq_some_iff.mp hs
    exact h.removeConnectionInLoop hconn

/-- Two connections have one name exactly if their numbers agree modulo 2³². -/
theorem name_eq_iff {k' : Nat} {conn' : Conn} (h : Counted t) (hconn : t.conns[k]? = some conn)
    (hconn' : t.conns[k']? = some conn') :
    conn.name = conn'.name ↔ k % 2 ^ 32 = k' % 2 ^ 32 := by
  rw [h.name k conn hconn, h.name k' conn' hconn', connName_inj, ofNat_succ_eq_iff]

/-- The next connection gets the name of an earlier one exactly if so do the numbers. -/
theorem name_eq_next_iff (h : Counted t) (hconn : t.conns[k]? = some conn) :
    conn.name = connName t.name t.ipPort t.nextConnId ↔
      k % 2 ^ 32 = t.conns.length % 2 ^ 32 := by
  rw [h.name k conn hconn, h.nextConnId, connName_inj, ofNat_succ_eq_iff]

end Counted

/-! ### The table -/

/-- The name of a new connection is free. -/
theorem Exact.free (h : Exact t) (hcounted : Counted t) (hreuse : t.NoReuse .newConnection) :
    t.connections (connName t.name t.ipPort t.nextConnId) = none := by
  refine Option.eq_none_iff_forall_ne_some.mpr fun k hk => ?_
  obtain ⟨conn, hconn, hname, hlive⟩ := (h _ k).mp hk
  exact hreuse k (List.getElem?_eq_some_iff.mp hconn).1 hlive
    ((hcounted.name_eq_next_iff hconn).mp hname)

theorem Exact.newConnection (h : Exact t) (hcounted : Counted t)
    (hreuse : t.NoReuse .newConnection) : Exact t.newConnection := by
  have hfree := h.free hcounted hreuse
  rw [newConnection_eq]
  intro n k
  dsimp only
  rw [Function.update_apply]
  split
  case isTrue hn =>
    subst hn
    constructor
    · rintro ⟨⟩
      exact ⟨_, List.getElem?_concat_length, rfl,
        fun hk => Nat.lt_irrefl _ (hcounted.removed _ hk)⟩
    · rintro ⟨conn, hconn, hname, hlive⟩
      obtain hconn | ⟨rfl, -⟩ := getElem?_concat hconn
      · have hsome := (h _ k).mpr ⟨conn, hconn, hname, hlive⟩
        cases hfree.symm.trans hsome
      · rfl
  case isFalse hn =>
    rw [h n k]
    constructor
    · rintro ⟨conn, hconn, hrest⟩
      exact ⟨conn, (List.getElem?_append_left (List.getElem?_eq_some_iff.mp hconn).1).trans hconn,
        hrest⟩
    · rintro ⟨conn, hconn, hname, hlive⟩
      obtain hconn | ⟨-, rfl⟩ := getElem?_concat hconn
      · exact ⟨conn, hconn, hname, hlive⟩
      · exact absurd hname.symm hn

/-- The connection that is removed is the only one of its name that is not removed yet. -/
theorem Exact.removeConnectionInLoop (h : Exact t) (hcounted : Counted t)
    (hreuse : t.NoReuse (.removeConnectionInLoop id)) (hconn : t.conns[id]? = some conn) :
    Exact (t.removeConnectionInLoop id conn) := by
  intro n k
  simp only [ConnectionTable.removeConnectionInLoop, Function.update_apply]
  split
  case isTrue hn =>
    subst hn
    refine iff_of_false nofun ?_
    rintro ⟨conn', hconn', hname, hlive⟩
    obtain ⟨hne, hlive⟩ := not_or.mp (mt List.mem_cons.mpr hlive)
    by_cases hid : id ∈ t.removed
    · exact hreuse hid k (List.getElem?_eq_some_iff.mp hconn').1 hlive
        ((hcounted.name_eq_iff hconn' hconn).mp hname)
    · have hk := (h _ k).mpr ⟨conn', hconn', hname, hlive⟩
      have hid := (h _ id).mpr ⟨conn, hconn, rfl, hid⟩
      exact hne (Option.some.inj (hk.symm.trans hid))
  case isFalse hn =>
    rw [h n k]
    refine exists_congr fun conn' => and_congr_right fun hconn' => and_congr_right fun hname => ?_
    rw [List.mem_cons, not_or]
    refine (and_iff_right ?_).symm
    rintro rfl
    cases hconn.symm.trans hconn'
    exact hn hname.symm

/-! ### The loops in turn -/

/-- The index of the loop for the `k`-th connection. -/
def turn (t : ConnectionTable) (k : Nat) : Nat := loopIndex (BitVec.ofNat 32 k) t.loops.length

/-- Each connection has got the loop behind that of the connection before it. -/
def Turning (t : ConnectionTable) : Prop :=
  t.loops ≠ [] → ∀ k, k + 1 < t.conns.length → t.turn (k + 1) = (t.turn k + 1) % t.loops.length

theorem Turning.newConnection (h : Turning t) (hcounted : Counted t)
    (hturn : t.InTurn .newConnection) : Turning t.newConnection := by
  rw [newConnection_eq]
  intro hloops k hk
  rw [List.length_append, List.length_singleton] at hk
  obtain hlt | heq := Nat.lt_or_eq_of_le (Nat.le_of_lt_succ hk)
  · exact h hloops k hlt
  · have hnext := hcounted.next hloops
    rw [← heq, BitVec.ofNat_add] at hnext
    have hne : t.conns ≠ [] := List.ne_nil_of_length_pos (heq ▸ Nat.succ_pos k)
    rw [turn, turn, BitVec.ofNat_add]
    exact loopIndex_succ (fun hmin => hturn.1 (hnext.trans hmin))
      fun hzero => hturn.2 (hnext.trans hzero) hne

theorem Turning.add (h : Turning t) (hloops : t.loops ≠ []) (j : Nat) :
    ∀ i, j + i < t.conns.length → t.turn (j + i) = (t.turn j + i) % t.loops.length
  | 0, _ => (Nat.mod_eq_of_lt (Nat.mod_lt _ (List.length_pos_of_ne_nil hloops))).symm
  | i + 1, hi => by
    rw [← Nat.add_assoc, h hloops (j + i) hi, h.add hloops j i (Nat.lt_of_succ_lt hi),
      Nat.mod_add_mod, Nat.add_assoc]

theorem Turning.roundRobin (h : Turning t) (hcounted : Counted t) (hnodup : t.loops.Nodup) :
    RoundRobin t := by
  intro j hj
  rw [List.Nodup, List.pairwise_iff_getElem]
  intro i₁ i₂ h₁ h₂ hlt
  simp only [List.length_map, List.length_take, List.length_drop, Nat.lt_min] at h₁ h₂
  have hloops : t.loops ≠ [] := List.ne_nil_of_length_pos (Nat.zero_lt_of_lt h₁.1)
  have hlen (k : Nat) : t.turn k < t.loops.length :=
    Nat.mod_lt _ (List.length_pos_of_ne_nil hloops)
  have hget {i : Nat} (hi : j + i < t.conns.length) :
      t.conns[j + i].ioLoop = t.loops.get ⟨t.turn (j + i), hlen (j + i)⟩ := by
    rw [hcounted.ioLoop hloops (j + i) _ (List.getElem?_eq_getElem hi)]
    exact List.getD_eq_getElem _ _ (hlen (j + i))
  simp only [List.getElem_map, List.getElem_take, List.getElem_drop]
  rw [hget (by omega), hget (by omega)]
  intro heq
  have hturn := Fin.mk.inj (hnodup.get_inj_iff.mp heq)
  rw [h.add hloops j i₁ (by omega), h.add hloops j i₂ (by omega)] at hturn
  have hmod := Nat.ModEq.add_left_cancel' (t.turn j) hturn
  rw [Nat.ModEq, Nat.mod_eq_of_lt h₁.1, Nat.mod_eq_of_lt h₂.1] at hmod
  exact Nat.ne_of_lt hlt hmod

/-! ### Runs -/

theorem exact_new (name ipPort : String) (loops : List LoopId) : Exact (new name ipPort loops) := by
  refine fun n id => iff_of_false nofun ?_
  rintro ⟨conn, hconn, -⟩
  exact absurd hconn nofun

theorem Exact.step {i : Input} (h : Exact t) (hcounted : Counted t) (hreuse : t.NoReuse i)
    (hs : t.step i = some t') : Exact t' := by
  cases i with
  | newConnection =>
    cases hs
    exact h.newConnection hcounted hreuse
  | removeConnectionInLoop id =>
    obtain ⟨conn, hconn, rfl⟩ := Option.map_eq_some_iff.mp hs
    exact h.removeConnectionInLoop hcounted hreuse hconn

theorem Turning.step {i : Input} (h : Turning t) (hcounted : Counted t) (hturn : t.InTurn i)
    (hs : t.step i = some t') : Turning t' := by
  cases i with
  | newConnection =>
    cases hs
    exact h.newConnection hcounted hturn
  | removeConnectionInLoop id =>
    obtain ⟨conn, -, rfl⟩ := Option.map_eq_some_iff.mp hs
    exact h

theorem loops_step {i : Input} (hs : t.step i = some t') : t'.loops = t.loops := by
  cases i with
  | newConnection =>
    cases hs
    rw [newConnection_eq]
  | removeConnectionInLoop id =>
    obtain ⟨conn, -, rfl⟩ := Option.map_eq_some_iff.mp hs
    rfl

theorem counted_run {loops : List LoopId} {is : List Input}
    (h : Run.run step (new name ipPort loops) is = some t) : Counted t ∧ t.loops = loops :=
  Run.run_invariant' (I := fun t => Counted t ∧ t.loops = loops)
    (fun _ _ _ hinv hs => ⟨hinv.1.step hs, (loops_step hs).trans hinv.2⟩)
    ⟨counted_new name ipPort loops, rfl⟩ h

theorem exact_run {loops : List LoopId} {is : List Input}
    (h : Run.run step (new name ipPort loops) is = some t)
    (hreuse : Run.Along step NoReuse (new name ipPort loops) is) : Exact t :=
  (Run.run_invariant (I := fun t => Counted t ∧ Exact t)
    (fun _ _ _ hinv hreuse hs => ⟨hinv.1.step hs, hinv.2.step hinv.1 hreuse hs⟩)
    ⟨counted_new name ipPort loops, exact_new name ipPort loops⟩ hreuse h).2

/-- **The table loses no connection** in a run in which no name comes back while its connection is
in the table, and **the loops take turns** as long as the wrap of `next_` keeps them in order. -/
theorem table_exact (name ipPort : String) (loops : List LoopId) (hnodup : loops.Nodup)
    (is : List Input) (t : ConnectionTable) (h : Run.run step (new name ipPort loops) is = some t)
    (hreuse : Run.Along step NoReuse (new name ipPort loops) is)
    (hturn : Run.Along step InTurn (new name ipPort loops) is) :
    Run.Along step (fun t i => i = .newConnection →
        t.connections (connName t.name t.ipPort t.nextConnId) = none) (new name ipPort loops) is ∧
      t.Exact ∧ t.RoundRobin := by
  obtain ⟨hcounted, hloops⟩ := counted_run h
  have hturning := Run.run_invariant (I := fun t => Counted t ∧ Turning t)
    (fun _ _ _ hinv hturn hs => ⟨hinv.1.step hs, hinv.2.step hinv.1 hturn hs⟩)
    ⟨counted_new name ipPort loops, fun _ _ hk => absurd hk (Nat.not_lt_zero _)⟩ hturn h
  refine ⟨?_, exact_run h hreuse, hturning.2.roundRobin hcounted (hloops ▸ hnodup)⟩
  refine hreuse.of_invariant (I := fun t => Counted t ∧ Exact t)
    (fun _ _ _ hinv hreuse hs => ⟨hinv.1.step hs, hinv.2.step hinv.1 hreuse hs⟩) ?_
    ⟨counted_new name ipPort loops, exact_new name ipPort loops⟩
  rintro t _ hinv hreuse rfl
  exact hinv.2.free hinv.1 hreuse

/-- Three connections in two loops, the first of them removed. -/
theorem table_exact_removed :
    ∃ t, Run.run step (new "s" "0.0.0.0:80" [1, 2])
      [.newConnection, .newConnection, .removeConnectionInLoop 0, .newConnection] = some t ∧
    Run.Along step (fun t i => i = .newConnection →
        t.connections (connName t.name t.ipPort t.nextConnId) = none) (new "s" "0.0.0.0:80" [1, 2])
      [.newConnection, .newConnection, .removeConnectionInLoop 0, .newConnection] ∧
    t.Exact ∧ t.RoundRobin := by
  obtain ⟨t, ht⟩ : ∃ t, Run.run step (new "s" "0.0.0.0:80" [1, 2])
    [.newConnection, .newConnection, .removeConnectionInLoop 0, .newConnection] = some t := ⟨_, rfl⟩
  exact ⟨t, ht, table_exact "s" "0.0.0.0:80" [1, 2] (by decide) _ t ht (by decide +kernel)
    (by decide +kernel)⟩

/-! ### Past the counters -/

/-- `m` connections that are made and removed one after the other, the first of them with the number
`id`. -/
def comeAndGo (id : Nat) : Nat → List Input
  | 0 => []
  | m + 1 => .newConnection :: .removeConnectionInLoop id :: comeAndGo (id + 1) m

theorem getElem?_newConnection (t : ConnectionTable) :
    t.newConnection.conns[t.conns.length]? =
      some ⟨connName t.name t.ipPort t.nextConnId, t.getNextLoop.1⟩ := by
  rw [newConnection_eq]
  exact List.getElem?_concat_length

theorem length_newConnection (t : ConnectionTable) :
    t.newConnection.conns.length = t.conns.length + 1 := by
  rw [newConnection_eq, List.length_append, List.length_singleton]

theorem removed_newConnection (t : ConnectionTable) : t.newConnection.removed = t.removed := by
  rw [newConnection_eq]

theorem run_comeAndGo (t : ConnectionTable) (m : Nat) :
    ∃ t', Run.run step t (comeAndGo t.conns.length m) = some t' ∧
      t'.conns.length = t.conns.length + m ∧
      ∀ k, k ∈ t'.removed ↔ k ∈ t.removed ∨ t.conns.length ≤ k ∧ k < t.conns.length + m := by
  induction m generalizing t with
  | zero => exact ⟨t, rfl, rfl, fun k => ⟨.inl, fun h => h.resolve_right (by omega)⟩⟩
  | succ m ih =>
    obtain ⟨t', hrun, hlen, hremoved⟩ := ih (t.newConnection.removeConnectionInLoop t.conns.length
      ⟨connName t.name t.ipPort t.nextConnId, t.getNextLoop.1⟩)
    have hlength := length_newConnection t
    simp only [ConnectionTable.removeConnectionInLoop, hlength] at hrun hlen hremoved
    refine ⟨t', Run.run_cons.mpr ⟨_, rfl, Run.run_cons.mpr ⟨_, ?_, hrun⟩⟩, ?_, fun k => ?_⟩
    · rw [step, getElem?_newConnection]
      rfl
    · omega
    · rw [hremoved, removed_newConnection, List.mem_cons]
      grind

theorem noReuse_comeAndGo {t : ConnectionTable} {m : Nat} (h : t.conns.length + m ≤ 2 ^ 32) :
    Run.Along step NoReuse t (comeAndGo t.conns.length m) := by
  induction m generalizing t with
  | zero => trivial
  | succ m ih =>
    refine ⟨fun k hk _ => ?_, ?_⟩
    · rw [Nat.mod_eq_of_lt (by omega), Nat.mod_eq_of_lt (by omega)]
      exact Nat.ne_of_lt hk
    · rintro t₁ ⟨⟩
      have hlength := length_newConnection t
      refine ⟨fun hid k hk hlive => ?_, fun t₂ h₂ => ?_⟩
      · rw [Nat.mod_eq_of_lt (by omega), Nat.mod_eq_of_lt (by omega)]
        rintro rfl
        exact hlive hid
      · obtain ⟨conn, -, rfl⟩ := Option.map_eq_some_iff.mp h₂
        have hrest := @ih (t.newConnection.removeConnectionInLoop t.conns.length conn)
          (by simp only [ConnectionTable.removeConnectionInLoop, hlength]; omega)
        simp only [ConnectionTable.removeConnectionInLoop, hlength] at hrest
        exact hrest

/-- After 2³² connections the next one gets the name of the first. -/
theorem connName_again (hcounted : Counted t) (hlen : t.conns.length = 2 ^ 32)
    (hconn : t.conns[0]? = some conn) : conn.name = connName t.name t.ipPort t.nextConnId := by
  rw [hcounted.name_eq_next_iff hconn, hlen, Nat.mod_self, Nat.zero_mod]

/-- If the first connection is still there then, the next one takes its entry. -/
theorem Exact.first_lost (h : Exact t) (hcounted : Counted t) (hlen : t.conns.length = 2 ^ 32)
    (hlive : 0 ∉ t.removed) :
    t.connections (connName t.name t.ipPort t.nextConnId) = some 0 ∧
      ∀ n, t.newConnection.connections n ≠ some 0 := by
  have hpos : 0 < t.conns.length := by omega
  have hfirst := List.getElem?_eq_getElem hpos
  have hname := connName_again hcounted hlen hfirst
  refine ⟨(h _ 0).mpr ⟨_, hfirst, hname, hlive⟩, fun n hn => ?_⟩
  rw [newConnection_eq] at hn
  dsimp only at hn
  rw [Function.update_apply] at hn
  split at hn
  case isTrue => exact absurd (Option.some.inj hn) (Nat.ne_of_gt hpos)
  case isFalse hne =>
    obtain ⟨conn, hconn, rfl, -⟩ := (h n 0).mp hn
    cases hfirst.symm.trans hconn
    exact hne hname

/-- The 2³²-th and the next connection get one loop when there are three. -/
theorem not_roundRobin (hcounted : Counted t) (hlen : t.conns.length = 2 ^ 32 + 1)
    (hloops : t.loops = [1, 2, 3]) : ¬t.RoundRobin := by
  have hloop (k : Nat) (hk : k < t.conns.length) : t.conns[k].ioLoop =
      [1, 2, 3].getD (loopIndex (BitVec.ofNat 32 k) 3) baseLoop := by
    rw [hcounted.ioLoop (hloops ▸ List.cons_ne_nil _ _) k _ (List.getElem?_eq_getElem hk), hloops]
    rfl
  intro h
  have hnodup := h (2 ^ 32 - 2) (by rw [hloops, hlen]; decide)
  rw [List.Nodup, List.pairwise_iff_getElem] at hnodup
  have hsize : (((t.conns.drop (2 ^ 32 - 2)).take t.loops.length).map Conn.ioLoop).length = 3 := by
    rw [List.length_map, List.length_take, List.length_drop, hlen, hloops]
    rfl
  have hne := hnodup 1 2 (hsize ▸ by decide) (hsize ▸ by decide) (by decide)
  simp only [List.getElem_map, List.getElem_take, List.getElem_drop] at hne
  rw [hloop, hloop] at hne
  exact hne (by decide)

/-- The name of the first connection is given out again while it is in the table, and the first
connection is lost, though all those in between have gone; and two connections in turn are given to
one of three loops. -/
theorem not_table_exact :
    (∃ t t', Run.run step (new "s" "0.0.0.0:80" [1])
        (.newConnection :: comeAndGo 1 (2 ^ 32 - 1)) = some t ∧
      (∀ k, 0 < k → k < 2 ^ 32 → k ∈ t.removed) ∧ t.step .newConnection = some t' ∧
      t.connections (connName t.name t.ipPort t.nextConnId) = some 0 ∧ 0 ∉ t'.removed ∧
      ∀ n, t'.connections n ≠ some 0) ∧
    ∃ t, Run.run step (new "s" "0.0.0.0:80" [1, 2, 3]) (comeAndGo 0 (2 ^ 32 + 1)) = some t ∧
      ¬t.RoundRobin := by
  constructor
  · have hone : (new "s" "0.0.0.0:80" [1]).newConnection.conns.length = 1 := rfl
    obtain ⟨t, hrest, hlen, hremoved⟩ := run_comeAndGo (new "s" "0.0.0.0:80" [1]).newConnection
      (2 ^ 32 - 1)
    have hreuse := @noReuse_comeAndGo (new "s" "0.0.0.0:80" [1]).newConnection (2 ^ 32 - 1)
      (by rw [hone]; omega)
    rw [hone] at hrest hlen hremoved hreuse
    have hrun : Run.run step (new "s" "0.0.0.0:80" [1])
        (.newConnection :: comeAndGo 1 (2 ^ 32 - 1)) = some t := Run.run_cons.mpr ⟨_, rfl, hrest⟩
    obtain ⟨hcounted, -⟩ := counted_run hrun
    have hexact := exact_run hrun
      ⟨fun k hk => absurd hk (Nat.not_lt_zero k), fun _ h => Option.some.inj h ▸ hreuse⟩
    have hlive : 0 ∉ t.removed := by
      rw [hremoved]
      rintro (hzero | hzero)
      · exact absurd hzero List.not_mem_nil
      · omega
    obtain ⟨hentry, hlost⟩ := hexact.first_lost hcounted (by omega) hlive
    refine ⟨t, t.newConnection, hrun, fun k hk hlt => (hremoved k).mpr (.inr (by omega)), rfl,
      hentry, ?_, hlost⟩
    rwa [removed_newConnection]
  · obtain ⟨t, hrun, hlen, -⟩ := run_comeAndGo (new "s" "0.0.0.0:80" [1, 2, 3]) (2 ^ 32 + 1)
    obtain ⟨hcounted, hloops⟩ := counted_run hrun
    exact ⟨t, hrun, not_roundRobin hcounted (hlen.trans (Nat.zero_add _)) hloops⟩

end ConnectionTable

end MuduoX
