import MuduoX.Net.ConnectionLog
import MuduoX.Net.TcpServer

/-! Which thread works on which poller.

Everything a connection does after its construction happens on the thread of its own loop: what is
waiting in a loop, be it a handler or a functor, is bound to a connection of that loop (`Owned`).
The constructor is the exception. It runs on the base loop's thread, and each callback that it sets
on the channel ends in `updateChannel` of the poller of the connection's loop. -/

namespace MuduoX

def Event.isPoller : Event → Bool
  | .updateChannel _ | .removeChannel _ => true
  | _ => false

theorem TcpConnection.did_handle {tid : LoopId} (a : Answers) (h : Handler) (c : TcpConnection) :
    Did tid (fun _ => True) c (c.handle tid a h) := by
  cases h with
  | close => exact did_handleClose c
  | read => exact did_handleRead _ _ c
  | write => exact (quiet_handleWrite _ c).did

namespace TcpConnection

/-- Every call of the poller has been made on the thread of the poller's loop. -/
def Confined (c : TcpConnection) : Prop :=
  ∀ x ∈ c.log, x.2.isPoller → x.1 = c.channel.loop

/-- The base loop's thread has made the connection; all else has happened on the thread of the
connection's loop. -/
def Own (c : TcpConnection) : Prop :=
  Did c.channel.loop (fun _ => True) (.new baseLoop c.channel.loop) c

theorem new_loop (tid loop : LoopId) : (new tid loop).channel.loop = loop := by
  simp [new, update, emit]

theorem own_new (loop : LoopId) : Own (.new baseLoop loop) := by
  rw [Own, new_loop]
  exact .refl _

theorem Own.did {c c' : TcpConnection} (h : Own c) (hd : Did c.channel.loop (fun _ => True) c c') :
    Own c' := by
  rw [Own, hd.loop]
  exact h.trans hd

/-- The first call of a connection's poller is the constructor's. -/
theorem Own.confined_iff_loop {c : TcpConnection} (h : Own c) :
    c.Confined ↔ c.channel.loop = baseLoop := by
  obtain ⟨-, es, -, hlog⟩ := h
  constructor
  · intro hconf
    have hmem : (baseLoop, Event.updateChannel .add) ∈ c.log := by
      rw [hlog]
      exact List.mem_append_left _ List.mem_cons_self
    exact (hconf _ hmem rfl).symm
  · intro hloop x hx _
    rw [hlog, hloop] at hx
    rw [hloop]
    rcases List.mem_append.mp hx with hx | hx
    · simp [new, update, emit] at hx
      rcases hx with rfl | rfl | rfl | rfl <;> rfl
    · obtain ⟨e, -, rfl⟩ := List.mem_map.mp hx
      rfl

end TcpConnection

/-- The connection that the functor is bound to. -/
def Functor.id : Functor → Nat
  | .connectEstablished id | .connectDestroyed id | .removeConnectionInLoop id
  | .sendInLoop id _ | .shutdownInLoop id => id

namespace TcpServer

/-- The loop of each connection. -/
def owners (s : TcpServer) : List LoopId := s.conns.map fun c => c.channel.loop

/-- The functor may run in the loop: `removeConnectionInLoop` in the base loop, each other one in
the loop of its connection. -/
def Fits (owners : List LoopId) (loop : LoopId) : Functor → Prop
  | .removeConnectionInLoop id => loop = baseLoop ∧ id < owners.length
  | f => owners[f.id]? = some loop

/-- What waits in a loop is bound to a connection of that loop. -/
structure Owned (s : TcpServer) : Prop where
  loops : ∀ loop ∈ s.loops, loop ≠ baseLoop
  active : ∀ loop, ∀ x ∈ (s.eventLoop loop).activeChannels, s.owners[x.1]? = some loop
  pending : ∀ loop, ∀ f ∈ (s.eventLoop loop).pendingFunctors, Fits s.owners loop f
  poller : ∀ x ∈ s.poller, x.1 = x.2
  conns : ∀ c ∈ s.conns, c.Own

variable {s s' : TcpServer} {id : Nat} {loop tid : LoopId}

theorem mem_owners {c : TcpConnection} (hc : s.conns[id]? = some c) :
    s.owners[id]? = some c.channel.loop := by
  rw [owners, List.getElem?_map, hc, Option.map_some]

theorem loop_of_owners {c : TcpConnection} (hc : s.conns[id]? = some c)
    (h : s.owners[id]? = some loop) : c.channel.loop = loop := by
  rw [mem_owners hc] at h
  exact Option.some.inj h

theorem owners_loopOf (h : s.loopOf id ≠ baseLoop ∨ id < s.conns.length) :
    s.owners[id]? = some (s.loopOf id) := by
  unfold loopOf at h ⊢
  match hc : s.conns[id]? with
  | some c => exact mem_owners hc
  | none =>
    simp only [hc, ne_eq, not_true, false_or] at h
    exact absurd (List.getElem?_eq_none_iff.mp hc) (Nat.not_le.mpr h)

theorem lt_of_owners (h : s.owners[id]? = some loop) : id < s.owners.length :=
  (List.getElem?_eq_some_iff.mp h).1

theorem own_of_mem_ownCalls {n : Nat} {x : LoopId × LoopId} (h : x ∈ ownCalls loop n) :
    x.1 = x.2 := by
  rw [List.eq_of_mem_replicate h]

theorem own_of_mem_flatMap {loops : List LoopId} {n : Nat} {x : LoopId × LoopId}
    (h : x ∈ loops.flatMap (ownCalls · n)) : x.1 = x.2 := by
  obtain ⟨loop, -, hx⟩ := List.mem_flatMap.mp h
  exact own_of_mem_ownCalls hx

theorem owners_modify {f : TcpConnection → TcpConnection}
    (hf : ∀ c, s.conns[id]? = some c → (f c).channel.loop = c.channel.loop) :
    (s.modify id f).owners = s.owners := by
  refine List.ext_getElem? fun i => ?_
  rw [owners, owners, List.getElem?_map, List.getElem?_map, modify, List.getElem?_modify]
  rcases Decidable.em (id = i) with rfl | hi
  · match hc : s.conns[id]? with
    | none => rfl
    | some c => simp [hf c hc]
  · simp [hi]

theorem owners_modify_did {f : TcpConnection → TcpConnection}
    (hf : ∀ c, TcpConnection.Did tid (fun _ => True) c (f c)) : (s.modify id f).owners = s.owners :=
  owners_modify fun c _ => (hf c).loop

/-! ### What waits in a loop stays bound to it -/

namespace Owned

theorem setLoop (h : Owned s) (el : EventLoop)
    (hactive : ∀ x ∈ el.activeChannels, s.owners[x.1]? = some loop)
    (hpending : ∀ f ∈ el.pendingFunctors, Fits s.owners loop f) : Owned (s.setLoop loop el) := by
  refine ⟨h.loops, fun l x hx => ?_, fun l f hf => ?_, h.poller, h.conns⟩
  · rcases Decidable.em (l = loop) with rfl | hl
    · rw [setLoop_same] at hx
      exact hactive x hx
    · rw [setLoop_other hl] at hx
      exact h.active l x hx
  · rcases Decidable.em (l = loop) with rfl | hl
    · rw [setLoop_same] at hf
      exact hpending f hf
    · rw [setLoop_other hl] at hf
      exact h.pending l f hf

theorem queueInLoop (h : Owned s) {f : Functor} (hf : Fits s.owners loop f) :
    Owned (s.queueInLoop loop f) := by
  refine h.setLoop _ (h.active loop) fun g hg => ?_
  rcases List.mem_append.mp hg with hg | hg
  · exact h.pending loop g hg
  · cases List.mem_singleton.mp hg
    exact hf

theorem modify (h : Owned s) {f : TcpConnection → TcpConnection}
    (hf : ∀ c, s.conns[id]? = some c →
      TcpConnection.Did c.channel.loop (fun _ => True) c (f c)) : Owned (s.modify id f) := by
  have howners := owners_modify fun c hc => (hf c hc).loop
  refine ⟨h.loops, ?_, ?_, h.poller, fun c hc => ?_⟩
  · rw [howners]
    exact h.active
  · rw [howners]
    exact h.pending
  · obtain ⟨i, hi⟩ := List.mem_iff_getElem?.mp hc
    rw [TcpServer.modify, List.getElem?_modify] at hi
    obtain ⟨c₀, hc₀, rfl⟩ := Option.map_eq_some_iff.mp hi
    have hown := h.conns c₀ (List.mem_of_getElem? hc₀)
    split
    · rename_i heq
      subst heq
      exact hown.did (hf c₀ hc₀)
    · exact hown

/-- The thread of a connection's loop works on the connection. -/
theorem modify_own (h : Owned s) (hid : s.owners[id]? = some tid)
    {f : TcpConnection → TcpConnection}
    (hf : ∀ c, TcpConnection.Did tid (fun _ => True) c (f c)) : Owned (s.modify id f) :=
  h.modify fun c hc => loop_of_owners hc hid ▸ hf c

theorem removeConnectionInLoop (h : Owned s) (hid : id < s.owners.length) :
    Owned (s.removeConnectionInLoop id) := by
  unfold TcpServer.removeConnectionInLoop
  split
  · exact ⟨h.loops, h.active, h.pending, h.poller, h.conns⟩
  · have herased : Owned { s with connections := s.connections.erase id } :=
      ⟨h.loops, h.active, h.pending, h.poller, h.conns⟩
    have hlt : id < s.conns.length := by rwa [owners, List.length_map] at hid
    exact herased.queueInLoop (owners_loopOf (.inr hlt))

theorem removeConnection (h : Owned s) (hid : id < s.owners.length) :
    Owned (s.removeConnection tid id) := by
  unfold TcpServer.removeConnection
  split
  · exact ⟨h.loops, h.active, h.pending, h.poller, h.conns⟩
  · split
    · exact h.removeConnectionInLoop hid
    · exact h.queueInLoop ⟨rfl, hid⟩

theorem runFunctor (h : Owned s) {f : Functor} (hf : Fits s.owners tid f)
    (calls : List TcpConnection.Call) (r : WriteResult) : Owned (s.runFunctor tid calls r f) := by
  cases f with
  | connectEstablished id =>
    exact h.modify_own hf (TcpConnection.did_connectEstablished calls)
  | connectDestroyed id => exact h.modify_own hf TcpConnection.did_connectDestroyed
  | removeConnectionInLoop id => exact h.removeConnectionInLoop hf.2
  | sendInLoop id message =>
    exact h.modify_own hf fun c => (TcpConnection.quiet_sendInLoop message r c).did
  | shutdownInLoop id =>
    exact h.modify_own hf fun c => (TcpConnection.quiet_shutdownInLoop c).did

theorem runHandler (h : Owned s) (hid : s.owners[id]? = some tid) (a : TcpConnection.Answers)
    (handler : Handler) : Owned (s.runHandler tid a id handler) := by
  have hrun := h.modify_own hid fun c => TcpConnection.did_handle a handler c
  unfold TcpServer.runHandler
  simp only
  split
  · refine hrun.removeConnection ?_
    rw [owners_modify_did (TcpConnection.did_handle a handler)]
    exact lt_of_owners hid
  · exact hrun

theorem destroyConnection (h : Owned s) (id : Nat) : Owned (s.destroyConnection id) := by
  unfold TcpServer.destroyConnection
  split
  · rename_i hbase
    refine h.modify fun c hc => ?_
    have hloop : c.channel.loop = baseLoop := by rw [← hbase, loopOf, hc]
    exact hloop ▸ TcpConnection.did_connectDestroyed c
  · rename_i hbase
    exact h.queueInLoop (owners_loopOf (.inl hbase))

theorem getElem?_append (h : s.owners[id]? = some loop) (more : List LoopId) :
    (s.owners ++ more)[id]? = some loop := by
  rw [List.getElem?_append_left (lt_of_owners h), h]

/-- A new connection of any loop, which nothing is bound to yet. -/
theorem accept (h : Owned s) (loop : LoopId) (next : Nat) (connections : List Nat) :
    Owned { s with next, connections, conns := s.conns ++ [TcpConnection.new baseLoop loop] } := by
  have howners : (s.conns ++ [TcpConnection.new baseLoop loop]).map (·.channel.loop) =
      s.owners ++ [(TcpConnection.new baseLoop loop).channel.loop] := by simp [owners]
  refine ⟨h.loops, fun l x hx => ?_, fun l f hf => ?_, h.poller, fun c hc => ?_⟩
  · rw [owners, howners]
    exact getElem?_append (h.active l x hx) _
  · rw [owners, howners]
    have hfits := h.pending l f hf
    cases f with
    | removeConnectionInLoop id =>
      exact ⟨hfits.1, hfits.2.trans_le (by rw [List.length_append]; exact Nat.le_add_right _ _)⟩
    | connectEstablished | connectDestroyed | sendInLoop | shutdownInLoop =>
      exact getElem?_append hfits _
  · rcases List.mem_append.mp hc with hc | hc
    · exact h.conns c hc
    · cases List.mem_singleton.mp hc
      exact TcpConnection.own_new loop

theorem newConnection (h : Owned s) (calls : List TcpConnection.Call) :
    Owned (s.newConnection calls) := by
  unfold TcpServer.newConnection
  simp only
  have haccept := h.accept s.getNextLoop (if s.loops = [] then s.next else s.next + 1)
    (s.connections ++ [s.conns.length])
  have hid : (s.conns ++ [TcpConnection.new baseLoop s.getNextLoop])[s.conns.length]? =
      some (TcpConnection.new baseLoop s.getNextLoop) := List.getElem?_concat_length
  have hloop := mem_owners (s := { s with
    next := if s.loops = [] then s.next else s.next + 1
    connections := s.connections ++ [s.conns.length]
    conns := s.conns ++ [TcpConnection.new baseLoop s.getNextLoop] }) hid
  rw [TcpConnection.new_loop] at hloop
  split
  · rename_i hbase
    exact haccept.modify_own (hloop.trans (congrArg some hbase))
      (TcpConnection.did_connectEstablished calls)
  · exact haccept.queueInLoop hloop

theorem start (h : Owned s) (numThreads : Nat) : Owned (s.start numThreads) := by
  unfold TcpServer.start
  split
  · exact h
  · refine ⟨fun loop hloop => ?_, h.active, h.pending, fun x hx => ?_, h.conns⟩
    · obtain ⟨n, -, rfl⟩ := List.mem_map.mp hloop
      exact Nat.succ_ne_zero n
    · rcases List.mem_append.mp hx with hx | hx
      · rcases List.mem_append.mp hx with hx | hx
        · exact h.poller x hx
        · exact own_of_mem_flatMap hx
      · exact own_of_mem_ownCalls hx

theorem poll (h : Owned s) {reports : List (Nat × Revents)}
    (hreports : ∀ x ∈ reports, x.1 < s.conns.length ∧ s.loopOf x.1 = loop) :
    Owned (s.setLoop loop ⟨reports.flatMap fun x => x.2.handlers.map (x.1, ·),
      (s.eventLoop loop).pendingFunctors⟩) := by
  refine h.setLoop _ (fun x hx => ?_) (h.pending loop)
  obtain ⟨y, hy, hx⟩ := List.mem_flatMap.mp hx
  obtain ⟨handler, -, rfl⟩ := List.mem_map.mp hx
  obtain ⟨hlt, rfl⟩ := hreports y hy
  exact owners_loopOf (.inr hlt)

theorem step {i : Input} (h : Owned s) (hs : s.step i = some s') : Owned s' := by
  cases took_of_step hs with
  | start numThreads => exact h.start numThreads
  | newConnection calls => exact h.newConnection calls
  | poll hreports => exact h.poll hreports
  | @handle loop a id handler rest hactive =>
    have hown := h.active loop
    rw [hactive] at hown
    have hpopped := h.setLoop ⟨rest, _⟩ (fun x hx => hown x (List.mem_cons_of_mem _ hx))
      (h.pending loop)
    exact hpopped.runHandler (hown _ List.mem_cons_self) a handler
  | @runFunctor loop calls r f rest hpending =>
    have hfits := h.pending loop
    rw [hpending] at hfits
    have hpopped := h.setLoop ⟨_, rest⟩ (h.active loop)
      (fun f hf => hfits f (List.mem_cons_of_mem _ hf))
    exact hpopped.runFunctor (hfits _ List.mem_cons_self) calls r
  | call id call => exact h.modify fun c _ => (call.quiet c).did
  | send message hc => exact h.queueInLoop (mem_owners hc)
  | @shutdown id c hc =>
    have hsame : ∀ c, s.conns[id]? = some c →
        (c.setState .kDisconnecting).channel.loop = c.channel.loop := fun _ _ => rfl
    have hset : Owned (s.modify id (·.setState .kDisconnecting)) :=
      h.modify fun _ _ => .of_eq rfl rfl
    refine hset.queueInLoop ?_
    rw [owners_modify hsame]
    exact mem_owners hc
  | destroy => exact ⟨h.loops, h.active, h.pending, h.poller, h.conns⟩
  | @destroyConnection rest id hlife =>
    have hrest : Owned { s with life := .destructing (rest.erase id) } :=
      ⟨h.loops, h.active, h.pending, h.poller, h.conns⟩
    exact hrest.destroyConnection id
  | destroyed =>
    refine ⟨h.loops, h.active, h.pending, fun x hx => ?_, h.conns⟩
    rcases List.mem_append.mp hx with hx | hx
    · rcases List.mem_append.mp hx with hx | hx
      · exact h.poller x hx
      · exact own_of_mem_ownCalls hx
    · exact own_of_mem_flatMap hx

end Owned

theorem owned_new : Owned new :=
  ⟨fun _ h => (List.not_mem_nil h).elim, fun _ _ h => (List.not_mem_nil h).elim,
    fun _ _ h => (List.not_mem_nil h).elim, fun _ h => own_of_mem_ownCalls h,
    fun _ h => (List.not_mem_nil h).elim⟩

/-! ### The poller's calls -/

/-- Every `updateChannel` and every `removeChannel` has been executed on the thread that owns the
poller's loop. -/
def Confined (s : TcpServer) : Prop := (∀ x ∈ s.poller, x.1 = x.2) ∧ ∀ c ∈ s.conns, c.Confined

theorem Owned.confined_iff_owners (h : Owned s) :
    s.Confined ↔ ∀ loop ∈ s.owners, loop = baseLoop := by
  rw [owners, List.forall_mem_map]
  constructor
  · exact fun hconf c hc => (h.conns c hc).confined_iff_loop.mp (hconf.2 c hc)
  · exact fun hbase => ⟨h.poller, fun c hc => (h.conns c hc).confined_iff_loop.mpr (hbase c hc)⟩

/-- The step does not accept a connection for a loop of the pool. -/
def NoPool (s : TcpServer) (i : Input) : Prop := ∀ calls, i = .newConnection calls → s.loops = []

theorem Owned.getNextLoop_eq_iff (h : Owned s) : s.getNextLoop = baseLoop ↔ s.loops = [] := by
  constructor
  · intro hbase
    by_contra hne
    have hlt := Nat.mod_lt s.next (List.length_pos_iff.mpr hne)
    rw [getNextLoop, List.getD_eq_getElem?_getD, List.getElem?_eq_getElem hlt] at hbase
    exact h.loops _ (List.getElem_mem hlt) hbase
  · intro hnil
    rw [getNextLoop, hnil, List.getD_nil]

theorem owners_removeConnectionInLoop : (s.removeConnectionInLoop id).owners = s.owners := by
  unfold removeConnectionInLoop
  split <;> rfl

theorem owners_removeConnection : (s.removeConnection tid id).owners = s.owners := by
  unfold removeConnection
  split
  · rfl
  · split
    · exact owners_removeConnectionInLoop
    · rfl

theorem owners_runFunctor (calls : List TcpConnection.Call) (r : WriteResult) (f : Functor) :
    (s.runFunctor tid calls r f).owners = s.owners := by
  cases f with
  | connectEstablished => exact owners_modify_did (TcpConnection.did_connectEstablished calls)
  | connectDestroyed => exact owners_modify_did TcpConnection.did_connectDestroyed
  | removeConnectionInLoop => exact owners_removeConnectionInLoop
  | sendInLoop id message =>
    exact owners_modify_did fun c => (TcpConnection.quiet_sendInLoop message r c).did
  | shutdownInLoop =>
    exact owners_modify_did fun c => (TcpConnection.quiet_shutdownInLoop c).did

theorem owners_runHandler (a : TcpConnection.Answers) (handler : Handler) :
    (s.runHandler tid a id handler).owners = s.owners := by
  unfold runHandler
  have hmodify : (s.modify id (·.handle tid a handler)).owners = s.owners :=
    owners_modify_did (TcpConnection.did_handle a handler)
  simp only
  split
  · exact owners_removeConnection.trans hmodify
  · exact hmodify

theorem owners_destroyConnection : (s.destroyConnection id).owners = s.owners := by
  unfold destroyConnection
  split
  · exact owners_modify_did TcpConnection.did_connectDestroyed
  · rfl

theorem owners_newConnection (calls : List TcpConnection.Call) :
    (s.newConnection calls).owners = s.owners ++ [s.getNextLoop] := by
  have howners : (s.conns ++ [TcpConnection.new baseLoop s.getNextLoop]).map (·.channel.loop) =
      s.owners ++ [s.getNextLoop] := by simp [owners, TcpConnection.new_loop]
  unfold newConnection
  simp only
  split
  · exact (owners_modify_did (TcpConnection.did_connectEstablished calls)).trans howners
  · exact howners

theorem owners_step {i : Input} (hs : s.step i = some s') :
    s'.owners = s.owners ∧ (∀ calls, i ≠ .newConnection calls) ∨
      (∃ calls, i = .newConnection calls) ∧ s'.owners = s.owners ++ [s.getNextLoop] := by
  cases took_of_step hs with
  | newConnection calls => exact .inr ⟨⟨calls, rfl⟩, owners_newConnection calls⟩
  | start =>
    refine .inl ⟨?_, fun _ h => nomatch h⟩
    unfold start
    split <;> rfl
  | handle => exact .inl ⟨owners_runHandler .., fun _ h => nomatch h⟩
  | runFunctor => exact .inl ⟨owners_runFunctor .., fun _ h => nomatch h⟩
  | call id call =>
    exact .inl ⟨owners_modify fun c _ => (call.quiet c).loop, fun _ h => nomatch h⟩
  | shutdown => exact .inl ⟨owners_modify fun _ _ => rfl, fun _ h => nomatch h⟩
  | destroyConnection => exact .inl ⟨owners_destroyConnection, fun _ h => nomatch h⟩
  | poll | send | destroy | destroyed => exact .inl ⟨rfl, fun _ h => nomatch h⟩

/-- One step more: the owners are the base loop as long as no connection goes to the pool. -/
theorem Owned.base_step (h : Owned s) {i : Input} (hs : s.step i = some s') :
    (∀ loop ∈ s'.owners, loop = baseLoop) ↔
      (∀ loop ∈ s.owners, loop = baseLoop) ∧ s.NoPool i := by
  rcases owners_step hs with ⟨howners, hne⟩ | ⟨⟨calls, rfl⟩, howners⟩
  · rw [howners]
    exact ⟨fun hbase => ⟨hbase, fun calls hi => (hne calls hi).elim⟩, And.left⟩
  · rw [howners, List.forall_mem_append, List.forall_mem_singleton, h.getNextLoop_eq_iff]
    refine and_congr_right fun _ => ⟨fun hnil _ _ => hnil, fun hpool => hpool calls rfl⟩

theorem Owned.base_run (h : Owned s) {is : List Input}
    (hs : Run.run TcpServer.step s is = some s') :
    Owned s' ∧ ((∀ loop ∈ s'.owners, loop = baseLoop) ↔
      (∀ loop ∈ s.owners, loop = baseLoop) ∧ Run.Along TcpServer.step NoPool s is) := by
  induction is generalizing s with
  | nil =>
    cases hs
    exact ⟨h, by simp [Run.Along]⟩
  | cons i is ih =>
    obtain ⟨t, ht, hrun⟩ := Run.run_cons.mp hs
    obtain ⟨howned, hiff⟩ := ih (h.step ht) hrun
    refine ⟨howned, hiff.trans ?_⟩
    rw [h.base_step ht, and_assoc]
    refine and_congr_right fun _ => and_congr_right fun _ =>
      ⟨fun halong u hu => ?_, fun halong => halong t ht⟩
    cases ht.symm.trans hu
    exact halong

/-- **Confinement.** In every run the pollers are used by their own threads only, exactly when no
connection is accepted while the pool has a loop. -/
theorem confined_iff (is : List Input) (s : TcpServer) (h : Run.run step new is = some s) :
    s.Confined ↔ Run.Along step NoPool new is := by
  obtain ⟨howned, hiff⟩ := owned_new.base_run h
  rw [howned.confined_iff_owners, hiff]
  exact and_iff_right fun _ h => (List.not_mem_nil h).elim

/-- With one loop in the pool, the constructor of the first connection works on the poller of loop
1 on the base loop's thread. -/
theorem not_confined_of_pool :
    ∃ s, Run.run step new [.start 1, .newConnection []] = some s ∧ ¬s.Confined := by
  refine ⟨_, rfl, fun h => ?_⟩
  have hcall := h.2 _ List.mem_cons_self (baseLoop, .updateChannel .add) List.mem_cons_self rfl
  exact absurd hcall (by decide)

theorem confined_base :
    ∃ s, Run.run step new [.start 0, .newConnection [.shutdown]] = some s ∧ s.Confined := by
  refine ⟨_, rfl, (confined_iff [.start 0, .newConnection [.shutdown]] _ rfl).mpr ?_⟩
  refine ⟨fun _ h => (nomatch h), fun s hs => ?_⟩
  cases hs
  exact ⟨fun _ _ => rfl, fun _ _ => trivial⟩

end TcpServer

end MuduoX
