import MuduoX.Net.Lifecycle

/-! The callbacks of all the connections of a server, over whole runs. -/

namespace MuduoX

/-- The handler calls the user back. -/
def Handler.reaches (a : TcpConnection.Answers) : Handler → Bool
  | .close => true
  | .read => a.read ≠ .error
  | .write => false

theorem TcpConnection.Lifecycle.handle {tid : LoopId} {c : TcpConnection} (h : Lifecycle c)
    (a : Answers) (handler : Handler) (hadded : handler.reaches a → c.channel.index = .kAdded) :
    LivesOn c (c.handle tid a handler) := by
  cases handler with
  | close => exact h.handleClose (hadded rfl)
  | read => exact h.handleRead a.read a.calls fun hr => hadded (by simpa [Handler.reaches] using hr)
  | write => exact h.handleWrite a.write

/-! ### The queue of a loop -/

/-- The functor that establishes a connection is in the queue as long as the connection is in
`kConnecting`, once, and before all else that is bound to the connection. -/
structure Waits (state : StateE) (id : Nat) (fs : List Functor) : Prop where
  once : fs.count (.connectEstablished id) = if state = .kConnecting then 1 else 0
  first : state = .kConnecting →
    (fs.filter (·.id = id)).head? = some (.connectEstablished id)

namespace Waits

variable {state state' : StateE} {id : Nat} {f : Functor} {fs : List Functor}

theorem congr (h : Waits state id fs) (hs : state' = .kConnecting ↔ state = .kConnecting) :
    Waits state' id fs :=
  ⟨h.once.trans (by simp only [hs]), fun h' => h.first (hs.mp h')⟩

theorem append (h : Waits state id fs) (hf : f ≠ .connectEstablished id) :
    Waits state id (fs ++ [f]) := by
  refine ⟨?_, fun hs => ?_⟩
  · have hnone : [f].count (.connectEstablished id) = 0 :=
      List.count_eq_zero.mpr (by simpa using hf.symm)
    rw [List.count_append, hnone, Nat.add_zero, h.once]
  · rw [List.filter_append, List.head?_append, h.first hs]
    rfl

theorem pop (h : Waits state id (f :: fs)) (hf : f ≠ .connectEstablished id) :
    Waits state id fs := by
  refine ⟨?_, fun hs => ?_⟩
  · rw [← h.once, List.count_cons_of_ne hf]
  · have hfirst := h.first hs
    rcases Decidable.em (f.id = id) with hid | hid
    · rw [List.filter_cons_of_pos (by simpa using hid), List.head?_cons] at hfirst
      exact absurd (Option.some.inj hfirst) hf
    · rwa [List.filter_cons_of_neg (by simpa using hid)] at hfirst

theorem not_connecting (h : Waits state f.id (f :: fs)) (hf : f ≠ .connectEstablished f.id) :
    state ≠ .kConnecting := by
  intro hs
  have hfirst := h.first hs
  rw [List.filter_cons_of_pos (by simp), List.head?_cons] at hfirst
  exact hf (Option.some.inj hfirst)

theorem connecting_of_established (h : Waits state id (.connectEstablished id :: fs)) :
    state = .kConnecting := by
  by_contra hs
  have honce := h.once
  rw [List.count_cons_self, if_neg hs] at honce
  cases honce

theorem established (h : Waits state id (.connectEstablished id :: fs))
    (hs : state' ≠ .kConnecting) : Waits state' id fs := by
  refine ⟨?_, fun h' => absurd h' hs⟩
  have honce := h.once
  rw [List.count_cons_self, if_pos h.connecting_of_established] at honce
  rw [if_neg hs, Nat.succ.inj honce]

/-- Nothing in the queue is bound to the connection. -/
theorem of_unbound (hfs : ∀ f ∈ fs, f.id ≠ id) (hs : state ≠ .kConnecting) : Waits state id fs := by
  refine ⟨?_, fun h => absurd h hs⟩
  rw [if_neg hs, List.count_eq_zero]
  exact fun hmem => hfs _ hmem rfl

theorem queued (hfs : ∀ f ∈ fs, f.id ≠ id) :
    Waits .kConnecting id (fs ++ [.connectEstablished id]) := by
  refine ⟨?_, fun _ => ?_⟩
  · rw [List.count_append, List.count_eq_zero.mpr fun hmem => hfs _ hmem rfl]
    simp
  · rw [List.filter_append, List.filter_eq_nil_iff.mpr fun f hf => by simpa using hfs f hf]
    simp [Functor.id]

end Waits

namespace TcpServer

variable {s s' : TcpServer} {id : Nat} {loop tid : LoopId}

theorem conns_modify {f : TcpConnection → TcpConnection} {i : Nat} {c : TcpConnection}
    (hc : (s.modify id f).conns[i]? = some c) :
    (i = id ∧ ∃ c₀, s.conns[id]? = some c₀ ∧ c = f c₀) ∨ i ≠ id ∧ s.conns[i]? = some c := by
  rw [modify, List.getElem?_modify] at hc
  obtain ⟨c₀, hc₀, rfl⟩ := Option.map_eq_some_iff.mp hc
  split
  · rename_i heq
    subst heq
    exact .inl ⟨rfl, c₀, hc₀, rfl⟩
  · rename_i hne
    exact .inr ⟨Ne.symm hne, hc₀⟩

theorem modify_concat {α : Type*} (l : List α) (a : α) (f : α → α) :
    (l ++ [a]).modify l.length f = l ++ [f a] := by
  induction l with
  | nil => rfl
  | cons b l ih => rw [List.cons_append, List.length_cons, List.modify_succ_cons, ih,
      List.cons_append]

theorem getElem?_concat_cases {α : Type*} {l : List α} {a b : α} {i : Nat}
    (h : (l ++ [a])[i]? = some b) : l[i]? = some b ∨ i = l.length ∧ b = a := by
  rcases Nat.lt_trichotomy i l.length with hi | rfl | hi
  · rw [List.getElem?_append_left hi] at h
    exact .inl h
  · rw [List.getElem?_concat_length] at h
    exact .inr ⟨rfl, (Option.some.inj h).symm⟩
  · rw [List.getElem?_eq_none (by rw [List.length_append]; exact hi)] at h
    cases h

/-- Nothing is bound to the connection that comes next. -/
theorem Owned.unbound (h : Owned s) {f : Functor} (hf : f ∈ (s.eventLoop loop).pendingFunctors) :
    f.id ≠ s.conns.length := by
  have hlt : f.id < s.owners.length := by
    have hfits := h.pending loop f hf
    cases f with
    | removeConnectionInLoop id => exact hfits.2
    | connectEstablished | connectDestroyed | sendInLoop | shutdownInLoop =>
      exact lt_of_owners hfits
  rw [owners, List.length_map] at hlt
  exact Nat.ne_of_lt hlt

/-! ### What keeps to the protocol -/

/-- What the source leaves to luck: that a handler which calls the user back runs while the channel
is in the epoll set, that `connectDestroyed` does not come between `shutdown` and the end of the
connection, and that another thread's `shutdown` does not come behind that end. -/
def Safe (s : TcpServer) : Input → Prop
  | .handle loop a => ∀ id handler rest c,
    (s.eventLoop loop).activeChannels = (id, handler) :: rest → s.conns[id]? = some c →
      handler.reaches a → c.channel.index = .kAdded
  | .runFunctor loop _ _ => ∀ id rest c,
    (s.eventLoop loop).pendingFunctors = .connectDestroyed id :: rest → s.conns[id]? = some c →
      c.state ≠ .kDisconnecting
  | .destroyConnection id => ∀ c, s.conns[id]? = some c → c.channel.loop = baseLoop →
    c.state ≠ .kDisconnecting
  | .shutdown id => ∀ c, s.conns[id]? = some c → c.state ≠ .kDisconnected
  | _ => True

structure Protocol (s : TcpServer) : Prop where
  lifecycle : ∀ c ∈ s.conns, c.Lifecycle
  waits : ∀ id c, s.conns[id]? = some c →
    Waits c.state id (s.eventLoop c.channel.loop).pendingFunctors
  base : ∀ c ∈ s.conns, c.channel.loop = baseLoop → c.state ≠ .kConnecting

namespace Protocol

theorem modify (h : Protocol s) {f : TcpConnection → TcpConnection}
    (hf : ∀ c, s.conns[id]? = some c →
      TcpConnection.LivesOn c (f c) ∧ (f c).channel.loop = c.channel.loop) :
    Protocol (s.modify id f) := by
  have hconns (i : Nat) (c : TcpConnection) (hc : (s.modify id f).conns[i]? = some c) :
      ∃ c₀, s.conns[i]? = some c₀ ∧ TcpConnection.LivesOn c₀ c ∧
        c.channel.loop = c₀.channel.loop := by
    rcases conns_modify hc with ⟨rfl, c₀, hc₀, rfl⟩ | ⟨-, hc₀⟩
    · exact ⟨c₀, hc₀, hf c₀ hc₀⟩
    · exact ⟨c, hc₀, (h.lifecycle c (List.mem_of_getElem? hc₀)).refl, rfl⟩
  refine ⟨fun c hc => ?_, fun i c hc => ?_, fun c hc hbase => ?_⟩
  · obtain ⟨i, hi⟩ := List.mem_iff_getElem?.mp hc
    obtain ⟨_, -, hlives, -⟩ := hconns i c hi
    exact hlives.lifecycle
  · obtain ⟨c₀, hc₀, hlives, hloop⟩ := hconns i c hc
    rw [hloop]
    exact (h.waits i c₀ hc₀).congr hlives.connecting
  · obtain ⟨i, hi⟩ := List.mem_iff_getElem?.mp hc
    obtain ⟨c₀, hc₀, hlives, hloop⟩ := hconns i c hi
    exact mt hlives.connecting.mp (h.base c₀ (List.mem_of_getElem? hc₀) (hloop ▸ hbase))

/-- The queue of one loop changes, and nothing else that counts. -/
theorem setLoop (h : Protocol s) (el : EventLoop)
    (hwaits : ∀ id c, s.conns[id]? = some c → c.channel.loop = loop →
      Waits c.state id el.pendingFunctors) : Protocol (s.setLoop loop el) := by
  refine ⟨h.lifecycle, fun id c hc => ?_, h.base⟩
  rcases Decidable.em (c.channel.loop = loop) with hloop | hloop
  · rw [hloop, setLoop_same]
    exact hwaits id c hc hloop
  · rw [setLoop_other hloop]
    exact h.waits id c hc

theorem setActive (h : Protocol s) (active : List (Nat × Handler)) :
    Protocol (s.setLoop loop ⟨active, (s.eventLoop loop).pendingFunctors⟩) :=
  h.setLoop _ fun id c hc hloop => hloop ▸ h.waits id c hc

theorem queueInLoop (h : Protocol s) {f : Functor}
    (hf : ∀ id < s.conns.length, f ≠ .connectEstablished id) : Protocol (s.queueInLoop loop f) := by
  refine h.setLoop _ fun id c hc hloop => ?_
  exact (hloop ▸ h.waits id c hc).append (hf id (List.getElem?_eq_some_iff.mp hc).1)

/-- The head of a queue is taken out, and it is not one that establishes a connection. -/
theorem pop (h : Protocol s) {f : Functor} {rest : List Functor}
    (hpending : (s.eventLoop loop).pendingFunctors = f :: rest)
    (hf : ∀ id, f ≠ .connectEstablished id) :
    Protocol (s.setLoop loop ⟨(s.eventLoop loop).activeChannels, rest⟩) := by
  refine h.setLoop _ fun id c hc hloop => ?_
  have hwaits := h.waits id c hc
  rw [hloop, hpending] at hwaits
  exact hwaits.pop (hf id)

theorem removeConnectionInLoop (h : Protocol s) : Protocol (s.removeConnectionInLoop id) := by
  unfold TcpServer.removeConnectionInLoop
  split
  · exact ⟨h.lifecycle, h.waits, h.base⟩
  · have herased : Protocol { s with connections := s.connections.erase id } :=
      ⟨h.lifecycle, h.waits, h.base⟩
    exact herased.queueInLoop fun _ _ h => nomatch h

theorem removeConnection (h : Protocol s) : Protocol (s.removeConnection tid id) := by
  unfold TcpServer.removeConnection
  split
  · exact ⟨h.lifecycle, h.waits, h.base⟩
  · split
    · exact h.removeConnectionInLoop
    · exact h.queueInLoop (by rintro _ _ ⟨⟩)

theorem runHandler (h : Protocol s) (a : TcpConnection.Answers) (handler : Handler)
    (hadded : ∀ c, s.conns[id]? = some c → handler.reaches a → c.channel.index = .kAdded) :
    Protocol (s.runHandler tid a id handler) := by
  have hrun : Protocol (s.modify id (·.handle tid a handler)) := h.modify fun c hc =>
    ⟨(h.lifecycle c (List.mem_of_getElem? hc)).handle a handler (hadded c hc),
      (TcpConnection.did_handle a handler c).loop⟩
  unfold TcpServer.runHandler
  simp only
  split
  · exact hrun.removeConnection
  · exact hrun

/-- The functor at the head of a queue establishes its connection. -/
theorem establish (h : Protocol s) {rest : List Functor} (calls : List TcpConnection.Call)
    (hpending : (s.eventLoop loop).pendingFunctors = .connectEstablished id :: rest)
    (howner : s.owners[id]? = some loop) :
    Protocol ((s.setLoop loop ⟨(s.eventLoop loop).activeChannels, rest⟩).modify id
      (·.connectEstablished loop calls)) := by
  have hest (c : TcpConnection) (hc : s.conns[id]? = some c) :
      (c.connectEstablished loop calls).Lifecycle ∧
        (c.connectEstablished loop calls).state ≠ .kConnecting := by
    have hwaits := h.waits id c hc
    rw [loop_of_owners hc howner, hpending] at hwaits
    exact (h.lifecycle c (List.mem_of_getElem? hc)).connectEstablished
      hwaits.connecting_of_established loop calls
  refine ⟨fun c hc => ?_, fun i c hc => ?_, fun c hc hbase => ?_⟩
  · obtain ⟨i, hi⟩ := List.mem_iff_getElem?.mp hc
    rcases conns_modify hi with ⟨-, c₀, hc₀, rfl⟩ | ⟨-, hc₀⟩
    · exact (hest c₀ hc₀).1
    · exact h.lifecycle c (List.mem_of_getElem? hc₀)
  · rcases conns_modify hc with ⟨rfl, c₀, hc₀, rfl⟩ | ⟨hne, hc₀⟩
    · have hwaits := h.waits i c₀ hc₀
      have hloop := loop_of_owners hc₀ howner
      rw [hloop, hpending] at hwaits
      rw [(TcpConnection.did_connectEstablished calls c₀).loop, hloop, modify_eventLoop,
        setLoop_same]
      exact hwaits.established (hest c₀ hc₀).2
    · have hwaits := h.waits i c hc₀
      rw [modify_eventLoop]
      rcases Decidable.em (c.channel.loop = loop) with hloop | hloop
      · rw [hloop, hpending] at hwaits
        rw [hloop, setLoop_same]
        exact hwaits.pop fun heq => hne (Functor.connectEstablished.inj heq).symm
      · rw [setLoop_other hloop]
        exact hwaits
  · obtain ⟨i, hi⟩ := List.mem_iff_getElem?.mp hc
    rcases conns_modify hi with ⟨-, c₀, hc₀, rfl⟩ | ⟨-, hc₀⟩
    · exact (hest c₀ hc₀).2
    · exact h.base c (List.mem_of_getElem? hc₀) hbase

/-- One more connection, which its loop's queue knows of while it is not established. -/
theorem accept (h : Protocol s) {c : TcpConnection} (next : Nat) (connections : List Nat)
    (hlife : c.Lifecycle)
    (hwaits : Waits c.state s.conns.length (s.eventLoop c.channel.loop).pendingFunctors)
    (hbase : c.channel.loop = baseLoop → c.state ≠ .kConnecting) :
    Protocol { s with next, connections, conns := s.conns ++ [c] } := by
  refine ⟨fun d hd => ?_, fun i d hd => ?_, fun d hd => ?_⟩
  · rcases List.mem_append.mp hd with hd | hd
    · exact h.lifecycle d hd
    · cases List.mem_singleton.mp hd
      exact hlife
  · rcases getElem?_concat_cases hd with hd | ⟨rfl, rfl⟩
    · exact h.waits i d hd
    · exact hwaits
  · rcases List.mem_append.mp hd with hd | hd
    · exact h.base d hd
    · cases List.mem_singleton.mp hd
      exact hbase

theorem newConnection (h : Protocol s) (howned : Owned s) (calls : List TcpConnection.Call) :
    Protocol (s.newConnection calls) := by
  have hnew : (TcpConnection.new baseLoop s.getNextLoop).Lifecycle :=
    TcpConnection.lifecycle_new _
  unfold TcpServer.newConnection
  simp only
  split
  · rename_i hbase
    have hest := hnew.connectEstablished rfl baseLoop calls
    have hloop : ((TcpConnection.new baseLoop s.getNextLoop).connectEstablished baseLoop
        calls).channel.loop = baseLoop := by
      rw [(TcpConnection.did_connectEstablished calls _).loop, TcpConnection.new_loop, hbase]
    have haccept := h.accept (if s.loops = [] then s.next else s.next + 1)
      (s.connections ++ [s.conns.length]) hest.1
      (.of_unbound (fun f hf => howned.unbound hf) hest.2) fun _ => hest.2
    rw [TcpServer.modify, modify_concat]
    exact haccept
  · rename_i hpool
    have hqueued : Protocol (s.queueInLoop s.getNextLoop (.connectEstablished s.conns.length)) :=
      h.queueInLoop fun id hid heq => (Nat.ne_of_lt hid)
        (Functor.connectEstablished.inj heq).symm
    refine hqueued.accept _ _ hnew ?_ ?_
    · rw [TcpConnection.new_loop, queueInLoop_same]
      exact .queued fun f hf => howned.unbound hf
    · rw [TcpConnection.new_loop]
      exact fun hbase => absurd hbase hpool

/-- A functor that does not establish a connection, and has been taken out of the queue. -/
theorem runFunctor (h : Protocol s) (f : Functor) (calls : List TcpConnection.Call)
    (r : WriteResult) (hf : ∀ id, f ≠ .connectEstablished id)
    (hconnecting : ∀ c, s.conns[f.id]? = some c → f ≠ .removeConnectionInLoop f.id →
      c.state ≠ .kConnecting)
    (hsafe : ∀ id c, f = .connectDestroyed id → s.conns[id]? = some c →
      c.state ≠ .kDisconnecting) : Protocol (s.runFunctor loop calls r f) := by
  cases f with
  | connectEstablished id => exact absurd rfl (hf id)
  | removeConnectionInLoop id => exact h.removeConnectionInLoop
  | connectDestroyed id =>
    refine h.modify fun c hc => ⟨?_, (TcpConnection.did_connectDestroyed c).loop⟩
    exact (h.lifecycle c (List.mem_of_getElem? hc)).connectDestroyed
      (hconnecting c hc (fun h => nomatch h)) (hsafe id c rfl hc)
  | sendInLoop id message =>
    refine h.modify fun c hc => ⟨?_, (TcpConnection.quiet_sendInLoop message r c).loop⟩
    exact (h.lifecycle c (List.mem_of_getElem? hc)).sendInLoop
      (hconnecting c hc (fun h => nomatch h)) message r
  | shutdownInLoop id =>
    refine h.modify fun c hc => ⟨?_, (TcpConnection.quiet_shutdownInLoop c).loop⟩
    exact (h.lifecycle c (List.mem_of_getElem? hc)).shutdownInLoop

theorem destroyConnection (h : Protocol s)
    (hsafe : ∀ c, s.conns[id]? = some c → c.channel.loop = baseLoop →
      c.state ≠ .kDisconnecting) : Protocol (s.destroyConnection id) := by
  unfold TcpServer.destroyConnection
  split
  · rename_i hbase
    refine h.modify fun c hc => ⟨?_, (TcpConnection.did_connectDestroyed c).loop⟩
    have hloop : c.channel.loop = baseLoop := by rw [← hbase, loopOf, hc]
    have hmem := List.mem_of_getElem? hc
    exact (h.lifecycle c hmem).connectDestroyed (h.base c hmem hloop) (hsafe c hc hloop)
  · exact h.queueInLoop (by rintro _ _ ⟨⟩)

theorem step {i : Input} (h : Protocol s) (howned : Owned s) (hsafe : s.Safe i)
    (hs : s.step i = some s') : Protocol s' := by
  cases took_of_step hs with
  | start numThreads =>
    unfold TcpServer.start
    split
    · exact h
    · exact ⟨h.lifecycle, h.waits, h.base⟩
  | newConnection calls => exact h.newConnection howned calls
  | poll => exact h.setActive _
  | @handle loop a id handler rest hactive =>
    exact (h.setActive rest).runHandler a handler fun c hc =>
      hsafe id handler rest c hactive hc
  | @runFunctor loop calls r f rest hpending =>
    have hfits := howned.pending loop f (hpending ▸ List.mem_cons_self)
    rcases Decidable.em (f = .connectEstablished f.id) with hest | hest
    · rw [hest] at hpending hfits ⊢
      exact h.establish calls hpending hfits
    · have hne (id : Nat) : f ≠ .connectEstablished id := by
        rintro rfl
        exact hest rfl
      refine (h.pop hpending hne).runFunctor f calls r hne (fun c hc hrem => ?_) ?_
      · have hwaits := h.waits f.id c hc
        have howner : s.owners[f.id]? = some loop := by
          cases f with
          | removeConnectionInLoop id => exact absurd rfl hrem
          | connectEstablished | connectDestroyed | sendInLoop | shutdownInLoop => exact hfits
        rw [loop_of_owners hc howner, hpending] at hwaits
        exact hwaits.not_connecting hest
      · rintro id c rfl hc
        exact hsafe id rest c hpending hc
  | call id call =>
    exact h.modify fun c hc =>
      ⟨(h.lifecycle c (List.mem_of_getElem? hc)).call call, (call.quiet c).loop⟩
  | send message => exact h.queueInLoop fun _ _ heq => nomatch heq
  | @shutdown id c hc hstate =>
    have hset : Protocol (s.modify id (·.setState .kDisconnecting)) := h.modify fun d hd => by
      cases hc.symm.trans hd
      exact ⟨(h.lifecycle c (List.mem_of_getElem? hc)).disconnecting hstate (hsafe c hc), rfl⟩
    exact hset.queueInLoop fun _ _ heq => nomatch heq
  | destroy => exact ⟨h.lifecycle, h.waits, h.base⟩
  | @destroyConnection rest id hlife =>
    have hrest : Protocol { s with life := .destructing (rest.erase id) } :=
      ⟨h.lifecycle, h.waits, h.base⟩
    exact hrest.destroyConnection hsafe
  | destroyed => exact ⟨h.lifecycle, h.waits, h.base⟩

end Protocol

theorem protocol_new : Protocol new :=
  ⟨fun _ h => (List.not_mem_nil h).elim, fun _ _ h => (nomatch h),
    fun _ h => (List.not_mem_nil h).elim⟩

/-- **Up, messages, down.** In every run whose steps are safe, every connection has called back in
this order, and has been reported down when its `connectDestroyed` has come to its end. -/
theorem followsProtocol (is : List Input) (s : TcpServer) (h : Run.run step new is = some s)
    (hsafe : Run.Along step Safe new is) : ∀ c ∈ s.conns, c.FollowsProtocol := by
  have hinv : Owned s ∧ Protocol s :=
    Run.run_invariant (I := fun s => Owned s ∧ Protocol s) (fun _ _ _ hinv hsafe hs =>
      ⟨hinv.1.step hs, hinv.2.step hinv.1 hsafe hs⟩) ⟨owned_new, protocol_new⟩ hsafe h
  exact fun c hc => (hinv.2.lifecycle c hc).follows

/-- A connection that has been accepted, and the destruction of the server around it. -/
theorem followsProtocol_destroyed :
    ∃ s, Run.run step new [.start 0, .newConnection [], .destroy, .destroyConnection 0] = some s ∧
      ∀ c ∈ s.conns, c.FollowsProtocol := by
  refine ⟨_, rfl, followsProtocol
    [.start 0, .newConnection [], .destroy, .destroyConnection 0] _ rfl ?_⟩
  refine ⟨trivial, fun s₁ h₁ => ⟨trivial, fun s₂ h₂ => ⟨trivial, fun s₃ h₃ =>
    ⟨?_, fun _ _ => trivial⟩⟩⟩⟩
  cases h₁
  cases h₂
  cases h₃
  rintro c hc -
  cases hc
  exact fun h => nomatch h

/-- Two runs that break the protocol. In the first one `shutdown` has been called when the server is
destroyed, and the connection is never reported down. In the second one the poller reports
`EPOLLHUP | EPOLLPRI`, and the connection is closed twice. -/
theorem not_followsProtocol :
    (∃ s, Run.run step new [.start 0, .newConnection [], .call 0 .shutdown, .destroy,
        .destroyConnection 0] = some s ∧ ∃ c ∈ s.conns, ¬c.FollowsProtocol) ∧
      ∃ s, Run.run step new [.start 0, .newConnection [],
        .poll 0 [(0, ⟨true, false, true, false, false⟩)],
        .handle 0 ⟨.eof, [], .room 0⟩, .handle 0 ⟨.eof, [], .room 0⟩] = some s ∧
          ∃ c ∈ s.conns, ¬c.FollowsProtocol := by
  refine ⟨⟨_, rfl, _, List.mem_cons_self, fun h => ?_⟩,
    ⟨_, rfl, _, List.mem_cons_self, fun h => ?_⟩⟩
  · have hdown := h.2 ⟨_, List.mem_concat_self, rfl⟩
    exact absurd hdown (by decide)
  · obtain ⟨⟨messages, hpre⟩, -⟩ := h
    have hnone : (messages.map Event.messageCallback).count .closeCallback = 0 :=
      List.count_eq_zero.mpr (by simp)
    have hcount := hpre.sublist.count_le .closeCallback
    rw [List.cons_append, List.count_cons_of_ne (by simp), List.count_append, hnone] at hcount
    exact absurd hcount (by decide)

end TcpServer

end MuduoX
