import MuduoX.Net.TcpServer

/-! Callbacks to a server whose destructor has begun.

A close goes from the loop of the connection to the base loop and back: the handler calls the close
callback, which holds the server as a raw pointer, and what it queues in the base loop holds the same
pointer. The destructor waits for none of this. -/

namespace MuduoX

theorem Revents.close_mem_handlers {re : Revents} :
    Handler.close ∈ re.handlers ↔ re.hup ∧ ¬re.inp := by
  rw [Revents.handlers]
  split <;> split <;> split <;> simp_all

namespace TcpServer

/-- The step runs a close callback or `removeConnectionInLoop`. -/
def CallsBack (s : TcpServer) : Input → Prop
  | .handle loop a => ∃ x ∈ (s.eventLoop loop).activeChannels.head?, x.2.closes a
  | .runFunctor loop _ _ => ∃ id, (s.eventLoop loop).pendingFunctors.head? =
      some (.removeConnectionInLoop id)
  | _ => False

/-- No close is on its way in any loop: no hang-up that has been polled, and nothing that a close
callback has queued. -/
structure NoCloses (s : TcpServer) : Prop where
  active : ∀ loop id, (id, .close) ∉ (s.eventLoop loop).activeChannels
  pending : ∀ loop id, .removeConnectionInLoop id ∉ (s.eventLoop loop).pendingFunctors

/-- No close is on its way when the destructor begins, and from then on no peer closes: the pollers
report no hang-up, and no handler reads the end of a stream. -/
def PeersStay (s : TcpServer) : Input → Prop
  | .destroy => s.NoCloses
  | .poll _ reports => s.life ≠ .running → ∀ x ∈ reports, x.2.hup → x.2.inp
  | .handle loop a => s.life ≠ .running →
      ∀ x ∈ (s.eventLoop loop).activeChannels.head?, x.2 = .read → a.read ≠ .eof
  | _ => True

variable {s s' : TcpServer} {loop tid : LoopId} {id : Nat}

namespace NoCloses

theorem of_eventLoop (h : NoCloses s) (heq : s'.eventLoop = s.eventLoop) : NoCloses s' :=
  ⟨heq ▸ h.active, heq ▸ h.pending⟩

theorem setLoop {active : List (Nat × Handler)} {pending : List Functor} (h : NoCloses s)
    (hactive : ∀ id, (id, .close) ∉ active)
    (hpending : ∀ id, .removeConnectionInLoop id ∉ pending) :
    NoCloses (s.setLoop loop ⟨active, pending⟩) := by
  constructor
  · intro l
    obtain rfl | hl := eq_or_ne l loop
    · rw [setLoop_same]
      exact hactive
    · rw [setLoop_other hl]
      exact h.active l
  · intro l
    obtain rfl | hl := eq_or_ne l loop
    · rw [setLoop_same]
      exact hpending
    · rw [setLoop_other hl]
      exact h.pending l

theorem queueInLoop {f : Functor} (h : NoCloses s) (hf : ∀ id, f ≠ .removeConnectionInLoop id) :
    NoCloses (s.queueInLoop loop f) := by
  refine h.setLoop (h.active loop) fun id hid => ?_
  obtain hid | hid := List.mem_append.mp hid
  · exact h.pending loop id hid
  · exact hf id (List.mem_singleton.mp hid).symm

theorem modify (h : NoCloses s) (f : TcpConnection → TcpConnection) :
    NoCloses (s.modify id f) :=
  h.of_eventLoop rfl

theorem poll {reports : List (Nat × Revents)} (h : NoCloses s)
    (hreports : ∀ x ∈ reports, x.2.hup → x.2.inp) :
    NoCloses (s.setLoop loop
      ⟨reports.flatMap fun x => x.2.handlers.map (x.1, ·), (s.eventLoop loop).pendingFunctors⟩) := by
  refine h.setLoop (fun id hid => ?_) (h.pending loop)
  obtain ⟨x, hx, hid⟩ := List.mem_flatMap.mp hid
  obtain ⟨handler, hhandler, heq⟩ := List.mem_map.mp hid
  obtain ⟨-, rfl⟩ := Prod.mk.inj heq
  obtain ⟨hhup, hinp⟩ := Revents.close_mem_handlers.mp hhandler
  exact hinp (hreports x hx hhup)

theorem destroyConnection (h : NoCloses s) : NoCloses (s.destroyConnection id) := by
  unfold TcpServer.destroyConnection
  split
  · exact h.modify _
  · exact h.queueInLoop nofun

theorem runFunctor {calls : List TcpConnection.Call} {r : WriteResult} {f : Functor}
    (h : NoCloses s) (hf : ∀ id, f ≠ .removeConnectionInLoop id) :
    NoCloses (s.runFunctor tid calls r f) := by
  cases f with
  | removeConnectionInLoop id => exact absurd rfl (hf id)
  | connectEstablished | connectDestroyed | sendInLoop | shutdownInLoop => exact h.modify _

/-- The handler that a loop runs next does not close its connection. -/
theorem not_closes {a : TcpConnection.Answers} {x : Nat × Handler} {rest : List (Nat × Handler)}
    (h : NoCloses s) (hactive : (s.eventLoop loop).activeChannels = x :: rest)
    (hread : x.2 = .read → a.read ≠ .eof) : ¬x.2.closes a := by
  obtain ⟨id, handler⟩ := x
  cases handler with
  | close => exact absurd (hactive ▸ List.mem_cons_self ..) (h.active loop id)
  | read => exact fun heof => hread rfl (of_decide_eq_true heof)
  | write => exact Bool.false_ne_true

end NoCloses

/-! ### Runs -/

/-- Nothing has used the server after its end, and once the destructor has begun no close is on its
way. -/
structure Quiet (s : TcpServer) : Prop where
  dangling : s.dangling = false
  closes : s.life ≠ .running → s.NoCloses

/-- While the server is running, its methods may be called and leave it running. -/
theorem Quiet.of_running (h : s.dangling = false) (hlife : s.life = .running) : Quiet s :=
  ⟨h, fun hne => absurd hlife hne⟩

theorem Quiet.of_life (h : Quiet s) (hdangling : s'.dangling = s.dangling)
    (hlife : s'.life = s.life) (hcloses : s.NoCloses → s'.NoCloses) : Quiet s' :=
  ⟨hdangling.trans h.dangling, fun hne => hcloses (h.closes (hlife ▸ hne))⟩

theorem Quiet.removeConnectionInLoop (h : Quiet s) (hlife : s.life = .running) :
    Quiet (s.removeConnectionInLoop id) := by
  rw [TcpServer.removeConnectionInLoop, if_neg (hlife ▸ nofun)]
  exact .of_running h.dangling hlife

theorem Quiet.removeConnection (h : Quiet s) (hlife : s.life = .running) :
    Quiet (s.removeConnection tid id) := by
  rw [TcpServer.removeConnection, if_neg (hlife ▸ nofun)]
  split
  · exact h.removeConnectionInLoop hlife
  · exact .of_running h.dangling hlife

theorem Quiet.not_callsBack {i : Input} (h : Quiet s) (hstay : s.PeersStay i)
    (hlife : s.life ≠ .running) : ¬s.CallsBack i := by
  have hcloses := h.closes hlife
  cases i with
  | handle loop a =>
    rintro ⟨x, hx, hclose⟩
    obtain ⟨rest, hactive⟩ := List.head?_eq_some_iff.mp hx
    exact hcloses.not_closes hactive (hstay hlife x hx) hclose
  | runFunctor loop calls r =>
    rintro ⟨id, hid⟩
    exact hcloses.pending loop id (List.mem_of_head? hid)
  | _ => exact id

theorem Quiet.step {i : Input} (h : Quiet s) (hstay : s.PeersStay i) (hs : s.step i = some s') :
    Quiet s' := by
  cases took_of_step hs with
  | start numThreads =>
    unfold TcpServer.start
    split
    · exact h
    · exact h.of_life rfl rfl fun hcloses => hcloses.of_eventLoop rfl
  | newConnection calls _ hlife =>
    unfold TcpServer.newConnection
    dsimp only
    generalize (if s.loops = [] then s.next else s.next + 1) = next
    split <;> exact .of_running h.dangling hlife
  | poll => exact ⟨h.dangling, fun hne => (h.closes hne).poll (hstay hne)⟩
  | @handle loop a id handler rest hactive =>
    have hpop : NoCloses s → NoCloses (s.setLoop loop ⟨rest, (s.eventLoop loop).pendingFunctors⟩) :=
      fun hcloses => hcloses.setLoop
        (fun id hid => hcloses.active loop id (hactive ▸ List.mem_cons_of_mem _ hid))
        (hcloses.pending loop)
    have hmodified : Quiet ((s.setLoop loop ⟨rest, _⟩).modify id (·.handle loop a handler)) :=
      h.of_life rfl rfl fun hcloses => (hpop hcloses).modify _
    unfold runHandler
    dsimp only
    split
    case isTrue hclose =>
      refine hmodified.removeConnection ?_
      by_contra hlife
      refine (h.closes hlife).not_closes hactive (hstay hlife (id, handler) ?_) hclose
      rw [hactive]
      rfl
    case isFalse => exact hmodified
  | @runFunctor loop calls r f rest hpending =>
    have hpop : NoCloses s → NoCloses (s.setLoop loop ⟨(s.eventLoop loop).activeChannels, rest⟩) :=
      fun hcloses => hcloses.setLoop (hcloses.active loop)
        (fun id hid => hcloses.pending loop id (hpending ▸ List.mem_cons_of_mem _ hid))
    have hpopped : Quiet (s.setLoop loop ⟨_, rest⟩) := h.of_life rfl rfl hpop
    by_cases hremove : ∃ id, f = .removeConnectionInLoop id
    · obtain ⟨id, rfl⟩ := hremove
      refine hpopped.removeConnectionInLoop ?_
      by_contra hlife
      exact (h.closes hlife).pending loop id (hpending ▸ List.mem_cons_self ..)
    · have hf := not_exists.mp hremove
      refine h.of_life ?_ ?_ fun hcloses => (hpop hcloses).runFunctor hf
      · cases f <;> first | exact absurd rfl (hf _) | rfl
      · cases f <;> first | exact absurd rfl (hf _) | rfl
  | call id call => exact h.of_life rfl rfl fun hcloses => hcloses.modify _
  | send message => exact h.of_life rfl rfl fun hcloses => hcloses.queueInLoop nofun
  | shutdown => exact h.of_life rfl rfl fun hcloses => (hcloses.modify _).queueInLoop nofun
  | destroy => exact ⟨h.dangling, fun _ => hstay.of_eventLoop rfl⟩
  | @destroyConnection rest id hlife =>
    have hcloses : NoCloses { s with life := .destructing (rest.erase id) } :=
      (h.closes (hlife ▸ nofun)).of_eventLoop rfl
    refine ⟨?_, fun _ => hcloses.destroyConnection⟩
    unfold TcpServer.destroyConnection
    split <;> exact h.dangling
  | destroyed hlife =>
    refine ⟨h.dangling, fun _ => ?_⟩
    exact (h.closes (hlife ▸ nofun)).of_eventLoop rfl

theorem quiet_new : Quiet new := .of_running rfl rfl

/-- **A destroyed server is left alone** in every run in which no close is on its way when the
destructor begins and no peer closes from then on: no close callback and no `removeConnectionInLoop`
runs any more. -/
theorem not_called_back (is : List Input) (s : TcpServer) (h : Run.run step new is = some s)
    (hstay : Run.Along step PeersStay new is) :
    Run.Along step (fun s i => s.life ≠ .running → ¬s.CallsBack i) new is ∧ s.dangling = false :=
  ⟨hstay.of_invariant (I := Quiet) (fun _ _ _ hquiet hstay hs => hquiet.step hstay hs)
      (fun _ _ hquiet hstay hlife => hquiet.not_callsBack hstay hlife) quiet_new,
    (Run.run_invariant (I := Quiet) (fun _ _ _ hquiet hstay hs => hquiet.step hstay hs) quiet_new
      hstay h).dangling⟩

/-- A server is destroyed while a connection of an io loop is open. -/
theorem not_called_back_open : ∃ s, Run.run step new [.start 1, .newConnection [],
      .runFunctor 1 [] (.room 0), .destroy, .destroyConnection 0, .runFunctor 1 [] (.room 0),
      .destroyed] = some s ∧
    Run.Along step (fun s i => s.life ≠ .running → ¬s.CallsBack i) new [.start 1, .newConnection [],
      .runFunctor 1 [] (.room 0), .destroy, .destroyConnection 0, .runFunctor 1 [] (.room 0),
      .destroyed] ∧ s.dangling = false := by
  refine ⟨_, rfl, not_called_back [.start 1, .newConnection [], .runFunctor 1 [] (.room 0),
    .destroy, .destroyConnection 0, .runFunctor 1 [] (.room 0), .destroyed] _ rfl ?_⟩
  refine ⟨trivial, fun s₁ h₁ => ⟨trivial, fun s₂ h₂ => ⟨trivial, fun s₃ h₃ => ⟨?_, fun _ _ =>
    ⟨trivial, fun _ _ => ⟨trivial, fun _ _ => ⟨trivial, fun _ _ => trivial⟩⟩⟩⟩⟩⟩⟩
  cases h₁
  cases h₂
  cases h₃
  have hnone : NoCloses (start 1 new) := ⟨fun _ _ => List.not_mem_nil, fun _ _ => List.not_mem_nil⟩
  exact ((hnone.queueInLoop (f := .connectEstablished 0) nofun).setLoop
    (fun _ => List.not_mem_nil) (fun _ => List.not_mem_nil)).of_eventLoop rfl

/-- The io loop reads the end of a stream after the destructor has begun: the close callback runs, and
what it queues finds the server gone. -/
theorem called_back :
    (∃ s, Run.run step new [.start 1, .newConnection [], .runFunctor 1 [] (.room 0),
        .poll 1 [(0, ⟨false, true, false, false, false⟩)], .destroy] = some s ∧
      s.life ≠ .running ∧ s.CallsBack (.handle 1 ⟨.eof, [], .room 0⟩)) ∧
    ∃ s, Run.run step new [.start 1, .newConnection [], .runFunctor 1 [] (.room 0),
        .poll 1 [(0, ⟨false, true, false, false, false⟩)], .destroy, .handle 1 ⟨.eof, [], .room 0⟩,
        .destroyConnection 0, .runFunctor 1 [] (.room 0), .destroyed,
        .runFunctor 0 [] (.room 0)] = some s ∧ s.dangling = true :=
  ⟨⟨_, rfl, nofun, _, rfl, rfl⟩, ⟨_, rfl, rfl⟩⟩

end TcpServer

end MuduoX
