import Mathlib
import MuduoX.Net.TcpConnection
import MuduoX.Theory.Run

/-! `TcpConnection::send` on a thread that is not the one of the connection's loop.

`std::bind` copies what it is given, which is a pointer and a length. The functor that waits in the
queue of the loop reads the bytes when it runs, whatever has become of the string or of the
temporary that they were in when `send` was called (`received_payload`). -/

namespace MuduoX

abbrev Ptr := Nat

/-- The storage that the strings have allocated; what has been given back holds nothing. -/
abbrev Memory := Ptr → Option Bytes

/-- The `len` bytes behind a pointer. Where there are none to read the pointer may dangle. -/
def Memory.read (m : Memory) (message : Ptr) (len : Nat) : Option Bytes :=
  if len = 0 then some [] else
  match m message with
  | none => none
  | some bs => if len ≤ bs.length then some (bs.take len) else none

theorem Memory.read_of_isPrefix {m : Memory} {message : Ptr} {bs payload : Bytes}
    (h : m message = some bs) (hpre : payload <+: bs) :
    m.read message payload.length = some payload := by
  unfold read
  split
  · rename_i hlen
    rw [List.length_eq_zero_iff.mp hlen]
  · simp only [h, if_pos hpre.length_le]
    rw [← List.prefix_iff_eq_take.mp hpre]

/-- `std::bind(&TcpConnection::sendInLoop, this, message, len)`, together with the bytes that the
caller of `send` has asked for. -/
structure SendInLoop where
  message : Ptr
  len : Nat
  payload : Bytes
  deriving DecidableEq

/-- The order in which the two arguments of `bind` are evaluated is left to the compiler. -/
inductive ArgOrder where
  | messageFirst | lenFirst
  deriving DecidableEq

/-- `buf->retrieveAllAsString()` and `buf->readableBytes()`. -/
def ArgOrder.bind (buf : Buffer) : ArgOrder → Bytes × Nat
  | .messageFirst =>
    let (message, buf) := buf.retrieveAllAsString
    (message, buf.readableBytes)
  | .lenFirst => (buf.retrieveAllAsString.1, buf.readableBytes)

structure CrossSend where
  memory : Memory
  /-- The temporaries of the calls of `send(Buffer*)` that have not returned. -/
  temporaries : List Ptr
  pendingFunctors : List SendInLoop
  conn : TcpConnection
  /-- What each run of `sendInLoop` was asked to send, and what it has read. -/
  received : List (Bytes × Option Bytes)

namespace CrossSend

def new (conn : TcpConnection) : CrossSend := ⟨fun _ => none, [], [], conn, []⟩

inductive Input where
  /-- Any thread allocates, overwrites and frees the storage of its strings. -/
  | alloc (p : Ptr) (bs : Bytes)
  | store (p : Ptr) (bs : Bytes)
  | free (p : Ptr)
  /-- Another thread calls `send` with the string stored at `p`. -/
  | send (p : Ptr)
  /-- Another thread calls `send` with a buffer; the temporary is stored at `p`. -/
  | sendBuffer (buf : Buffer) (o : ArgOrder) (p : Ptr)
  /-- `send` returns, and with it the temporary at `p` is destroyed. -/
  | sendReturns (p : Ptr)
  /-- The loop runs the next functor. -/
  | runFunctor (r : WriteResult)
  /-- Whatever else the loop's thread does with the connection. -/
  | call (call : TcpConnection.Call)
  | event (re : Revents) (a : TcpConnection.Answers)

def store (p : Ptr) (block : Option Bytes) (s : CrossSend) : CrossSend :=
  { s with memory := Function.update s.memory p block }

def queueInLoop (f : SendInLoop) (s : CrossSend) : CrossSend :=
  { s with pendingFunctors := s.pendingFunctors ++ [f] }

/-- The functor runs on the loop's thread. What a read of freed memory leads to is not defined. -/
def runFunctor (f : SendInLoop) (r : WriteResult) (s : CrossSend) : CrossSend :=
  let bytes := s.memory.read f.message f.len
  { s with
    received := s.received ++ [(f.payload, bytes)]
    conn := match bytes with
      | some bs => s.conn.sendInLoop s.conn.channel.loop bs r
      | none => s.conn }

def step (s : CrossSend) : Input → Option CrossSend
  | .alloc p bs => if s.memory p = none then some (s.store p (some bs)) else none
  | .store p bs =>
    if s.memory p = none ∨ p ∈ s.temporaries then none else some (s.store p (some bs))
  | .free p => if s.memory p = none ∨ p ∈ s.temporaries then none else some (s.store p none)
  | .send p =>
    match s.memory p with
    | none => none
    | some bs => some (if s.conn.state = .kConnected then s.queueInLoop ⟨p, bs.length, bs⟩ else s)
  | .sendBuffer buf o p =>
    if s.memory p ≠ none then none
    else if s.conn.state ≠ .kConnected then some s
    else some ({ s.store p (some (o.bind buf).1) with
      temporaries := p :: s.temporaries }.queueInLoop ⟨p, (o.bind buf).2, buf.readable⟩)
  | .sendReturns p =>
    if p ∈ s.temporaries then
      some { s.store p none with temporaries := s.temporaries.erase p }
    else none
  | .runFunctor r =>
    match s.pendingFunctors with
    | [] => none
    | f :: fs => some ({ s with pendingFunctors := fs }.runFunctor f r)
  | .call call => some { s with conn := call.apply s.conn.channel.loop s.conn }
  | .event re a => some { s with conn := s.conn.handleEvent s.conn.channel.loop re a }

/-- The bytes that a functor is going to read stay as they are, and a buffer that is sent is measured
before it is emptied. -/
def Safe (s : CrossSend) : Input → Prop
  | .store p bs => ∀ f ∈ s.pendingFunctors, f.message = p → f.payload <+: bs
  | .free p | .sendReturns p => ∀ f ∈ s.pendingFunctors, f.message = p → f.payload = []
  | .sendBuffer buf o _ => s.conn.state = .kConnected → o = .lenFirst ∨ buf.readableBytes = 0
  | _ => True

/-! ### What the functors read -/

/-- The functor would read its payload now. -/
def Ready (m : Memory) (f : SendInLoop) : Prop :=
  f.len = f.payload.length ∧ (f.payload = [] ∨ ∃ bs, m f.message = some bs ∧ f.payload <+: bs)

variable {s s' : CrossSend} {m : Memory} {f : SendInLoop}

theorem Ready.read (h : Ready m f) : m.read f.message f.len = some f.payload := by
  obtain ⟨hlen, hnil | ⟨bs, hbs, hpre⟩⟩ := h
  · rw [hlen, hnil]
    rfl
  · rw [hlen]
    exact Memory.read_of_isPrefix hbs hpre

/-- One block changes: the functors that read it must find their payload in what is new. -/
theorem Ready.update (h : Ready m f) {p : Ptr} {block : Option Bytes}
    (hp : f.message = p → f.payload = [] ∨ ∃ bs, block = some bs ∧ f.payload <+: bs) :
    Ready (Function.update m p block) f := by
  refine ⟨h.1, ?_⟩
  rcases Decidable.em (f.message = p) with heq | hne
  · rw [heq, Function.update_self]
    exact hp heq
  · rw [Function.update_of_ne hne]
    exact h.2

structure Inv (s : CrossSend) : Prop where
  ready : ∀ f ∈ s.pendingFunctors, Ready s.memory f
  received : ∀ x ∈ s.received, x.2 = some x.1

theorem Inv.queueInLoop (h : Inv s) (hf : Ready s.memory f) : Inv (s.queueInLoop f) := by
  refine ⟨fun g hg => ?_, h.received⟩
  rcases List.mem_append.mp hg with hg | hg
  · exact h.ready g hg
  · cases List.mem_singleton.mp hg
    exact hf

theorem Inv.store (h : Inv s) {p : Ptr} {block : Option Bytes}
    (hp : ∀ f ∈ s.pendingFunctors, f.message = p →
      f.payload = [] ∨ ∃ bs, block = some bs ∧ f.payload <+: bs) : Inv (s.store p block) :=
  ⟨fun f hf => (h.ready f hf).update (hp f hf), h.received⟩

/-- A block that is free is nobody's. -/
theorem Inv.alloc (h : Inv s) {p : Ptr} (hp : s.memory p = none) (bs : Bytes) :
    Inv (s.store p (some bs)) := by
  refine h.store fun f hf heq => .inl ?_
  refine (h.ready f hf).2.resolve_right ?_
  rintro ⟨bs', hbs', -⟩
  rw [heq, hp] at hbs'
  cases hbs'

theorem Inv.runFunctor (h : Inv s) {fs : List SendInLoop} (hpending : s.pendingFunctors = f :: fs)
    (r : WriteResult) : Inv ({ s with pendingFunctors := fs }.runFunctor f r) := by
  have hready := h.ready f (hpending ▸ List.mem_cons_self)
  refine ⟨fun g hg => h.ready g (hpending ▸ List.mem_cons_of_mem f hg), fun x hx => ?_⟩
  rcases List.mem_append.mp hx with hx | hx
  · exact h.received x hx
  · cases List.mem_singleton.mp hx
    exact hready.read

theorem retrieveAllAsString_fst (buf : Buffer) : buf.retrieveAllAsString.1 = buf.readable := by
  rw [Buffer.retrieveAllAsString, Buffer.retrieveAsString, slice, List.drop_zero,
    ← Buffer.readable_length, List.take_length]

theorem retrieveAllAsString_snd (buf : Buffer) : buf.retrieveAllAsString.2.readableBytes = 0 := by
  rw [← Buffer.readable_length]
  simp [Buffer.retrieveAllAsString, Buffer.retrieveAsString]

/-- The arguments of a buffer that is measured first, or that is empty. -/
theorem bind_of_safe {buf : Buffer} {o : ArgOrder} (h : o = .lenFirst ∨ buf.readableBytes = 0) :
    o.bind buf = (buf.readable, buf.readable.length) := by
  cases o with
  | lenFirst => rw [ArgOrder.bind, retrieveAllAsString_fst, Buffer.readable_length]
  | messageFirst =>
    have hempty := h.resolve_left (fun h => nomatch h)
    simp only [ArgOrder.bind, retrieveAllAsString_snd, retrieveAllAsString_fst,
      Buffer.readable_length, hempty]

theorem Inv.sendBuffer (h : Inv s) {buf : Buffer} {o : ArgOrder} {p : Ptr} (temps : List Ptr)
    (hsafe : o = .lenFirst ∨ buf.readableBytes = 0) (hp : s.memory p = none) :
    Inv ({ s.store p (some (o.bind buf).1) with
      temporaries := temps }.queueInLoop ⟨p, (o.bind buf).2, buf.readable⟩) := by
  have hstored := h.alloc hp (o.bind buf).1
  have htemps : Inv { s.store p (some (o.bind buf).1) with temporaries := temps } :=
    ⟨hstored.ready, hstored.received⟩
  refine htemps.queueInLoop ?_
  rw [bind_of_safe hsafe]
  exact ⟨rfl, .inr ⟨buf.readable, Function.update_self .., List.prefix_rfl⟩⟩

theorem Inv.step {i : Input} (h : Inv s) (hsafe : s.Safe i) (hs : s.step i = some s') : Inv s' := by
  cases i with
  | alloc p bs =>
    simp only [CrossSend.step, Option.ite_none_right_eq_some] at hs
    obtain ⟨hp, hs⟩ := hs
    cases hs
    exact h.alloc hp bs
  | store p bs =>
    simp only [CrossSend.step, Option.ite_none_left_eq_some] at hs
    obtain ⟨-, hs⟩ := hs
    cases hs
    exact h.store fun f hf heq => .inr ⟨bs, rfl, hsafe f hf heq⟩
  | free p =>
    simp only [CrossSend.step, Option.ite_none_left_eq_some] at hs
    obtain ⟨-, hs⟩ := hs
    cases hs
    exact h.store fun f hf heq => .inl (hsafe f hf heq)
  | send p =>
    match hp : s.memory p with
    | none => simp [CrossSend.step, hp] at hs
    | some bs =>
      simp only [CrossSend.step, hp, Option.some.injEq] at hs
      subst hs
      split
      · exact h.queueInLoop ⟨rfl, .inr ⟨bs, hp, List.prefix_rfl⟩⟩
      · exact h
  | sendBuffer buf o p =>
    simp only [CrossSend.step, Option.ite_none_left_eq_some] at hs
    obtain ⟨hp, hs⟩ := hs
    split at hs
    · cases hs
      exact h
    · rename_i hstate
      cases hs
      exact h.sendBuffer _ (hsafe (Decidable.not_not.mp hstate)) (Decidable.not_not.mp hp)
  | sendReturns p =>
    simp only [CrossSend.step, Option.ite_none_right_eq_some] at hs
    obtain ⟨-, hs⟩ := hs
    cases hs
    have hfreed : Inv (s.store p none) := h.store fun f hf heq => .inl (hsafe f hf heq)
    exact ⟨hfreed.ready, hfreed.received⟩
  | runFunctor r =>
    match hpending : s.pendingFunctors with
    | [] => simp [CrossSend.step, hpending] at hs
    | f :: fs =>
      simp only [CrossSend.step, hpending, Option.some.injEq] at hs
      subst hs
      exact h.runFunctor hpending r
  | call call => cases hs; exact ⟨h.ready, h.received⟩
  | event re a => cases hs; exact ⟨h.ready, h.received⟩

/-- **The bytes of the sender.** In every run whose steps are safe, each functor has read what the
payload held when `send` was called. -/
theorem received_payload (conn : TcpConnection) (is : List Input) (s : CrossSend)
    (h : Run.run CrossSend.step (new conn) is = some s)
    (hsafe : Run.Along CrossSend.step Safe (new conn) is) : ∀ x ∈ s.received, x.2 = some x.1 :=
  have hnew : Inv (new conn) :=
    ⟨fun _ hf => (List.not_mem_nil hf).elim, fun _ hx => (List.not_mem_nil hx).elim⟩
  (Run.run_invariant (I := Inv) (fun _ _ _ hinv hsafe hs => hinv.step hsafe hs)
    hnew hsafe h).received

/-- The functor runs before the caller's string is overwritten. -/
theorem received_payload_kept :
    ∃ s, Run.run CrossSend.step (new (.established baseLoop 1)) [.alloc 0 (ascii "hi"), .send 0,
        .runFunctor (.room 2), .store 0 (ascii "no")] = some s ∧
      ∀ x ∈ s.received, x.2 = some x.1 := by
  refine ⟨_, rfl, received_payload (.established baseLoop 1) [.alloc 0 (ascii "hi"), .send 0,
    .runFunctor (.room 2), .store 0 (ascii "no")] _ rfl ?_⟩
  refine ⟨trivial, fun s₁ h₁ => ⟨trivial, fun s₂ h₂ => ⟨trivial, fun s₃ h₃ =>
    ⟨?_, fun _ _ => trivial⟩⟩⟩⟩
  cases h₁
  cases h₂
  cases h₃
  exact fun f hf => (List.not_mem_nil hf).elim

/-- Three runs in which other bytes arrive: the caller overwrites its string before the functor
runs; a buffer is emptied before it is measured; a buffer is measured first, but its temporary is
gone when the functor runs. -/
theorem received_otherwise :
    ((Run.run CrossSend.step (new (.established baseLoop 1)) [.alloc 0 (ascii "hi"), .send 0,
        .store 0 (ascii "no"), .runFunctor (.room 2)]).map received =
      some [(ascii "hi", some (ascii "no"))]) ∧
    ((Run.run CrossSend.step (new (.established baseLoop 1))
        [.sendBuffer ((Buffer.new 8).append (ascii "hi")) .messageFirst 0,
        .runFunctor (.room 2)]).map received = some [(ascii "hi", some [])]) ∧
    ((Run.run CrossSend.step (new (.established baseLoop 1))
        [.sendBuffer ((Buffer.new 8).append (ascii "hi")) .lenFirst 0, .sendReturns 0,
        .runFunctor (.room 2)]).map received = some [(ascii "hi", none)]) := by
  decide +kernel

end CrossSend

end MuduoX
