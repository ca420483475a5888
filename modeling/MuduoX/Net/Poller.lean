import MuduoX.Net.Channel
import MuduoX.Theory.Run

/-! `EPollPoller` (`src/EPollPoller.cpp`) over the kernel's epoll set, with all the channels of its
loop (`include/Channel.h`).

What `updateChannel` and `removeChannel` do to one channel is in `Channel.lean`; here are the table
`channels_`, the set that `epoll_ctl` changes, and which of the calls of `epoll_ctl` the kernel
refuses. There is at most one channel for a descriptor at a time, so a live channel is found under
its descriptor; an address is used once. -/

namespace MuduoX

abbrev Fd := Nat
abbrev ChannelPtr := Nat

/-- What is registered for a descriptor: `EPOLLIN | EPOLLPRI`, and `EPOLLOUT`. -/
structure Mask where
  reading : Bool
  writing : Bool
  deriving DecidableEq

def Channel.events (ch : Channel) : Mask := ⟨ch.reading, ch.writing⟩

/-- The calls of a channel that end in the poller. -/
inductive ChannelCall where
  /-- One of the four setters of a callback. -/
  | setCallback
  | enableReading | diableReading | enableWriting | disableWriting | disableAll
  | remove
  deriving DecidableEq

/-- `events_` behind the call. -/
def Channel.interest (ch : Channel) : ChannelCall → Channel
  | .setCallback | .remove => ch
  | .enableReading => { ch with reading := true }
  | .diableReading => { ch with reading := false }
  | .enableWriting => { ch with writing := true }
  | .disableWriting => { ch with writing := false }
  | .disableAll => { ch with reading := false, writing := false }

structure LiveChannel where
  ptr : ChannelPtr
  channel : Channel
  /-- It has been removed, and its interest has not been set since. -/
  removed : Bool

/-- A call of `epoll_ctl`, and whether the descriptor was in the set. -/
structure EpollCall where
  op : EpollCtl
  present : Bool
  deriving DecidableEq

/-- The kernel carries the call out. -/
def EpollCall.Legal (c : EpollCall) : Prop := c.present = true ↔ c.op ≠ .add

/-- What is registered behind a call of `epoll_ctl`. -/
def EpollCtl.registered (events : Mask) : EpollCtl → Option Mask → Option Mask
  | .add, none | .mod, some _ => some events
  | .add, some m => some m
  | .mod, none | .del, _ => none

structure Poller where
  ownerLoop : LoopId
  live : Fd → Option LiveChannel
  /-- `channels_` -/
  channels : Fd → Option ChannelPtr
  epoll : Fd → Option Mask
  calls : List EpollCall
  fresh : ChannelPtr

namespace Poller

def new (loop : LoopId) : Poller := ⟨loop, fun _ => none, fun _ => none, fun _ => none, [], 0⟩

/-- `epoll_ctl`: what the kernel refuses changes nothing. -/
def epollCtl (op : EpollCtl) (fd : Fd) (events : Mask) (s : Poller) : Poller :=
  { s with
    calls := s.calls ++ [⟨op, (s.epoll fd).isSome⟩]
    epoll := Function.update s.epoll fd (op.registered events (s.epoll fd)) }

def updateChannel (fd : Fd) (l : LiveChannel) (s : Poller) : Poller :=
  let r := EPollPoller.updateChannel l.channel
  let s := { s with
    live := Function.update s.live fd (some { l with channel := r.1 })
    channels :=
      if l.channel.index = Index.kNew then Function.update s.channels fd (some l.ptr)
      else s.channels }
  s.epollCtl r.2 fd l.channel.events

def removeChannel (fd : Fd) (l : LiveChannel) (s : Poller) : Poller :=
  let r := EPollPoller.removeChannel l.channel
  let s := { s with
    live := Function.update s.live fd (some { l with channel := r.1, removed := true })
    channels := Function.update s.channels fd none }
  match r.2 with
  | none => s
  | some op => s.epollCtl op fd l.channel.events

inductive Input where
  /-- `Channel(loop, fd)`: no other live channel has the descriptor. -/
  | create (fd : Fd)
  | call (fd : Fd) (c : ChannelCall)
  /-- The channel is destroyed and its descriptor closed; `remove()` comes before that. -/
  | destroy (fd : Fd)

/-- A setter leaves the interest as it was. -/
def call (fd : Fd) (l : LiveChannel) (c : ChannelCall) (s : Poller) : Poller :=
  match c with
  | .remove => s.removeChannel fd l
  | .setCallback => s.updateChannel fd l
  | c => s.updateChannel fd { l with channel := l.channel.interest c, removed := false }

def step (s : Poller) : Input → Option Poller
  | .create fd =>
    match s.live fd with
    | some _ => none
    | none => some { s with
        live := Function.update s.live fd (some ⟨s.fresh, .new s.ownerLoop, false⟩)
        fresh := s.fresh + 1 }
  | .call fd c =>
    match s.live fd with
    | none => none
    | some l => some (s.call fd l c)
  | .destroy fd =>
    match s.live fd with
    | none => none
    | some l =>
      if l.channel.index = .kNew then some { s with live := Function.update s.live fd none }
      else none

/-! ### The poller and the kernel agree -/

/-- What the index of a channel says of the table and of the kernel's set. -/
structure Agrees (s : Poller) (fd : Fd) (l : LiveChannel) : Prop where
  epoll : s.epoll fd = if l.channel.index = .kAdded then some l.channel.events else none
  channels : s.channels fd = if l.channel.index = .kNew then none else some l.ptr

structure Inv (s : Poller) : Prop where
  agrees : ∀ {fd l}, s.live fd = some l → s.Agrees fd l
  absent : ∀ {fd}, s.live fd = none → s.epoll fd = none ∧ s.channels fd = none
  legal : ∀ c ∈ s.calls, c.Legal

variable {s s' : Poller} {fd : Fd} {l l₀ : LiveChannel}

theorem inv_new (loop : LoopId) : Inv (new loop) := ⟨nofun, fun _ => ⟨rfl, rfl⟩, nofun⟩

/-- One descriptor changes hands or state. -/
theorem Inv.of_live (h : Inv s) (hlive : s'.live fd = some l)
    (hother : ∀ g ≠ fd, s'.live g = s.live g ∧ s'.epoll g = s.epoll g ∧
      s'.channels g = s.channels g) (hagrees : s'.Agrees fd l)
    (hlegal : ∀ c ∈ s'.calls, c.Legal) : Inv s' := by
  refine ⟨fun {g m} hm => ?_, fun {g} hg => ?_, hlegal⟩
  · obtain rfl | hne := eq_or_ne g fd
    · cases hlive.symm.trans hm
      exact hagrees
    · obtain ⟨hl, hepoll, hchannels⟩ := hother g hne
      have hg := h.agrees (hl ▸ hm)
      exact ⟨hepoll.trans hg.epoll, hchannels.trans hg.channels⟩
  · obtain rfl | hne := eq_or_ne g fd
    · cases hlive.symm.trans hg
    · obtain ⟨hl, hepoll, hchannels⟩ := hother g hne
      rw [hepoll, hchannels]
      exact h.absent (hl ▸ hg)

theorem Inv.legal_concat (h : Inv s) {c : EpollCall} (hc : c.Legal) :
    ∀ c' ∈ s.calls ++ [c], c'.Legal := by
  intro c' hc'
  obtain hc' | hc' := List.mem_append.mp hc'
  · exact h.legal c' hc'
  · cases List.mem_singleton.mp hc'
    exact hc

theorem epollCtl_epoll {op : EpollCtl} {m : Mask} {g : Fd} (hg : g ≠ fd) :
    (s.epollCtl op fd m).epoll g = s.epoll g := Function.update_of_ne hg ..

/-- The poller asks for what the kernel can do, and then the index is right. -/
theorem updateChannel_ctl (ch : Channel) (m : Mask) :
    let set := if ch.index = .kAdded then some m else none
    EpollCall.Legal ⟨(EPollPoller.updateChannel ch).2, set.isSome⟩ ∧
      (EPollPoller.updateChannel ch).2.registered ch.events set =
        if (EPollPoller.updateChannel ch).1.index = .kAdded then some ch.events else none := by
  obtain ⟨loop, reading, writing, index⟩ := ch
  cases index with
  | kNew | kDeleted => simp [EpollCall.Legal, EPollPoller.updateChannel, EpollCtl.registered]
  | kAdded =>
    cases reading <;> cases writing <;> simp [EpollCall.Legal, EPollPoller.updateChannel,
      EpollCtl.registered, Channel.isNoneEvent]

theorem updateChannel_index (ch : Channel) : (EPollPoller.updateChannel ch).1.index ≠ .kNew := by
  rw [EPollPoller.updateChannel]
  cases hi : ch.index with
  | kNew | kDeleted => simp
  | kAdded => cases hnone : ch.isNoneEvent <;> simp [hi]

theorem updateChannel_events (ch : Channel) :
    (EPollPoller.updateChannel ch).1.events = ch.events := by
  rw [Channel.events, EPollPoller.updateChannel_reading, EPollPoller.updateChannel_writing]
  rfl

/-- The interest has been set; the index is still what it was. -/
theorem Inv.updateChannel (h : Inv s) (hlive : s.live fd = some l₀) (hptr : l.ptr = l₀.ptr)
    (hindex : l.channel.index = l₀.channel.index) : Inv (s.updateChannel fd l) := by
  obtain ⟨hepoll, hchannels⟩ := h.agrees hlive
  rw [← hindex] at hepoll hchannels
  rw [← hptr] at hchannels
  obtain ⟨hlegal, hregistered⟩ := updateChannel_ctl l.channel l₀.channel.events
  rw [← hepoll] at hlegal hregistered
  refine h.of_live (Function.update_self ..) (fun g hg => ⟨Function.update_of_ne hg .., ?_, ?_⟩)
    ⟨?_, ?_⟩ (h.legal_concat hlegal)
  · exact epollCtl_epoll hg
  · change (if l.channel.index = Index.kNew then Function.update s.channels fd (some l.ptr)
      else s.channels) g = _
    split
    · exact Function.update_of_ne hg ..
    · rfl
  · rw [updateChannel_events, ← hregistered]
    exact Function.update_self ..
  · rw [if_neg (updateChannel_index _)]
    change (if l.channel.index = Index.kNew then Function.update s.channels fd (some l.ptr)
      else s.channels) fd = _
    split
    · exact Function.update_self ..
    · rename_i hne
      rwa [if_neg hne] at hchannels

theorem Inv.removeChannel (h : Inv s) (hlive : s.live fd = some l) :
    Inv (s.removeChannel fd l) := by
  obtain ⟨hepoll, hchannels⟩ := h.agrees hlive
  rw [Poller.removeChannel, EPollPoller.removeChannel]
  by_cases hi : l.channel.index = .kAdded
  · simp only [if_pos hi]
    rw [if_pos hi] at hepoll
    have hlegal : EpollCall.Legal ⟨.del, (s.epoll fd).isSome⟩ := by
      rw [EpollCall.Legal, hepoll]
      simp
    refine h.of_live (Function.update_self ..) (fun g hg => ⟨Function.update_of_ne hg .., ?_,
      Function.update_of_ne hg ..⟩) ⟨Function.update_self .., Function.update_self ..⟩
      (h.legal_concat hlegal)
    exact epollCtl_epoll hg
  · simp only [if_neg hi]
    rw [if_neg hi] at hepoll
    exact h.of_live (Function.update_self ..) (fun g hg => ⟨Function.update_of_ne hg .., rfl,
      Function.update_of_ne hg ..⟩) ⟨hepoll, Function.update_self ..⟩ h.legal

theorem Inv.call (h : Inv s) (hlive : s.live fd = some l) (c : ChannelCall) :
    Inv (s.call fd l c) := by
  cases c with
  | remove => exact h.removeChannel hlive
  | setCallback => exact h.updateChannel hlive rfl rfl
  | enableReading | diableReading | enableWriting | disableWriting | disableAll =>
    exact h.updateChannel hlive rfl rfl

theorem Inv.step {i : Input} (h : Inv s) (hs : s.step i = some s') : Inv s' := by
  cases i with
  | create fd =>
    rw [Poller.step] at hs
    obtain hlive | ⟨l, hlive⟩ := Option.eq_none_or_eq_some (s.live fd) <;> rw [hlive] at hs <;>
      cases hs
    obtain ⟨hepoll, hchannels⟩ := h.absent hlive
    exact h.of_live (Function.update_self ..) (fun g hg => ⟨Function.update_of_ne hg .., rfl, rfl⟩)
      ⟨hepoll, hchannels⟩ h.legal
  | call fd c =>
    rw [Poller.step] at hs
    obtain hlive | ⟨l, hlive⟩ := Option.eq_none_or_eq_some (s.live fd) <;> rw [hlive] at hs <;>
      cases hs
    exact h.call hlive c
  | destroy fd =>
    rw [Poller.step] at hs
    obtain hlive | ⟨l, hlive⟩ := Option.eq_none_or_eq_some (s.live fd) <;> rw [hlive] at hs
    · cases hs
    · simp only [Option.ite_none_right_eq_some] at hs
      obtain ⟨hindex, hs⟩ := hs
      cases hs
      obtain ⟨hepoll, hchannels⟩ := h.agrees hlive
      rw [hindex] at hepoll hchannels
      refine ⟨fun {g m} hm => ?_, fun {g} hg => ?_, h.legal⟩
      · obtain rfl | hne := eq_or_ne g fd
        · cases (Function.update_self ..).symm.trans hm
        · obtain ⟨hepoll, hchannels⟩ := h.agrees ((Function.update_of_ne hne ..).symm.trans hm)
          exact ⟨hepoll, hchannels⟩
      · obtain rfl | hne := eq_or_ne g fd
        · exact ⟨hepoll, hchannels⟩
        · exact h.absent ((Function.update_of_ne hne ..).symm.trans hg)

/-- After every run, the poller's bookkeeping and the kernel's set agree, and the kernel has refused
no call. -/
theorem bookkeeping (loop : LoopId) (is : List Input) (s : Poller)
    (h : Run.run step (new loop) is = some s) :
    (∀ fd l, s.live fd = some l →
      (l.channel.index = .kAdded ↔ (s.epoll fd).isSome) ∧
      (∀ m, s.epoll fd = some m → m = l.channel.events) ∧
      (l.channel.index ≠ .kNew ↔ s.channels fd = some l.ptr)) ∧
    ∀ c ∈ s.calls, c.Legal := by
  have hinv : Inv s := Run.run_invariant' (fun _ _ _ hinv hs => hinv.step hs) (inv_new loop) h
  refine ⟨fun fd l hlive => ?_, hinv.legal⟩
  obtain ⟨hepoll, hchannels⟩ := hinv.agrees hlive
  rw [hepoll, hchannels]
  refine ⟨?_, fun m hm => ?_, ?_⟩
  · by_cases hadded : l.channel.index = .kAdded <;> simp [hadded]
  · rw [Option.ite_none_right_eq_some] at hm
    exact (Option.some.inj hm.2).symm
  · by_cases hnew : l.channel.index = .kNew <;> simp [hnew]

/-- A channel that comes and goes, and another one on its descriptor. -/
theorem bookkeeping_reused : ∃ s, Run.run step (new baseLoop) [.create 5, .call 5 .setCallback,
      .call 5 .enableReading, .call 5 .disableAll, .call 5 .remove, .destroy 5, .create 5,
      .call 5 .enableWriting] = some s ∧
    (∀ fd l, s.live fd = some l →
      (l.channel.index = .kAdded ↔ (s.epoll fd).isSome) ∧
      (∀ m, s.epoll fd = some m → m = l.channel.events) ∧
      (l.channel.index ≠ .kNew ↔ s.channels fd = some l.ptr)) ∧
    ∀ c ∈ s.calls, c.Legal :=
  ⟨_, rfl, bookkeeping baseLoop [.create 5, .call 5 .setCallback, .call 5 .enableReading,
    .call 5 .disableAll, .call 5 .remove, .destroy 5, .create 5, .call 5 .enableWriting] _ rfl⟩

end Poller

end MuduoX
