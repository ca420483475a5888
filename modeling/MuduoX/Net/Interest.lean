import MuduoX.Net.Poller

/-! # Who is watched

The poller adds every channel that is not in the kernel's set, whatever its interest is, and takes
out a channel without interest only when that channel is in the set. So a call that leaves a channel
without interest takes it out of the set if it was there, and puts it in if it was not. -/

namespace MuduoX.Poller

variable {s s' : Poller} {fd : Fd} {l : LiveChannel}

/-- The kernel watches the channels that have an interest, and have not been removed since it was
set. -/
def Watched (s : Poller) : Prop :=
  ∀ fd l, s.live fd = some l →
    ((s.epoll fd).isSome ↔ l.removed = false ∧ l.channel.isNoneEvent = false)

/-- A call leaves a channel without interest only if the channel is in the set, and no callback is
set on a channel that has been removed with an interest. -/
def KeepsInterest (s : Poller) : Input → Prop
  | .call fd c => ∀ l, s.live fd = some l → c ≠ .remove →
      ((l.channel.interest c).isNoneEvent = true → l.channel.index = .kAdded) ∧
      (c = .setCallback → l.channel.isNoneEvent = false → l.removed = false)
  | _ => True

theorem Inv.isSome_epoll (h : Inv s) (hlive : s.live fd = some l) :
    (s.epoll fd).isSome ↔ l.channel.index = .kAdded := by
  rw [(h.agrees hlive).epoll]
  by_cases hadded : l.channel.index = .kAdded <;> simp [hadded]

theorem updateChannel_added (ch : Channel) : (EPollPoller.updateChannel ch).1.index = .kAdded ↔
    ¬(ch.index = .kAdded ∧ ch.isNoneEvent = true) := by
  obtain ⟨loop, reading, writing, index⟩ := ch
  cases index with
  | kNew | kDeleted => simp [EPollPoller.updateChannel]
  | kAdded =>
    cases hnone : Channel.isNoneEvent ⟨loop, reading, writing, .kAdded⟩ <;>
      simp [EPollPoller.updateChannel, hnone]

theorem updateChannel_isNoneEvent (ch : Channel) :
    (EPollPoller.updateChannel ch).1.isNoneEvent = ch.isNoneEvent := by
  rw [Channel.isNoneEvent, EPollPoller.updateChannel_reading, EPollPoller.updateChannel_writing]
  rfl

/-- What a call says about its own channel says everything. -/
theorem watched_of_live (hinv' : Inv s') (hw : s.Watched)
    (hlive : s'.live fd = some l) (hinv : Inv s) (hother : ∀ g ≠ fd, s'.live g = s.live g) :
    s'.Watched ↔
      (l.channel.index = .kAdded ↔ l.removed = false ∧ l.channel.isNoneEvent = false) := by
  constructor
  · intro h
    rw [← hinv'.isSome_epoll hlive]
    exact h fd l hlive
  · intro h g m hm
    rw [hinv'.isSome_epoll hm]
    obtain rfl | hne := eq_or_ne g fd
    · cases hlive.symm.trans hm
      exact h
    · have hm := (hother g hne).symm.trans hm
      rw [← hinv.isSome_epoll hm]
      exact hw g m hm

theorem updateChannel_watched (hinv : Inv s) (hinv' : Inv (s.updateChannel fd l))
    (hw : s.Watched) : (s.updateChannel fd l).Watched ↔
      (l.channel.isNoneEvent = true → l.channel.index = .kAdded) ∧
      (l.channel.isNoneEvent = false → l.removed = false) := by
  rw [watched_of_live hinv' hw (Function.update_self ..) hinv
    fun g hg => Function.update_of_ne hg .., updateChannel_added, updateChannel_isNoneEvent]
  cases l.channel.isNoneEvent <;> simp

theorem interest_index (ch : Channel) (c : ChannelCall) : (ch.interest c).index = ch.index := by
  cases c <;> rfl

/-- The interest is set anew. -/
theorem Inv.watched_interest (h : Inv s) (hw : s.Watched) (hlive : s.live fd = some l)
    (c : ChannelCall) :
    (s.updateChannel fd { l with channel := l.channel.interest c, removed := false }).Watched ↔
      ((l.channel.interest c).isNoneEvent = true → l.channel.index = .kAdded) := by
  have hindex := interest_index l.channel c
  have hinv : Inv (s.updateChannel fd
      { l with channel := l.channel.interest c, removed := false }) :=
    h.updateChannel hlive rfl hindex
  rw [updateChannel_watched h hinv hw, hindex]
  exact and_iff_left fun _ => rfl

/-- A call keeps everything watched as it should be exactly if it meets the condition. -/
theorem Inv.watched_call (h : Inv s) (hw : s.Watched) (hlive : s.live fd = some l)
    (c : ChannelCall) : (s.call fd l c).Watched ↔ s.KeepsInterest (.call fd c) := by
  have hkeeps : s.KeepsInterest (.call fd c) ↔ (c ≠ .remove →
      ((l.channel.interest c).isNoneEvent = true → l.channel.index = .kAdded) ∧
      (c = .setCallback → l.channel.isNoneEvent = false → l.removed = false)) := by
    refine ⟨fun h => h l hlive, fun h l' hl' => ?_⟩
    cases hlive.symm.trans hl'
    exact h
  rw [hkeeps]
  cases c with
  | remove =>
    have hrest : ∀ g ≠ fd, (s.removeChannel fd l).live g = s.live g := fun g hg => by
      rw [Poller.removeChannel]
      split <;> exact Function.update_of_ne hg ..
    have hself : (s.removeChannel fd l).live fd =
        some { l with channel := (EPollPoller.removeChannel l.channel).1, removed := true } := by
      rw [Poller.removeChannel]
      split <;> exact Function.update_self ..
    have hwatched := watched_of_live (h.removeChannel hlive) hw hself h hrest
    refine iff_of_true (hwatched.mpr (iff_of_false ?_ ?_)) fun hne => absurd rfl hne
    · intro hl
      cases hl
    · exact fun hl => Bool.noConfusion hl.1
  | setCallback =>
    have hwatched := updateChannel_watched h (h.updateChannel hlive rfl rfl) hw
    refine hwatched.trans ⟨fun hl _ => ⟨hl.1, fun _ => hl.2⟩, fun hl => ?_⟩
    obtain ⟨hnone, hremoved⟩ := hl fun hc => ChannelCall.noConfusion hc
    exact ⟨hnone, hremoved rfl⟩
  | enableReading | diableReading | enableWriting | disableWriting | disableAll =>
    refine (h.watched_interest hw hlive _).trans ⟨fun hl _ => ⟨hl, fun hc => ?_⟩, fun hl => ?_⟩
    · cases hc
    · exact (hl fun hc => ChannelCall.noConfusion hc).1

theorem Inv.watched_step {i : Input} (h : Inv s) (hw : s.Watched) (hs : s.step i = some s') :
    s'.Watched ↔ s.KeepsInterest i := by
  cases i with
  | call fd c =>
    rw [Poller.step] at hs
    obtain hlive | ⟨l, hlive⟩ := Option.eq_none_or_eq_some (s.live fd) <;> rw [hlive] at hs <;>
      cases hs
    exact h.watched_call hw hlive c
  | create fd =>
    have hinv' := h.step hs
    rw [Poller.step] at hs
    obtain hlive | ⟨l, hlive⟩ := Option.eq_none_or_eq_some (s.live fd) <;> rw [hlive] at hs <;>
      cases hs
    have hwatched := watched_of_live hinv' hw (Function.update_self ..) h
      fun g hg => Function.update_of_ne hg ..
    refine iff_of_true (hwatched.mpr (iff_of_false ?_ fun hl => Bool.noConfusion hl.2)) trivial
    intro hl
    cases hl
  | destroy fd =>
    rw [Poller.step] at hs
    obtain hlive | ⟨l, hlive⟩ := Option.eq_none_or_eq_some (s.live fd) <;> rw [hlive] at hs
    · cases hs
    · simp only [Option.ite_none_right_eq_some] at hs
      obtain ⟨-, hs⟩ := hs
      cases hs
      refine iff_of_true (fun g m hm => ?_) trivial
      obtain rfl | hne := eq_or_ne g fd
      · cases (Function.update_self ..).symm.trans hm
      · exact hw g m ((Function.update_of_ne hne ..).symm.trans hm)

/-- In every run whose calls keep the interest, the kernel watches what it should. -/
theorem watched_of_run (loop : LoopId) (is : List Input) (s : Poller)
    (h : Run.run step (new loop) is = some s)
    (hkeeps : Run.Along step KeepsInterest (new loop) is) : s.Watched := by
  have hnew : Inv (new loop) ∧ (new loop).Watched := ⟨inv_new loop, nofun⟩
  exact (Run.run_invariant (I := fun s => Inv s ∧ s.Watched) (fun s i s' hinv hi hs =>
    ⟨hinv.1.step hs, (hinv.1.watched_step hinv.2 hs).mpr hi⟩) hnew hkeeps h).2

/-- A channel that goes through its interests. -/
theorem watched_of_run_disabled : ∃ s, Run.run step (new baseLoop) [.create 5,
    .call 5 .enableReading, .call 5 .setCallback, .call 5 .disableAll] = some s ∧ s.Watched := by
  refine ⟨_, rfl, watched_of_run baseLoop [.create 5, .call 5 .enableReading,
    .call 5 .setCallback, .call 5 .disableAll] _ rfl ?_⟩
  refine ⟨trivial, fun s₁ h₁ => ⟨?_, fun s₂ h₂ => ⟨?_, fun s₃ h₃ => ⟨?_, fun _ _ => trivial⟩⟩⟩⟩
  · cases h₁
    rintro l hl -
    cases hl
    exact ⟨nofun, nofun⟩
  · cases h₁
    cases h₂
    rintro l hl -
    cases hl
    exact ⟨nofun, fun _ _ => rfl⟩
  · cases h₁
    cases h₂
    cases h₃
    rintro l hl -
    cases hl
    exact ⟨fun _ => rfl, nofun⟩

/-- A callback that is set on a new channel, and a second `disableAll()`: the channel is watched, and
has no interest. -/
theorem not_watched :
    (∃ s, Run.run step (new baseLoop) [.create 5, .call 5 .setCallback] = some s ∧ ¬s.Watched) ∧
    ∃ s, Run.run step (new baseLoop) [.create 5, .call 5 .enableReading, .call 5 .disableAll,
      .call 5 .disableAll] = some s ∧ ¬s.Watched := by
  refine ⟨⟨_, rfl, fun h => ?_⟩, ⟨_, rfl, fun h => ?_⟩⟩ <;>
    exact Bool.noConfusion ((h 5 _ rfl).mp rfl).2

end MuduoX.Poller
