import MuduoX.Log.AsyncLogging

/-! # What `stop` leaves behind

`threadFunc` reads `running_` at the top of its loop only. Between that test and the swap (`InRound`)
everything that the front end holds is still going to be written; anywhere else a `stop` lets the
thread finish the buffers it has, and return. A line that is too long for a buffer is not held at all. -/

namespace MuduoX.AsyncLogging

variable {s s' : AsyncLogging} {l : Bytes}

/-- `threadFunc` has found `running_` true and has not swapped the buffers yet. -/
def InRound (s : AsyncLogging) : Prop := s.thread = .lock ∨ s.thread = .wait

/-- What is in the file once `threadFunc` is through with its buffers. -/
def drained (s : AsyncLogging) : Bytes := s.output ++ s.toWrite

theorem content_eq (s : AsyncLogging) : s.content = s.drained ++ s.buffered := rfl

theorem drained_of_returned (h : Inv s) (hthread : s.thread = .returned) :
    s.drained = s.output := by
  have hnil := h.idle (by rw [hthread]; nofun) (by rw [hthread]; nofun)
  rw [drained, toWrite, hnil, List.drop_nil]
  exact List.append_nil _

theorem append_thread {logline : Bytes} (h : s.append logline = .ok s') :
    s'.thread = s.thread ∧ s'.running = s.running ∧ s'.drained = s.drained := by
  rw [append] at h
  split at h
  · cases h
  split at h
  · cases h
    exact ⟨rfl, rfl, rfl⟩
  · simp only at h
    cases hp : appendTo (if s.nextBuffer.isSome then s.nextBuffer else newBuffer) logline with
    | error f =>
      rw [hp] at h
      cases h
    | ok p =>
      rw [hp] at h
      cases h
      exact ⟨rfl, rfl, rfl⟩

/-- What a step of `threadFunc` does outside the swap. -/
theorem threadFunc_cases (h : Inv s) (hs : s.threadFunc = some (.ok s')) :
    (s.InRound ∧ (s'.InRound ∨ s'.drained = s.content)) ∨
    (¬s.InRound ∧ s'.drained = s.drained ∧ s'.running = s.running ∧ s'.thread ≠ .notStarted ∧
      (s'.InRound → s.running)) := by
  rw [threadFunc] at hs
  split at hs
  · cases hs
  · cases hs
  · rename_i hthread
    cases hs
    refine .inr ⟨by rw [InRound, hthread]; simp, rfl, rfl, ?_, ?_⟩
    · simp only
      split <;> simp
    · simp only [InRound]
      split
      · exact fun _ => by assumption
      · rintro (h | h) <;> cases h
  · rename_i hthread
    cases hs
    refine .inl ⟨.inl hthread, ?_⟩
    split
    · exact .inl (.inr rfl)
    · exact .inr (h.swap (.inl hthread)).2.2
  · rename_i hthread
    cases hs
    exact .inl ⟨.inr hthread, .inr (h.swap (.inr hthread)).2.2⟩
  · rename_i hthread
    have hround : ¬s.InRound := by rw [InRound, hthread]; simp
    split at hs
    · cases hs
      exact .inr ⟨hround, rfl, rfl, by simp, by rintro (h | h) <;> cases h⟩
    · cases hs
    · rename_i b hb
      cases hs
      refine .inr ⟨hround, ?_, rfl, by simp [hthread], fun h => absurd h hround⟩
      obtain ⟨hlt, hb⟩ := List.getElem?_eq_some_iff.mp hb
      simp only [drained, toWrite, List.drop_eq_getElem_cons hlt, hb, contents_cons,
        BufferPtr.content, Option.map_some, Option.getD_some, List.append_assoc]
  · rename_i hthread
    obtain ⟨s₁, hs₁, -, htest, houtput, hto, -, hrunning⟩ := h.recycle hthread
    cases (Option.some.inj hs).symm.trans hs₁
    refine .inr ⟨by rw [InRound, hthread]; simp, by rw [drained, houtput, hto, drained], hrunning,
      by simp [htest], ?_⟩
    rw [InRound, htest]
    rintro (h | h) <;> cases h

/-! ### What a run keeps -/

/-- The bytes of `l` are in the file or on their way to it, or will be with the next swap. -/
def Saved (l : Bytes) (s : AsyncLogging) : Prop :=
  s.InRound ∧ l <+: s.content ∨ l <+: s.drained

theorem Saved.step {i : LogInput} (h : Saved l s) (hinv : Inv s)
    (hs : AsyncLogging.step (.ok s) i = some (.ok s')) : Saved l s' := by
  obtain ⟨s₁, heq, -, hcontent⟩ := hinv.step hs
  cases heq
  have hgrows : s.content <+: s'.content := hcontent ▸ List.prefix_append ..
  cases i with
  | start =>
    obtain ⟨hthread, hs⟩ := Option.ite_none_right_eq_some.mp hs
    cases hs
    obtain ⟨hround, -⟩ | h := h
    · rw [InRound, hthread] at hround
      rcases hround with h | h <;> cases h
    · exact .inr h
  | append logline =>
    obtain ⟨hthread, -, hdrained⟩ := append_thread (Option.some.inj hs)
    obtain ⟨hround, h⟩ | h := h
    · exact .inl ⟨by rwa [InRound, hthread], h.trans hgrows⟩
    · exact .inr (hdrained ▸ h)
  | stop =>
    cases hs
    exact h
  | threadFunc =>
    obtain ⟨hround, hround' | hdrained⟩ | ⟨hround, hdrained, -⟩ := threadFunc_cases hinv hs
    · have hl : l <+: s.content := by
        obtain ⟨-, h⟩ | h := h
        · exact h
        · exact h.trans (List.prefix_append ..)
      exact .inl ⟨hround', hl.trans hgrows⟩
    · obtain ⟨-, h⟩ | h := h
      · exact .inr (hdrained ▸ h)
      · exact .inr (hdrained ▸ h.trans (List.prefix_append ..))
    · obtain ⟨hround', -⟩ | h := h
      · exact absurd hround' hround
      · exact .inr (hdrained ▸ h)

/-- No swap will come any more, and this is what the file will hold. -/
structure Stopping (l : Bytes) (s : AsyncLogging) : Prop where
  started : s.thread ≠ .notStarted
  stopped : s.running = false
  round : ¬s.InRound
  drained : s.drained = l

theorem Stopping.step {i : LogInput} (h : Stopping l s) (hinv : Inv s)
    (hs : AsyncLogging.step (.ok s) i = some (.ok s')) : Stopping l s' := by
  cases i with
  | start =>
    obtain ⟨hthread, -⟩ := Option.ite_none_right_eq_some.mp hs
    exact absurd hthread h.started
  | append logline =>
    obtain ⟨hthread, hrunning, hdrained⟩ := append_thread (Option.some.inj hs)
    exact ⟨hthread ▸ h.started, hrunning.trans h.stopped, by rw [InRound, hthread]; exact h.round,
      hdrained.trans h.drained⟩
  | stop =>
    cases hs
    exact ⟨h.started, rfl, h.round, h.drained⟩
  | threadFunc =>
    obtain ⟨hround, -⟩ | ⟨-, hdrained, hrunning, hthread, hround⟩ := threadFunc_cases hinv hs
    · exact absurd hround h.round
    · refine ⟨hthread, hrunning.trans h.stopped, fun hround' => ?_, hdrained.trans h.drained⟩
      rw [h.stopped] at hround
      cases hround hround'

/-- A property that every step keeps is kept by every run. -/
theorem Inv.run_of_step {P : AsyncLogging → Prop} {is : List LogInput} (hinv : Inv s)
    (hstep : ∀ s s' i, Inv s → P s → AsyncLogging.step (.ok s) i = some (.ok s') → P s')
    (h : P s)
    (hr : Run.run AsyncLogging.step (.ok s) is = some (.ok s')) : P s' := by
  induction is generalizing s with
  | nil =>
    cases hr
    exact h
  | cons i is ih =>
    obtain ⟨r₁, h₁, hr⟩ := Run.run_cons.mp hr
    obtain ⟨s₁, rfl, hinv₁, -⟩ := hinv.step h₁
    exact ih hinv₁ (hstep s s₁ i hinv h h₁) hr

/-- A line is only taken as it is when it fits into a buffer. -/
theorem flatMap_kept_iff {is : List LogInput} :
    is.flatMap LogInput.kept = appended is ↔ ∀ i ∈ is, i.Short := by
  refine ⟨fun h => ?_, appended_eq⟩
  have hle (js : List LogInput) : (js.flatMap LogInput.kept).length ≤ (appended js).length := by
    induction js with
    | nil => exact le_refl _
    | cons j js ih =>
      rw [appended, List.flatMap_cons, List.flatMap_cons, List.length_append, List.length_append]
      exact Nat.add_le_add j.length_kept_le ih
  induction is with
  | nil => exact List.forall_mem_nil _
  | cons i is ih =>
    have hlen := congrArg List.length h
    rw [appended, List.flatMap_cons, List.flatMap_cons] at h hlen
    have hhead : i.kept.length = i.bytes.length := by
      have hi := i.length_kept_le
      have his := hle is
      rw [List.length_append, List.length_append] at hlen
      rw [appended] at his
      omega
    obtain ⟨hkept, his⟩ := List.append_inj h hhead
    refine List.forall_mem_cons.mpr ⟨?_, ih his⟩
    by_contra hlong
    rw [LogInput.kept, if_neg hlong, List.length_nil] at hhead
    exact hlong (by rw [LogInput.Short, ← hhead]; decide)

/-- Every line of `pre` has been taken as it is, and is in the file. Its bytes being there would not
be enough: they might be those of a later line. -/
def Passed (pre : List LogInput) (s₁ s : AsyncLogging) : Prop :=
  s₁.content = appended pre ∧ appended pre <+: s.output

/-- **Draining.** `stop` is called on a logger that has been started; when `threadFunc` has
returned, the lines appended before that call are in the file if and only if each of them fits into
a buffer, and the thread was between its test of `running_` and its swap, or the front end held
nothing. -/
theorem drained_iff (pre post : List LogInput) (s₁ s : AsyncLogging)
    (hpre : Run.run step (.ok new) pre = some (.ok s₁)) (hstarted : s₁.thread ≠ .notStarted)
    (h : Run.run step (.ok s₁) (.stop :: post) = some (.ok s)) (hreturned : s.thread = .returned) :
    Passed pre s₁ s ↔ (∀ i ∈ pre, i.Short) ∧
      ((s₁.thread = .lock ∨ s₁.thread = .wait) ∨
        contents s₁.buffers = [] ∧ s₁.currentBuffer.content = []) := by
  obtain ⟨_, heq, hinv, hcontent⟩ := inv_new.run hpre
  cases heq
  have hcontent : s₁.content = pre.flatMap LogInput.kept := hcontent
  rw [Passed, ← flatMap_kept_iff, hcontent]
  refine and_congr_right fun hkept => ?_
  rw [hkept] at hcontent
  obtain ⟨_, hstop, hrun⟩ := Run.run_cons.mp h
  cases hstop
  have hinv' : Inv s₁.stop := ⟨hinv.current, hinv.next, hinv.next_none, hinv.buffers_some,
    hinv.toWrite_some, hinv.looping, hinv.writing, hinv.idle, hinv.written⟩
  obtain ⟨_, heq, hinvs, -⟩ := hinv'.run hrun
  cases heq
  rw [← drained_of_returned hinvs hreturned, ← hcontent, ← List.append_eq_nil_iff]
  constructor
  · intro hprefix
    by_contra hnot
    obtain ⟨hround, hne⟩ := not_or.mp hnot
    have hstopping : Stopping s₁.drained s := hinv'.run_of_step (P := Stopping s₁.drained)
      (fun _ _ _ hinv h hs => h.step hinv hs) ⟨hstarted, rfl, hround, rfl⟩ hrun
    rw [hstopping.drained, content_eq] at hprefix
    have hlen := hprefix.length_le
    rw [List.length_append] at hlen
    exact hne (List.length_eq_zero_iff.mp (by rw [buffered] at hlen; omega))
  · intro hcond
    have hsaved : Saved s₁.content s₁.stop := by
      obtain hround | hnil := hcond
      · exact .inl ⟨hround, List.prefix_refl _⟩
      · refine .inr ?_
        rw [content_eq, buffered, hnil, List.append_nil]
        exact List.prefix_refl _
    have hsaved : Saved s₁.content s := hinv'.run_of_step (P := Saved s₁.content)
      (fun _ _ _ hinv h hs => h.step hinv hs) hsaved hrun
    obtain ⟨hround, -⟩ | h := hsaved
    · rw [InRound, hreturned] at hround
      rcases hround with h | h <;> cases h
    · exact h

/-- The thread waits for lines when the logger is stopped. -/
theorem drained_iff_waiting : ∃ s₁ s, Run.run step (.ok new) [.start, .threadFunc, .threadFunc,
      .append (ascii "a")] = some (.ok s₁) ∧ Run.run step (.ok s₁) (.stop :: [.threadFunc,
      .threadFunc, .threadFunc, .threadFunc, .threadFunc]) = some (.ok s) ∧
    Passed [.start, .threadFunc, .threadFunc, .append (ascii "a")] s₁ s := by
  refine ⟨_, _, rfl, rfl, ?_⟩
  exact (drained_iff [.start, .threadFunc, .threadFunc, .append (ascii "a")] [.threadFunc,
    .threadFunc, .threadFunc, .threadFunc, .threadFunc] _ _ rfl (by nofun) rfl rfl).mpr
      ⟨by decide, .inl (.inr rfl)⟩

/-- A line that is appended while the thread writes is lost when `stop` comes before the next
round. -/
theorem not_drained :
    (Run.run step (.ok new) [.start, .threadFunc, .threadFunc, .threadFunc, .append (ascii "a"),
      .stop, .threadFunc, .threadFunc, .threadFunc, .threadFunc]).map
        (·.toOption.map fun s => (s.thread, s.output)) = some (some (.returned, [])) := by
  decide +kernel

end MuduoX.AsyncLogging
