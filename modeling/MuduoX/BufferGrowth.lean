import MuduoX.BufferMemory

/-! # How much memory a buffer takes

`makeSpace` resizes the vector only where the bytes in front of the readable range would not make
room enough, so the vector never becomes larger than twice what the buffer has ever had to hold, and
it never shrinks. -/

namespace MuduoX

namespace ByteQueue

/-- No call of the list asks for more than `M` bytes together with those that are queued. -/
def Within (M : Nat) (q : ByteQueue) : List BufferInput → Prop
  | [] => True
  | i :: is => q.content.length + i.length ≤ M ∧ (q.call i).1.Within M is

instance decidableWithin (M : Nat) : ∀ (q : ByteQueue) is, Decidable (q.Within M is)
  | _, [] => isTrue trivial
  | q, i :: is =>
    haveI := decidableWithin M (q.call i).1 is
    inferInstanceAs (Decidable (_ ∧ _))

theorem within_append {M : Nat} {q : ByteQueue} {is js : List BufferInput} :
    q.Within M (is ++ js) ↔ q.Within M is ∧ (q.calls is).1.Within M js := by
  induction is generalizing q with
  | nil => exact (iff_of_eq (true_and _)).symm
  | cons i is ih => rw [List.cons_append, Within, Within, ih, and_assoc, calls]

end ByteQueue

namespace Buffer

variable {b b' : Buffer} {len M : Nat} {data : Bytes}

/-- What a call may leave of a vector of `m` bytes when the queue has to hold `n`. -/
def Grown (m n m' : Nat) : Prop := m ≤ m' ∧ m' ≤ max m (2 * n + 7)

theorem Grown.refl (m n : Nat) : Grown m n m := ⟨Nat.le_refl m, Nat.le_max_left ..⟩

theorem Grown.mono {m n n' m' : Nat} (h : Grown m n m') (hn : n ≤ n') : Grown m n' m' := by
  obtain ⟨hle, hmax⟩ := h
  exact ⟨hle, hmax.trans (max_le_max_left m (by omega))⟩

theorem Grown.trans {m n m' m'' : Nat} (h : Grown m n m') (h' : Grown m' n m'') :
    Grown m n m'' := by
  obtain ⟨hle, hmax⟩ := h
  obtain ⟨hle', hmax'⟩ := h'
  refine ⟨hle.trans hle', hmax'.trans (max_le hmax (Nat.le_max_right ..))⟩

/-- The vector is resized when it is smaller than the readable bytes, `len` and the bytes to
prepend, and what lies in front of the readable bytes is less than `len` and these. -/
theorem grown_makeSpace (hlen : b.writableBytes < len) :
    Grown b.buffer.length (b.readableBytes + len) (b.makeSpace len).buffer.length := by
  have hreader := b.reader_le
  have hwriter := b.writer_le
  have hprepend := b.prepend_le
  rw [makeSpace]
  split
  · rename_i hsmall
    simp only [writableBytes, prependableBytes, kCheapPrepend] at hsmall hlen
    simp only [resize_length, readableBytes, Grown]
    omega
  · rw [overwrite_length (by rw [readable_length, readableBytes]; omega)]
    exact Grown.refl ..

theorem grown_ensureWritableBytes :
    Grown b.buffer.length (b.readableBytes + len) (b.ensureWritableBytes len).buffer.length := by
  rw [ensureWritableBytes]
  split
  · exact grown_makeSpace (by assumption)
  · exact Grown.refl ..

theorem grown_append (b : Buffer) (data : Bytes) :
    Grown b.buffer.length (b.readableBytes + data.length) (b.append data).buffer.length := by
  rw [append]
  simp only [overwrite_length (append_fits b data.length)]
  exact grown_ensureWritableBytes

theorem readableBytes_append : (b.append data).readableBytes = b.readableBytes + data.length := by
  rw [← readable_length, readable_append, List.length_append, readable_length]

/-- Appending in two pieces asks for no more than appending at once. -/
theorem grown_append_append {rest : Bytes} :
    Grown b.buffer.length (b.readableBytes + (data.length + rest.length))
      ((b.append data).append rest).buffer.length := by
  have hfirst := (grown_append b data).mono
    (show _ ≤ b.readableBytes + (data.length + rest.length) by omega)
  have hsecond := grown_append (b.append data) rest
  rw [readableBytes_append, Nat.add_assoc] at hsecond
  exact hfirst.trans hsecond

theorem append_nil : (b.append []).raw = b.raw := by
  rw [append_of_le (Nat.zero_le _), overwrite, List.append_nil, List.length_nil, Nat.add_zero,
    List.take_append_drop]
  rfl

/-- What `readFd` reads is appended at once, or in two pieces when the vector has been too small. -/
theorem raw_readFd_pieces (h : b.buffer.length + data.length ≤ maxSize) :
    ∃ first rest, data = first ++ rest ∧
      b.raw.readFd data = .ok ((b.append first).append rest).raw := by
  have hwriter := b.writer_le
  have hfits : b.writerIndex + (data.take b.writableBytes).length ≤ b.buffer.length := by
    rw [List.length_take, writableBytes]
    omega
  have hstore : RawBuffer.store b.raw.buffer b.raw.writerIndex (data.take b.writableBytes) =
      .ok (overwrite b.buffer b.writerIndex (data.take b.writableBytes)) := if_pos hfits
  rw [RawBuffer.readFd, raw_writableBytes (by omega)]
  simp only [hstore, Except.bind]
  split
  · rename_i hle
    refine ⟨data, [], (List.append_nil data).symm, ?_⟩
    rw [append_nil, append_of_le hle, List.take_of_length_le hle,
      sizeAdd_eq (by simp only [raw]; omega)]
    rfl
  · -- the rest is in `extrabuf`
    have htake : (data.take b.writableBytes).length = b.writableBytes := by
      rw [List.length_take]
      omega
    have hfirst := append_of_le (le_of_eq htake)
    have hlen : (b.append (data.take b.writableBytes)).buffer.length = b.buffer.length :=
      (congrArg (List.length ∘ RawBuffer.buffer) hfirst).trans (overwrite_length hfits)
    have hdrop := List.length_drop (l := data) (i := b.writableBytes)
    refine ⟨_, _, (List.take_append_drop b.writableBytes data).symm, ?_⟩
    rw [← raw_append (by omega), hfirst, htake,
      sizeAdd_eq (by simp only [raw, writableBytes]; omega)]
    rfl

/-! ### Runs -/

variable {q : ByteQueue} {i : BufferInput} {is : List BufferInput}
  {rs rs' : List BufferResult} {res : BufferResult}

theorem grown_call (hi : i.InRange b.raw) (hlen : b.buffer.length + i.length ≤ maxSize)
    (hb : b.raw.call i = .ok (b'.raw, res)) :
    Grown b.buffer.length (b.readableBytes + i.length) b'.buffer.length := by
  have hsize : b.buffer.length ≤ maxSize := by omega
  have hsame {c : Buffer} {res' : BufferResult} (hc : b.raw.call i = .ok (c.raw, res')) :
      c.buffer.length = b'.buffer.length :=
    congrArg (List.length ∘ RawBuffer.buffer ∘ Prod.fst) (Except.ok.inj (hc.symm.trans hb))
  -- the calls that only move the indices
  have hmoved {c : Buffer} {res' : BufferResult} (hlen : c.buffer.length = b.buffer.length)
      (hc : b.raw.call i = .ok (c.raw, res')) :
      Grown b.buffer.length (b.readableBytes + i.length) b'.buffer.length := by
    rw [← hsame hc, hlen]
    exact Grown.refl ..
  cases i with
  | append data =>
    rw [← hsame (by rw [RawBuffer.call, raw_append hlen]; rfl)]
    exact grown_append ..
  | ensureWritableBytes len =>
    change b.buffer.length + len ≤ maxSize at hlen
    rw [← hsame (by rw [RawBuffer.call, raw_ensureWritableBytes hlen]; rfl)]
    exact grown_ensureWritableBytes
  | readFd data =>
    obtain ⟨first, rest, rfl, hpieces⟩ := raw_readFd_pieces hlen
    rw [← hsame (by rw [RawBuffer.call, hpieces]; rfl), BufferInput.length, List.length_append]
    exact grown_append_append
  | retrieve len =>
    apply hmoved length_retrieve
    rw [RawBuffer.call, raw_retrieve hsize]
  | retrieveUntil len =>
    apply hmoved length_retrieve
    rw [RawBuffer.call, RawBuffer.retrieveUntil, raw_retrieve hsize]
  | retrieveAsString len =>
    apply hmoved length_retrieve
    rw [RawBuffer.call, raw_retrieveAsString hsize (raw_readableBytes hsize ▸ hi)]
    rfl
  | retrieveAll => exact hmoved (c := b.retrieveAll) rfl rfl
  | retrieveAllAsString =>
    apply hmoved length_retrieve
    rw [RawBuffer.call, RawBuffer.retrieveAllAsString,
      raw_retrieveAsString hsize (Nat.le_of_eq (raw_readableBytes hsize))]
    rfl
  | readFdError errno => exact hmoved rfl rfl

theorem run_grown (hq : b.readable = q.content) (hM : q.Within M is)
    (hr : Run.run RawBuffer.step (.ok (b.raw, rs)) is = some (.ok (b'.raw, rs'))) :
    Grown b.buffer.length M b'.buffer.length := by
  induction is generalizing b q rs with
  | nil =>
    have hlen : b.buffer.length = b'.buffer.length :=
      congrArg (List.length ∘ RawBuffer.buffer ∘ Prod.fst) (Except.ok.inj (Option.some.inj hr))
    rw [hlen]
    exact Grown.refl ..
  | cons i is ih =>
    obtain ⟨hi, hrest⟩ := hM
    obtain ⟨r₁, h₁, hr⟩ := Run.run_cons.mp hr
    obtain ⟨b₁, rfl, hcall, hq₁⟩ := step_sim hq h₁
    obtain ⟨⟨hin, hlen⟩, -⟩ := Option.ite_none_right_eq_some.mp h₁
    rw [← hq, readable_length] at hi
    exact ((grown_call hin hlen hcall).mono hi).trans (ih hq₁ hrest hr)

end Buffer

namespace RawBuffer

/-- **The vector stays in proportion.** In every run in which the buffer never has to hold more than
`M` bytes, the vector keeps the size it was made with or stays below `2 * M + 8` bytes, however many
bytes go through it; and whatever comes behind a part of the run, the vector does not shrink. -/
theorem length_le_twice (initSize M : Nat) (hsize : kCheapPrepend + initSize ≤ maxSize)
    (is js : List BufferInput) (hM : ByteQueue.empty.Within M (is ++ js))
    (r r' : Except Fault (RawBuffer × List BufferResult))
    (hr : Run.run step (.ok (new initSize, [])) is = some r) (hr' : Run.run step r js = some r') :
    ∃ b b', r = .ok b ∧ r' = .ok b' ∧ kCheapPrepend + initSize ≤ b.1.buffer.length ∧
      b.1.buffer.length ≤ b'.1.buffer.length ∧
      b'.1.buffer.length ≤ max (kCheapPrepend + initSize) (2 * M + 7) := by
  obtain ⟨hM, hM'⟩ := ByteQueue.within_append.mp hM
  rw [Buffer.raw_new hsize] at hr
  obtain ⟨b, rfl, hq⟩ := Buffer.run_sim (q := .empty) (Buffer.readable_new _) hr
  obtain ⟨b', rfl, -⟩ := Buffer.run_sim hq hr'
  have hgrown := Buffer.run_grown (Buffer.readable_new _) hM hr
  have hgrown' := Buffer.run_grown hq hM' hr'
  rw [show (Buffer.new initSize).buffer.length = _ from List.length_replicate ..] at hgrown
  exact ⟨_, _, rfl, rfl, hgrown.1, hgrown'.1, (hgrown.trans hgrown').2⟩

/-- Two bytes come twice, and one is read in between. -/
theorem length_le_twice_three : ∃ b b', Run.run step (.ok (new 0, []))
      [.append [1, 2], .retrieve 1] = some (.ok b) ∧
    Run.run step (.ok b) [.append [3, 4]] = some (.ok b') ∧ 8 ≤ b.1.buffer.length ∧
    b.1.buffer.length ≤ b'.1.buffer.length ∧ b'.1.buffer.length ≤ 13 := by
  have hM : ByteQueue.empty.Within 3 ([.append [1, 2], .retrieve 1] ++ [.append [3, 4]]) := by
    decide
  obtain ⟨r', hrun⟩ := Option.isSome_iff_exists.mp (show (Run.run step (.ok (new 0, []))
    ([.append [1, 2], .retrieve 1] ++ [.append [3, 4]])).isSome by decide)
  obtain ⟨r, hr, hr'⟩ := Run.run_append.mp hrun
  obtain ⟨b, b', rfl, rfl, hle⟩ := length_le_twice 0 3 (by decide) _ _ hM r r' hr hr'
  exact ⟨b, b', hr, hr', hle⟩

end RawBuffer

end MuduoX
