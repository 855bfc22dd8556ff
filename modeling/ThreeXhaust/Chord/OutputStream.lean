import ThreeXhaust.Chord.OutputBounds

/-!
# A stream and its snapshots

Chunks of text and of bytes are pushed into a buffer and snapshots are taken. The decoder of byte
chunks is a parameter; what it and the strings make of the chunks is the stream.
-/

namespace ThreeXhaust.Chord.Output

/-! ## The head of a text -/

def Fills (limits : OutputLimits) (text : List Char) : Prop :=
  limits.maxBytes < (utf8Chars text).length ∨ limits.maxLines ≤ text.count '\n'

theorem headRange_append {limits : OutputLimits} {text : List Char} (h : Fills limits text)
    (rest : Bytes) :
    headRange (utf8Chars text ++ rest) limits = headRange (utf8Chars text) limits := by
  rw [headRange, headRange]
  by_cases hzero : limits.maxLines = 0 ∨ limits.maxBytes = 0
  · rw [if_pos hzero, if_pos hzero]
  · rw [if_neg hzero, if_neg hzero]
    have hcharacter (hlt : limits.maxBytes < (utf8Chars text).length) (n : Nat)
        (hn : n ≤ limits.maxBytes) :
        characterEnd (utf8Chars text ++ rest) n = characterEnd (utf8Chars text) n := by
      induction n with
      | zero => rfl
      | succ n ih =>
        rw [characterEnd, characterEnd, List.getD_eq_getElem?_getD, List.getD_eq_getElem?_getD,
          List.getElem?_append_left (by omega), ih (by omega)]
    have hlast (hlt : limits.maxBytes < (utf8Chars text).length) :
        lastIndexOf (utf8Chars text ++ rest) (limits.maxBytes - 1)
          = lastIndexOf (utf8Chars text) (limits.maxBytes - 1) := by
      rw [lastIndexOf, lastIndexOf, below, below, newlines_append, List.filter_append,
        (List.filter_eq_nil_iff (l := (newlines rest).map _)).mpr, List.append_nil]
      intro i hi
      obtain ⟨j, -, rfl⟩ := List.mem_map.mp hi
      rw [decide_eq_true_iff]
      omega
    -- where the lines end is the same, or behind more bytes than are allowed
    have hend : headEnd (utf8Chars text ++ rest) limits.maxLines
          = headEnd (utf8Chars text) limits.maxLines
        ∨ limits.maxBytes < (utf8Chars text).length
          ∧ limits.maxBytes < headEnd (utf8Chars text ++ rest) limits.maxLines
          ∧ limits.maxBytes < headEnd (utf8Chars text) limits.maxLines := by
      rw [headEnd, headEnd, newlines_append]
      rcases Nat.lt_or_ge (limits.maxLines - 1) (newlines (utf8Chars text)).length with hin | hout
      · left
        rw [List.getElem?_append_left hin, List.getElem?_eq_getElem hin]
      · right
        have hbytes : limits.maxBytes < (utf8Chars text).length := by
          rw [newlines_length, count_newline] at hout
          rcases h with h | h
          · exact h
          · omega
        rw [List.getElem?_append_right hout, List.getElem?_eq_none hout, List.getElem?_map]
        refine ⟨hbytes, ?_, hbytes⟩
        cases (newlines rest)[limits.maxLines - 1 - (newlines (utf8Chars text)).length]? with
        | none =>
          show limits.maxBytes < (utf8Chars text ++ rest).length
          rw [List.length_append]
          omega
        | some i =>
          show limits.maxBytes < (utf8Chars text).length + i + 1
          omega
    simp only
    rcases hend with hend | ⟨hbytes, hlong, hlong'⟩
    · rw [hend]
      by_cases hlong : headEnd (utf8Chars text) limits.maxLines > limits.maxBytes
      · have hbytes : limits.maxBytes < (utf8Chars text).length := by
          refine Nat.lt_of_lt_of_le hlong ?_
          obtain ⟨front, back, hsplit, hfront, -⟩ :=
            headEnd_spec (utf8Chars text) (by omega : 0 < limits.maxLines)
          rw [← hfront, hsplit, List.length_append]
          exact Nat.le_add_right _ _
        rw [if_pos hlong, if_pos hlong, hlast hbytes, hcharacter hbytes _ (Nat.le_refl _)]
      · rw [if_neg hlong, if_neg hlong]
    · rw [if_pos hlong, if_pos hlong', hlast hbytes, hcharacter hbytes _ (Nat.le_refl _)]

theorem boundary_headRange (text : List Char) (limits : OutputLimits) :
    Boundary text (headRange (utf8Chars text) limits).2 := by
  rw [headRange]
  split
  · exact boundary_zero text
  · next hzero =>
    obtain ⟨front, back, hsplit, hfront, -⟩ :=
      headEnd_spec (utf8Chars text) (by omega : 0 < limits.maxLines)
    have hlength := congrArg List.length hsplit
    rw [List.length_append, hfront] at hlength
    simp only
    split
    · next hlong =>
      split
      · next newline hlast =>
        rw [lastIndexOf] at hlast
        exact (boundary_newline (mem_below.mp (List.mem_of_mem_head? hlast)).1).2
      · exact boundary_characterEnd text (by omega)
    · rw [headEnd]
      split
      · next i hat => exact (boundary_newline (mem_newlines.mp (List.mem_of_getElem? hat))).2
      · exact boundary_end text

/-- What `boundOutput` answers where it keeps `kept`. -/
def outputSlice (text kept : List Char) : OutputSlice where
  text := kept
  bytes := (utf8Chars kept).length
  droppedBytes := (utf8Chars text).length - (utf8Chars kept).length
  droppedLines := lineCount (utf8Chars text) - lineCount (utf8Chars kept)

theorem boundOutput_head {limits : OutputLimits} (hhead : limits.retain = .head)
    {kept back : List Char}
    (hkept : (utf8Chars kept).length = (headRange (utf8Chars (kept ++ back)) limits).2) :
    boundOutput (kept ++ back) limits = some (outputSlice (kept ++ back) kept) := by
  have hstart : (headRange (utf8Chars (kept ++ back)) limits).1 = 0 := by
    rw [headRange]
    split
    · rfl
    · simp only
      split
      · split <;> rfl
      · rfl
  have hbytes : ((utf8Chars (kept ++ back)).take
      (headRange (utf8Chars (kept ++ back)) limits).2).drop 0 = utf8Chars kept := by
    rw [← hkept, utf8Chars_append, List.take_left, List.drop_zero]
  have hslice : slice (kept ++ back) 0 (headRange (utf8Chars (kept ++ back)) limits).2
      = some kept := by
    rw [slice, ← hkept, splitAtByte_append, Option.bind_some]
    exact congrArg (Option.map Prod.snd) (splitAtByte_append [] kept)
  have hshown : (if (utf8Chars kept).length = (utf8Chars (kept ++ back)).length
      then some (kept ++ back) else some kept) = some kept := by
    split
    · next hall =>
      rw [utf8Chars_append, List.length_append] at hall
      rw [eq_nil_of_utf8Chars (by omega : (utf8Chars back).length = 0), List.append_nil]
    · rfl
  simp only [boundOutput, hhead, hstart]
  rw [hbytes, hslice, hshown]
  rfl

/-- **What `boundOutput` keeps** is the largest window of whole lines that fits, or a part of one
line that does not fit. -/
theorem boundOutput_best (text : List Char) (limits : OutputLimits) :
    ∃ front kept back, text = front ++ kept ++ back
      ∧ boundOutput text limits = some (outputSlice text kept)
      ∧ match limits.retain with
        | .head => front = [] ∧ HeadBest limits (utf8Chars kept) (utf8Chars back)
        | .tail => back = [] ∧ TailBest limits (utf8Chars front) (utf8Chars kept) := by
  cases hretain : limits.retain with
  | head =>
    obtain ⟨kept, back, rfl, hkept⟩ := boundary_headRange text limits
    refine ⟨[], kept, back, rfl, boundOutput_head hretain hkept, rfl, headRange_best ?_⟩
    rwa [← utf8Chars_append]
  | tail =>
    obtain ⟨front, kept, hwindow⟩ := exists_window limits text
    refine ⟨front, kept, [], ?_, boundOutput_tail hretain hwindow, rfl, tailRange_best ?_⟩
    · rw [List.append_nil]
      exact hwindow.1
    · rw [← utf8Chars_append, ← hwindow.1]
      exact hwindow.2

/-! ## A buffer with head limits -/

/-- A buffer with head limits stands for `total`: what it does not store stands behind a full
window. -/
structure HoldsHead (limits : OutputLimits) (total : List Char) (b : OutputBuffer) : Prop where
  limits_eq : b.limits = limits
  stored : ∃ rest, total = texts b.chunks ++ rest ∧ (b.full = false → rest = [])
  full : b.full = true → Fills limits (texts b.chunks)
  storedBytes : b.storedBytes = (utf8Chars (texts b.chunks)).length
  storedNewlines : b.storedNewlines = (texts b.chunks).count '\n'
  totalBytes : b.totalBytes = (utf8Chars total).length
  totalNewlines : b.totalNewlines = total.count '\n'
  endsWithNewline : b.endsWithNewline = (total = [] || endsWithNewline total)

variable {limits : OutputLimits} {total : List Char} {b : OutputBuffer}

theorem HoldsHead.accept (hhead : limits.retain = .head) (h : HoldsHead limits total b)
    (text : List Char) : HoldsHead limits (total ++ text) (b.accept text) := by
  rw [OutputBuffer.accept]
  by_cases htext : text = []
  · rw [if_pos htext, htext, List.append_nil]
    exact h
  · obtain ⟨rest, htotal, hrest⟩ := h.stored
    have hbytes : b.totalBytes + (Chunk.of text).bytes = (utf8Chars (total ++ text)).length := by
      rw [h.totalBytes, utf8Chars_append, List.length_append]
      rfl
    have hnewlines : b.totalNewlines + (Chunk.of text).newlines = (total ++ text).count '\n' := by
      rw [h.totalNewlines, List.count_append]
      rfl
    have hends : Output.endsWithNewline text
        = ((total ++ text = [] : Bool) || Output.endsWithNewline (total ++ text)) := by
      rw [Output.endsWithNewline, Output.endsWithNewline, List.getLast?_append_of_ne_nil _ htext,
        decide_eq_false (fun h => htext (List.append_eq_nil_iff.mp h).2), Bool.false_or]
    rw [if_neg htext]
    simp only
    cases hfull : b.full with
    | true =>
      rw [if_pos rfl]
      refine ⟨h.limits_eq, ⟨rest ++ text, by rw [htotal, List.append_assoc], fun hno => ?_⟩,
        fun _ => h.full hfull, h.storedBytes, h.storedNewlines, hbytes, hnewlines, hends⟩
      cases hno
    | false =>
      have hall : texts (b.chunks ++ [Chunk.of text]) = total ++ text := by
        rw [texts_append, htotal, hrest hfull, List.append_nil]
        exact congrArg _ (List.append_nil text)
      have hstored : texts b.chunks = total := by rw [htotal, hrest hfull, List.append_nil]
      have hsb : b.storedBytes + (Chunk.of text).bytes = (utf8Chars (total ++ text)).length := by
        rw [h.storedBytes, hstored, ← h.totalBytes, hbytes]
      have hsn : b.storedNewlines + (Chunk.of text).newlines = (total ++ text).count '\n' := by
        rw [h.storedNewlines, hstored, ← h.totalNewlines, hnewlines]
      rw [if_neg Bool.false_ne_true]
      simp only [h.limits_eq, hhead]
      refine ⟨rfl, ⟨[], by rw [List.append_nil]; exact hall.symm, fun _ => rfl⟩, ?_,
        by rw [hall]; exact hsb, by rw [hall]; exact hsn, hbytes, hnewlines, hends⟩
      intro hnow
      show Fills limits (texts (b.chunks ++ [Chunk.of text]))
      rw [hall, Fills, ← hsb, ← hsn]
      simpa using hnow

theorem HoldsHead.snapshot (hhead : limits.retain = .head) (h : HoldsHead limits total b) :
    ∃ kept b', boundOutput total limits = some kept
      ∧ b.snapshot = some (⟨sanitizeOutput kept.text, kept.droppedBytes, kept.droppedLines⟩, b')
      ∧ HoldsHead limits total b' := by
  obtain ⟨rest, htotal, hrest⟩ := h.stored
  obtain ⟨kept, back, hsplit, hkept⟩ := boundary_headRange (texts b.chunks) limits
  -- the window of what is stored is the window of all
  have hsame : (headRange (utf8Chars total) limits).2
      = (headRange (utf8Chars (texts b.chunks)) limits).2 := by
    cases hfull : b.full with
    | true => rw [htotal, utf8Chars_append, headRange_append (h.full hfull)]
    | false => rw [htotal, hrest hfull, List.append_nil]
  have hall : total = kept ++ (back ++ rest) := by rw [htotal, hsplit, List.append_assoc]
  have hstored : b.stored = texts b.chunks := rfl
  have hbound : boundOutput (texts b.chunks) limits = some (outputSlice (texts b.chunks) kept) := by
    rw [hsplit]
    exact boundOutput_head hhead (by rw [← hsplit, hkept])
  -- the text is stored in one chunk now
  obtain ⟨joined, hjoined⟩ : ∃ joined : List Chunk, joined = if texts b.chunks = [] then []
      else [⟨texts b.chunks, b.storedBytes, (texts b.chunks).count '\n'⟩] := ⟨_, rfl⟩
  have hsnapshot : b.snapshot = some (⟨sanitizeOutput kept, (outputSlice total kept).droppedBytes,
      (outputSlice total kept).droppedLines⟩, if b.chunks.length > 1 then { b with
        chunks := joined
        storedNewlines := (joined.head?.map Chunk.newlines).getD 0 } else b) := by
    rw [OutputBuffer.snapshot, h.limits_eq, hstored, hbound, hjoined]
    simp only [Option.bind_eq_bind, Option.bind_some, hhead, reduceCtorEq, if_false, false_or]
    rw [Option.some.injEq, Prod.mk.injEq, BoundedOutput.mk.injEq]
    refine ⟨⟨rfl, ?_, ?_⟩, rfl⟩
    · rw [h.totalBytes]
      rfl
    · rw [h.totalNewlines, h.endsWithNewline, lines_eq, h.storedNewlines, lines_eq]
      show (_ : Int) - (_ - (_ - _)) = _ - _
      omega
  refine ⟨outputSlice total kept, _, ?_, hsnapshot, ?_⟩
  · rw [hall]
    exact boundOutput_head hhead (by rw [← hall, hsame, hkept])
  · split
    · have htexts : texts joined = texts b.chunks := by
        rw [hjoined]
        split
        · next hnil => exact hnil.symm
        · exact List.append_nil _
      have hnewlines : (joined.head?.map Chunk.newlines).getD 0 = (texts b.chunks).count '\n' := by
        rw [hjoined]
        split
        · next hnil =>
          rw [hnil]
          rfl
        · rfl
      refine ⟨h.limits_eq, ⟨rest, ?_, hrest⟩, ?_, ?_, ?_, h.totalBytes, h.totalNewlines,
        h.endsWithNewline⟩
      · rw [htexts]
        exact htotal
      · rw [htexts]
        exact h.full
      · rw [htexts]
        exact h.storedBytes
      · rw [htexts]
        exact hnewlines
    · exact h

/-! ## Chunks of bytes -/

structure StreamDecoder (σ : Type) where
  start : σ
  /-- `decode(bytes, { stream: true })` -/
  decode : σ → Bytes → List Char × σ
  /-- `decode()` -/
  flush : σ → List Char × σ

inductive Input where
  | text (chunk : List Char)
  | bytes (chunk : Bytes)
  | finish

/-- What is read of the inputs: the decoder, and whether there was any output. -/
structure Reader (σ : Type) where
  decoder : σ
  started : Bool

/-- The text `push` and `end` accept. Only a byte-order mark at the very start is dropped. -/
def Reader.received {σ : Type} (d : StreamDecoder σ) (r : Reader σ) : Input → List Char × Reader σ
  | .text chunk =>
    let (pending, decoder) := d.flush r.decoder
    (pending ++ chunk, ⟨decoder, r.started || pending ≠ [] || chunk ≠ []⟩)
  | .bytes chunk =>
    let (text, decoder) := d.decode r.decoder chunk
    let first := !r.started
    (if first && text.head? = some '\uFEFF' then text.tail else text,
      ⟨decoder, r.started || text ≠ []⟩)
  | .finish =>
    let (pending, decoder) := d.flush r.decoder
    (pending, ⟨decoder, r.started⟩)

inductive Step where
  | input (input : Input)
  | snapshot

@[grind =] def streamed {σ : Type} (d : StreamDecoder σ) : Reader σ → List Step → List Char
  | _, [] => []
  | r, .input input :: rest =>
    let (text, r) := r.received d input
    text ++ streamed d r rest
  | r, .snapshot :: rest => streamed d r rest

@[grind =] def runSteps {σ : Type} (d : StreamDecoder σ) :
    Reader σ → OutputBuffer → List Step → Option OutputBuffer
  | _, b, [] => some b
  | r, b, .input input :: rest =>
    let (text, r) := r.received d input
    runSteps d r (b.accept text) rest
  | r, b, .snapshot :: rest => do
    let (_, b) ← b.snapshot
    runSteps d r b rest

variable (limits) in
def Stands (total : List Char) (b : OutputBuffer) : Prop :=
  match limits.retain with
  | .head => HoldsHead limits total b
  | .tail => Holds limits total b

theorem Stands.accept (h : Stands limits total b) (text : List Char) :
    Stands limits (total ++ text) (b.accept text) := by
  cases hretain : limits.retain with
  | head =>
    rw [Stands, hretain] at h ⊢
    exact h.accept hretain text
  | tail =>
    rw [Stands, hretain] at h ⊢
    exact h.accept hretain text

theorem Stands.snapshot (h : Stands limits total b) :
    ∃ kept b', boundOutput total limits = some kept
      ∧ b.snapshot = some (⟨sanitizeOutput kept.text, kept.droppedBytes, kept.droppedLines⟩, b')
      ∧ Stands limits total b' := by
  cases hretain : limits.retain with
  | head =>
    simp only [Stands, hretain] at h ⊢
    exact h.snapshot hretain
  | tail =>
    simp only [Stands, hretain] at h ⊢
    obtain ⟨out, b', hsnapshot, ⟨front, kept, hwindow, rfl⟩, hholds⟩ := h.snapshot hretain
    exact ⟨_, b', boundOutput_tail hretain hwindow, hsnapshot, hholds⟩

theorem runSteps_stands {σ : Type} (d : StreamDecoder σ) (r : Reader σ) (steps : List Step)
    (h : Stands limits total b) :
    ∃ b', runSteps d r b steps = some b' ∧ Stands limits (total ++ streamed d r steps) b' := by
  induction steps generalizing r total b with
  | nil => exact ⟨b, rfl, by rwa [streamed, List.append_nil]⟩
  | cons step rest ih =>
    cases step with
    | input input =>
      obtain ⟨b', hrun, hstands⟩ := ih (r.received d input).2 (h.accept (r.received d input).1)
      rw [List.append_assoc] at hstands
      exact ⟨b', hrun, hstands⟩
    | snapshot =>
      obtain ⟨_, b₁, -, hsnapshot, h₁⟩ := h.snapshot
      obtain ⟨b', hrun, hstands⟩ := ih r h₁
      refine ⟨b', ?_, hstands⟩
      rw [runSteps, hsnapshot]
      exact hrun

/-- **A buffer is its stream bounded.** After any pushes and snapshots a snapshot shows what
`boundOutput` keeps of the whole stream, and that is the largest window of whole lines that fits, or
a part of one line that does not fit. -/
theorem snapshot_run {σ : Type} (d : StreamDecoder σ) (limits : OutputLimits) (steps : List Step) :
    ∃ b kept b', runSteps d ⟨d.start, false⟩ (.new limits) steps = some b
      ∧ boundOutput (streamed d ⟨d.start, false⟩ steps) limits = some kept
      ∧ b.snapshot = some (⟨sanitizeOutput kept.text, kept.droppedBytes, kept.droppedLines⟩, b')
      ∧ ∃ front back, streamed d ⟨d.start, false⟩ steps = front ++ kept.text ++ back
        ∧ match limits.retain with
          | .head => front = [] ∧ HeadBest limits (utf8Chars kept.text) (utf8Chars back)
          | .tail => back = [] ∧ TailBest limits (utf8Chars front) (utf8Chars kept.text) := by
  have hnew : Stands limits [] (.new limits) := by
    cases hretain : limits.retain with
    | head =>
      rw [Stands, hretain]
      exact ⟨rfl, ⟨[], rfl, fun _ => rfl⟩, nofun, rfl, rfl, rfl, rfl, rfl⟩
    | tail =>
      rw [Stands, hretain]
      exact Holds.new limits
  obtain ⟨b, hrun, hstands⟩ := runSteps_stands d ⟨d.start, false⟩ steps hnew
  rw [List.nil_append] at hstands
  obtain ⟨kept, b', hbound, hsnapshot, -⟩ := hstands.snapshot
  obtain ⟨front, shown, back, hsplit, hbound', hbest⟩ :=
    boundOutput_best (streamed d ⟨d.start, false⟩ steps) limits
  obtain rfl := Option.some.inj (hbound.symm.trans hbound')
  exact ⟨b, _, b', hrun, hbound, hsnapshot, front, back, hsplit, hbest⟩

end ThreeXhaust.Chord.Output
