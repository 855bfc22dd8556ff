import ThreeXhaust.CodingAgent.Truncate

/-!
# Streaming output with bounded memory

`OutputAccumulator` of `core/tools/output-accumulator.ts`. It decodes what is appended, keeps only the
end of the decoded text with counts of all of it, and writes all bytes to a temp file once they
exceed a limit. The streaming decoder is a parameter; closing the temp file is left out.

A snapshot truncates the kept end, without the part of a line it may begin with. What is lost thereby
would not be shown, with one exception: where that part and its newline are all that is kept, the
snapshot shows nothing of the last line (`EndsInPart`).

* `Holds`, **`Reached.holds`** — the kept end and the counts, after every run.
-/

namespace ThreeXhaust.CodingAgent

open Truncate

/-- `TextDecoder`, with what it holds back between two chunks. -/
structure Decoder where
  State : Type
  start : State
  /-- `decode(data, { stream: true })` -/
  decode : State → Bytes → List Char × State
  /-- `decode()` -/
  flush : State → List Char

structure OutputAccumulator (decoder : Decoder) where
  options : TruncationOptions
  decoderState : decoder.State
  rawChunks : List Bytes
  tailText : List Char
  tailBytes : Nat
  tailStartsAtLineBoundary : Bool
  totalRawBytes : Nat
  totalDecodedBytes : Nat
  completedLines : Nat
  totalLines : Nat
  currentLineBytes : Nat
  hasOpenLine : Bool
  finished : Bool
  /-- What was written to the temp file, once there is one. -/
  tempFile : Option Bytes

structure OutputSnapshot where
  content : List Char
  truncation : TruncationResult
  /-- Whether there is a file with the full output. -/
  fullOutput : Bool

namespace OutputAccumulator

variable {decoder : Decoder}

def new (decoder : Decoder) (options : TruncationOptions) : OutputAccumulator decoder where
  options := options
  decoderState := decoder.start
  rawChunks := []
  tailText := []
  tailBytes := 0
  tailStartsAtLineBoundary := true
  totalRawBytes := 0
  totalDecodedBytes := 0
  completedLines := 0
  totalLines := 0
  currentLineBytes := 0
  hasOpenLine := false
  finished := false
  tempFile := none

def maxRollingBytes (s : OutputAccumulator decoder) : Nat := max (s.options.maxBytes * 2) 1

def trimTail (s : OutputAccumulator decoder) : OutputAccumulator decoder :=
  let buffer := utf8Chars s.tailText
  if buffer.length ≤ s.maxRollingBytes then { s with tailBytes := buffer.length }
  else
    let index := buffer.length - s.maxRollingBytes
    let start := skipContinuation buffer index
    let tailText := endFrom s.tailText index
    { s with
      tailStartsAtLineBoundary :=
        if start = 0 then s.tailStartsAtLineBoundary else buffer[start - 1]? = some 10
      tailText := tailText
      tailBytes := byteLength tailText }

def countText (s : OutputAccumulator decoder) (text : List Char) : OutputAccumulator decoder :=
  let newlines := text.count '\n'
  let tail := lastLine text
  let completedLines := s.completedLines + newlines
  let hasOpenLine := if newlines = 0 then true else decide (tail.length > 0)
  { s with
    completedLines := completedLines
    currentLineBytes := if newlines = 0 then s.currentLineBytes + byteLength text else byteLength tail
    hasOpenLine := hasOpenLine
    totalLines := completedLines + if hasOpenLine then 1 else 0 }

def appendDecodedText (s : OutputAccumulator decoder) (text : List Char) :
    OutputAccumulator decoder :=
  if text.length = 0 then s
  else
    let bytes := byteLength text
    let s := { s with
      totalDecodedBytes := s.totalDecodedBytes + bytes
      tailText := s.tailText ++ text
      tailBytes := s.tailBytes + bytes }
    let s := if s.tailBytes > s.maxRollingBytes * 2 then s.trimTail else s
    s.countText text

def getSnapshotText (s : OutputAccumulator decoder) : List Char :=
  if s.tailStartsAtLineBoundary then s.tailText
  else
    match s.tailText.idxOf? '\n' with
    | none => s.tailText
    | some firstNewline => s.tailText.drop (firstNewline + 1)

def shouldUseTempFile (s : OutputAccumulator decoder) : Bool :=
  s.totalRawBytes > s.options.maxBytes || s.totalDecodedBytes > s.options.maxBytes
    || s.totalLines > s.options.maxLines

def ensureTempFile (s : OutputAccumulator decoder) : OutputAccumulator decoder :=
  match s.tempFile with
  | some _ => s
  | none =>
    { s with
      tempFile := some s.rawChunks.flatten
      rawChunks := [] }

/-- `tempFileStream?.write(data)` -/
def write (s : OutputAccumulator decoder) (data : Bytes) : OutputAccumulator decoder :=
  { s with tempFile := s.tempFile.map (· ++ data) }

def append (s : OutputAccumulator decoder) (data : Bytes) :
    Except String (OutputAccumulator decoder) :=
  if s.finished then .error "Cannot append to a finished output accumulator"
  else
    let (text, decoderState) := decoder.decode s.decoderState data
    let s := { s with
      totalRawBytes := s.totalRawBytes + data.length
      decoderState := decoderState }
    let s := s.appendDecodedText text
    if s.tempFile.isSome || s.shouldUseTempFile then .ok (s.ensureTempFile.write data)
    else if data.length > 0 then .ok { s with rawChunks := s.rawChunks ++ [data] }
    else .ok s

def finish (s : OutputAccumulator decoder) : OutputAccumulator decoder :=
  if s.finished then s
  else
    let s := { s with finished := true }
    let s := s.appendDecodedText (decoder.flush s.decoderState)
    if s.shouldUseTempFile then s.ensureTempFile else s

def snapshot (s : OutputAccumulator decoder) (persistIfTruncated : Bool) :
    OutputSnapshot × OutputAccumulator decoder :=
  let tailTruncation := truncateTail s.getSnapshotText s.options
  let truncated := s.totalLines > s.options.maxLines || s.totalDecodedBytes > s.options.maxBytes
  let truncatedBy :=
    if truncated then
      some (tailTruncation.truncatedBy.getD
        (if s.totalDecodedBytes > s.options.maxBytes then .bytes else .lines))
    else none
  let truncation := { tailTruncation with
    truncated := truncated
    truncatedBy := truncatedBy
    totalLines := s.totalLines
    totalBytes := s.totalDecodedBytes
    maxLines := s.options.maxLines
    maxBytes := s.options.maxBytes }
  let s := if persistIfTruncated && truncation.truncated then s.ensureTempFile else s
  (⟨truncation.content, truncation, s.tempFile.isSome⟩, s)

def getLastLineBytes (s : OutputAccumulator decoder) : Nat := s.currentLineBytes

/-! ## Runs -/

/-- The runs of an accumulator, with the bytes that were appended and the text they were decoded to. -/
inductive Reached (decoder : Decoder) (options : TruncationOptions) :
    OutputAccumulator decoder → Bytes → List Char → Prop
  | new : Reached decoder options (new decoder options) [] []
  | append {s s' : OutputAccumulator decoder} {raw data : Bytes} {text : List Char} :
    Reached decoder options s raw text → s.append data = .ok s' →
      Reached decoder options s' (raw ++ data) (text ++ (decoder.decode s.decoderState data).1)
  | finish {s : OutputAccumulator decoder} {raw : Bytes} {text : List Char} :
    Reached decoder options s raw text → s.finished = false →
      Reached decoder options s.finish raw (text ++ decoder.flush s.decoderState)
  | snapshot {s : OutputAccumulator decoder} {raw : Bytes} {text : List Char} (persist : Bool) :
    Reached decoder options s raw text → Reached decoder options (s.snapshot persist).2 raw text

/-- The kept end: it lacks at most the front of its first line, or at least so many bytes are kept. -/
structure Tail (s : OutputAccumulator decoder) (text : List Char) : Prop where
  kept : ∃ front, text = front ++ s.tailText
    ∧ (s.tailStartsAtLineBoundary = true ↔ Lines.Finished '\n' front)
    ∧ (front = [] ∨ 2 * s.options.maxBytes ≤ byteLength s.tailText + 3)
  tailBytes : s.tailBytes = byteLength s.tailText

structure Counts (s : OutputAccumulator decoder) (text : List Char) : Prop where
  decoded : s.totalDecodedBytes = byteLength text
  completed : s.completedLines = text.count '\n'
  current : s.currentLineBytes = byteLength (lastLine text)
  openLine : s.hasOpenLine = decide (lastLine text ≠ [])
  lines : s.totalLines = (splitLinesForCounting text).length

def Stored (s : OutputAccumulator decoder) (raw : Bytes) : Prop :=
  s.tempFile.getD s.rawChunks.flatten = raw

structure Holds (s : OutputAccumulator decoder) (options : TruncationOptions) (raw : Bytes)
    (text : List Char) : Prop where
  options : s.options = options
  tail : Tail s text
  counts : Counts s text
  stored : Stored s raw

section Steps

variable {s : OutputAccumulator decoder} {text more : List Char} {raw data : Bytes}
  {options : TruncationOptions}

theorem Tail.trimTail (h : Tail s text) : Tail s.trimTail text := by
  obtain ⟨front, htext, hstart, hkept⟩ := h.kept
  rw [OutputAccumulator.trimTail]
  dsimp only
  rw [show (utf8Chars s.tailText).length = byteLength s.tailText from rfl]
  split
  · exact ⟨⟨front, htext, hstart, hkept⟩, rfl⟩
  · rename_i hlong
    have hpos : 0 < s.maxRollingBytes := Nat.le_max_right _ _
    have hroll : s.options.maxBytes * 2 ≤ s.maxRollingBytes := Nat.le_max_left _ _
    obtain ⟨cut, htail, hcut, hfrom, hto⟩ :=
      exists_cut s.tailText (Nat.sub_le (byteLength s.tailText) s.maxRollingBytes)
    rw [← hcut]
    generalize endFrom s.tailText (byteLength s.tailText - s.maxRollingBytes) = rest at htail ⊢
    have hlength := congrArg byteLength htail
    rw [byteLength_append] at hlength
    have hcutpos : 0 < byteLength cut := by omega
    have hne : cut ≠ [] := by
      rintro rfl
      exact absurd hcutpos (Nat.lt_irrefl _)
    rw [if_neg (Nat.ne_of_gt hcutpos)]
    refine ⟨⟨front ++ cut, ?_, ?_, .inr ?_⟩, rfl⟩
    · rw [List.append_assoc, htext]
      exact congrArg (front ++ ·) htail
    · -- the byte in front of the cut is a newline when the character is
      have hin : byteLength cut - 1 < (utf8Chars cut).length := Nat.sub_one_lt_of_lt hcutpos
      show decide _ = true ↔ _
      rw [decide_eq_true_iff, Lines.finished_iff, List.getLast?_append_of_ne_nil _ hne,
        or_iff_right (List.append_ne_nil_of_right_ne_nil _ hne), ← getLast?_newline,
        List.getLast?_eq_getElem?, htail, utf8Chars_append, List.getElem?_append_left hin]
      rfl
    · show 2 * s.options.maxBytes ≤ byteLength rest + 3
      omega

theorem trimTail_frame (s : OutputAccumulator decoder) :
    ∃ tailText tailBytes boundary, s.trimTail = { s with
      tailText := tailText
      tailBytes := tailBytes
      tailStartsAtLineBoundary := boundary } := by
  rw [OutputAccumulator.trimTail]
  dsimp only
  split
  · exact ⟨_, _, _, rfl⟩
  · exact ⟨_, _, _, rfl⟩

theorem Tail.appendDecodedText (h : Tail s text) (more : List Char) :
    Tail (s.appendDecodedText more) (text ++ more) := by
  rw [OutputAccumulator.appendDecodedText]
  split
  · rename_i hnil
    rw [List.eq_nil_of_length_eq_zero hnil, List.append_nil]
    exact h
  · obtain ⟨front, htext, hstart, hkept⟩ := h.kept
    have hlonger : Tail { s with
        totalDecodedBytes := s.totalDecodedBytes + byteLength more
        tailText := s.tailText ++ more
        tailBytes := s.tailBytes + byteLength more } (text ++ more) := by
      refine ⟨⟨front, by rw [htext, List.append_assoc], hstart, hkept.imp_right fun hkept => ?_⟩, ?_⟩
      · show _ ≤ byteLength (s.tailText ++ more) + 3
        rw [byteLength_append]
        exact Nat.le_trans hkept (by omega)
      · show s.tailBytes + _ = byteLength (s.tailText ++ more)
        rw [byteLength_append, h.tailBytes]
    dsimp only
    split
    · exact ⟨hlonger.trimTail.kept, hlonger.trimTail.tailBytes⟩
    · exact ⟨hlonger.kept, hlonger.tailBytes⟩

theorem lastLine_append (text : List Char) {more : List Char} (h : more ≠ []) :
    lastLine (text ++ more) =
        (if more.count '\n' = 0 then lastLine text ++ more else lastLine more)
      ∧ (more.count '\n' = 0 → lastLine text ++ more ≠ []) := by
  refine ⟨?_, fun _ => List.append_ne_nil_of_right_ne_nil _ h⟩
  rw [lastLine, Lines.split_append_snd]
  by_cases hmem : '\n' ∈ more
  · rw [if_pos hmem, if_neg (Nat.ne_of_gt (List.count_pos_iff.mpr hmem))]
    rfl
  · rw [if_neg hmem, if_pos (List.count_eq_zero.mpr hmem)]
    rfl

theorem Counts.countText (h : Counts s text) {s' : OutputAccumulator decoder} (hmore : more ≠ [])
    (hdecoded : s'.totalDecodedBytes = s.totalDecodedBytes + byteLength more)
    (hcompleted : s'.completedLines = s.completedLines)
    (hcurrent : s'.currentLineBytes = s.currentLineBytes) :
    Counts (s'.countText more) (text ++ more) := by
  obtain ⟨hlast, hopen⟩ := lastLine_append text hmore
  have hopenLine : (s'.countText more).hasOpenLine = decide (lastLine (text ++ more) ≠ []) := by
    rw [hlast]
    show (if more.count '\n' = 0 then true else decide ((lastLine more).length > 0)) = _
    split
    · rename_i hzero
      rw [eq_comm, decide_eq_true_iff]
      exact hopen hzero
    · rw [decide_eq_decide]
      exact List.length_pos_iff
  have hcount : (s'.countText more).completedLines = (text ++ more).count '\n' := by
    show s'.completedLines + more.count '\n' = _
    rw [hcompleted, h.completed, List.count_append]
  refine ⟨?_, hcount, ?_, hopenLine, ?_⟩
  · show s'.totalDecodedBytes = _
    rw [hdecoded, h.decoded, byteLength_append]
  · rw [hlast]
    show (if more.count '\n' = 0 then s'.currentLineBytes + byteLength more
      else byteLength (lastLine more)) = _
    split
    · rw [hcurrent, h.current, byteLength_append]
    · rfl
  · show (s'.countText more).completedLines + (if (s'.countText more).hasOpenLine then 1 else 0) = _
    rw [length_splitLines, hcount, hopenLine]
    by_cases hnil : lastLine (text ++ more) = []
    · simp [hnil]
    · simp [hnil]

theorem Counts.appendDecodedText (h : Counts s text) (more : List Char) :
    Counts (s.appendDecodedText more) (text ++ more) := by
  rw [OutputAccumulator.appendDecodedText]
  split
  · rename_i hnil
    rw [List.eq_nil_of_length_eq_zero hnil, List.append_nil]
    exact h
  · rename_i hlength
    have hmore : more ≠ [] := fun hnil => hlength (congrArg List.length hnil)
    dsimp only
    split
    · obtain ⟨_, _, _, htrim⟩ := trimTail_frame { s with
        totalDecodedBytes := s.totalDecodedBytes + byteLength more
        tailText := s.tailText ++ more
        tailBytes := s.tailBytes + byteLength more }
      rw [htrim]
      exact h.countText hmore rfl rfl rfl
    · exact h.countText hmore rfl rfl rfl

theorem appendDecodedText_frame (s : OutputAccumulator decoder) (more : List Char) :
    (s.appendDecodedText more).options = s.options
      ∧ (s.appendDecodedText more).tempFile = s.tempFile
      ∧ (s.appendDecodedText more).rawChunks = s.rawChunks := by
  rw [OutputAccumulator.appendDecodedText]
  split
  · exact ⟨rfl, rfl, rfl⟩
  · dsimp only
    split
    · obtain ⟨_, _, _, htrim⟩ := trimTail_frame { s with
        totalDecodedBytes := s.totalDecodedBytes + byteLength more
        tailText := s.tailText ++ more
        tailBytes := s.tailBytes + byteLength more }
      rw [htrim]
      exact ⟨rfl, rfl, rfl⟩
    · exact ⟨rfl, rfl, rfl⟩

theorem Holds.appendDecodedText (h : Holds s options raw text) (more : List Char) :
    Holds (s.appendDecodedText more) options raw (text ++ more) := by
  obtain ⟨hoptions, hfile, hchunks⟩ := appendDecodedText_frame s more
  refine ⟨hoptions.trans h.options, h.tail.appendDecodedText more, h.counts.appendDecodedText more, ?_⟩
  rw [Stored, hfile, hchunks]
  exact h.stored

/-- Neither the decoder, nor the end, nor where the bytes are kept matters to the text. -/
theorem Holds.update (h : Holds s options raw text) (state : decoder.State) (n : Nat)
    (finished : Bool) {file : Option Bytes} {chunks : List Bytes} {raw' : Bytes}
    (hstored : file.getD chunks.flatten = raw') :
    Holds { s with
      decoderState := state
      rawChunks := chunks
      totalRawBytes := n
      finished := finished
      tempFile := file } options raw' text :=
  ⟨h.options, ⟨h.tail.kept, h.tail.tailBytes⟩, ⟨h.counts.decoded, h.counts.completed,
    h.counts.current, h.counts.openLine, h.counts.lines⟩, hstored⟩

theorem Holds.ensureTempFile (h : Holds s options raw text) :
    Holds s.ensureTempFile options raw text ∧ s.ensureTempFile.tempFile = some raw := by
  have hstored := h.stored
  rw [Stored] at hstored
  rw [OutputAccumulator.ensureTempFile]
  cases hfile : s.tempFile with
  | some written =>
    rw [hfile] at hstored
    exact ⟨h, hfile.trans (congrArg some hstored)⟩
  | none =>
    rw [hfile] at hstored
    exact ⟨h.update _ _ _ hstored, congrArg some hstored⟩

/-- **Every run** keeps the invariant. -/
theorem Reached.holds (h : Reached decoder options s raw text) : Holds s options raw text := by
  induction h with
  | new =>
    exact ⟨rfl, ⟨⟨[], rfl, ⟨fun _ => rfl, fun _ => rfl⟩, .inl rfl⟩, rfl⟩, ⟨rfl, rfl, rfl, rfl, rfl⟩,
      rfl⟩
  | @append s s' raw data text h happend ih =>
    rw [OutputAccumulator.append] at happend
    split at happend
    · cases happend
    · have hread := (ih.update (decoder.decode s.decoderState data).2
        (s.totalRawBytes + data.length) s.finished ih.stored).appendDecodedText
        (decoder.decode s.decoderState data).1
      dsimp only at happend
      generalize OutputAccumulator.appendDecodedText _ (decoder.decode s.decoderState data).1 = read
        at happend hread
      split at happend
      · -- the held chunks are in the file before the new one is written
        obtain ⟨hfile, hwritten⟩ := hread.ensureTempFile
        cases happend
        refine hfile.update _ _ _ ?_
        rw [hwritten]
        rfl
      · rename_i hnone
        have hfile : read.tempFile = none := by
          simp only [Bool.or_eq_true, not_or, Option.not_isSome_iff_eq_none] at hnone
          exact hnone.1
        have hstored := hread.stored
        rw [Stored, hfile] at hstored
        split at happend
        · cases happend
          refine hread.update _ _ _ ?_
          rw [hfile, ← hstored]
          simp
        · rename_i hempty
          cases happend
          obtain rfl := List.eq_nil_of_length_eq_zero (Nat.eq_zero_of_not_pos hempty)
          rw [List.append_nil]
          exact hread
  | @finish s raw text h hfinished ih =>
    have hread := (ih.update s.decoderState s.totalRawBytes true ih.stored).appendDecodedText (decoder.flush s.decoderState)
    rw [OutputAccumulator.finish, if_neg (by rw [hfinished]; exact Bool.false_ne_true)]
    dsimp only
    split
    · exact hread.ensureTempFile.1
    · exact hread
  | @snapshot s raw text persist h ih =>
    rw [OutputAccumulator.snapshot]
    dsimp only
    split
    · exact ih.ensureTempFile.1
    · exact ih

end Steps

/-! ## Snapshots -/

def SameLines (a b : List Char) : Prop := a = b ∨ a ++ ['\n'] = b ∨ a = b ++ ['\n']

/-- A snapshot is what truncating the whole text gives, and the file holds what was appended. -/
structure Exact (options : TruncationOptions) (s : OutputAccumulator decoder) (raw : Bytes)
    (text : List Char) (persist : Bool) : Prop where
  totalLines : (s.snapshot persist).1.truncation.totalLines = (truncateTail text options).totalLines
  totalBytes : (s.snapshot persist).1.truncation.totalBytes = (truncateTail text options).totalBytes
  truncated : (s.snapshot persist).1.truncation.truncated = (truncateTail text options).truncated
  content : SameLines (s.snapshot persist).1.content (truncateTail text options).content
  lastLineBytes : s.getLastLineBytes = byteLength (lastLine text)
  file : ∀ written, s.tempFile = some written ∨ (s.snapshot persist).2.tempFile = some written →
    written = raw

/-- The kept end is the end of one line with its newline, and does not begin at a line. -/
def EndsInPart (s : OutputAccumulator decoder) : Bool :=
  !s.tailStartsAtLineBoundary && s.tailText.idxOf? '\n' = some (s.tailText.length - 1)

section Snapshots

variable {s : OutputAccumulator decoder} {text : List Char} {raw : Bytes}
  {options : TruncationOptions}

theorem idxOf?_newline {part : List Char} (h : '\n' ∉ part) (rest : List Char) :
    (part ++ '\n' :: rest).idxOf? '\n' = some part.length := by
  induction part with
  | nil => rw [List.nil_append, List.idxOf?_cons, if_pos (beq_self_eq_true _), List.length_nil]
  | cons c part ih =>
    rw [List.mem_cons, not_or] at h
    rw [List.cons_append, List.idxOf?_cons, if_neg (by simpa using Ne.symm h.1), ih h.2]
    rfl

theorem shown_of_long (text : List Char) (h : options.maxBytes < byteLength text) :
    (truncateTail text options).content = shown options text := by
  rw [truncateTail_content, if_neg fun hfits => Nat.not_le.mpr h hfits.2]

/-- **The content** of a snapshot. -/
theorem content_iff (hlines : 1 ≤ options.maxLines) (hbytes : 4 ≤ options.maxBytes)
    (h : Tail s text) (hoptions : s.options = options) :
    SameLines (truncateTail s.getSnapshotText options).content (truncateTail text options).content ↔
      s.EndsInPart = false := by
  obtain ⟨front, rfl, hstart, hkept⟩ := h.kept
  rw [hoptions] at hkept
  rw [getSnapshotText, EndsInPart]
  cases hboundary : s.tailStartsAtLineBoundary with
  | true =>
    refine iff_of_true (.inl ?_) rfl
    rcases hkept with rfl | hkept
    · rfl
    · have hne : s.tailText ≠ [] := by
        intro hnil
        rw [hnil, byteLength_nil] at hkept
        omega
      have hlength := byteLength_append front s.tailText
      rw [if_pos rfl, shown_of_long s.tailText (by omega), shown_of_long _ (by omega),
        shown_append _ (hstart.mp hboundary) hne]
      right
      intro line _
      rcases join_splitLines hne with ⟨-, hsize⟩ | ⟨-, hsize⟩ <;> omega
  | false =>
    -- the kept end begins inside a line, of which `lastLine front` stands in front of it
    have hopen : lastLine front ≠ [] := fun hnil => by
      rw [hstart.mpr hnil] at hboundary
      cases hboundary
    have hopenBytes := byteLength_pos hopen
    have hkept : 2 * options.maxBytes ≤ byteLength s.tailText + 3 := by
      refine hkept.resolve_left ?_
      rintro rfl
      exact hopen rfl
    obtain ⟨done, hfront, hdone⟩ := @Lines.exists_finished _ _ '\n' front
    change front = done ++ lastLine front at hfront
    have hlength := byteLength_append front s.tailText
    rw [if_neg Bool.false_ne_true, Bool.not_false, Bool.true_and, decide_eq_false_iff_not,
      shown_of_long (front ++ s.tailText) (by omega)]
    by_cases hmem : '\n' ∈ s.tailText
    · obtain ⟨part, rest, htail, hpart⟩ := List.eq_append_cons_of_mem hmem
      have hbefore : '\n' ∉ lastLine front ++ part := fun h =>
        (List.mem_append.mp h).elim (Lines.not_mem_unfinished front) hpart
      rw [htail, byteLength_append, ← List.singleton_append, byteLength_append,
        byteLength_newline] at hkept
      rw [htail, idxOf?_newline hpart, List.length_append, List.length_cons, Option.some_inj]
      cases rest with
      | nil =>
        -- nothing is left of the kept end, though the line it ends is too long to be left out
        have hwhole := shown_last options hdone hbefore _ (.inr rfl) hlines (by
          rw [byteLength_append]
          rw [byteLength_nil] at hkept
          omega)
        rw [← List.append_assoc, ← List.append_assoc, ← hfront, List.append_assoc] at hwhole
        obtain ⟨cut, hcut, hne⟩ := truncateStringToBytesFromEnd_ne_nil
          (lastLine front ++ part) hbytes (by
            rw [byteLength_append]
            rw [byteLength_nil] at hkept
            omega)
        refine iff_of_false ?_ (fun h => h (by simp))
        dsimp only
        rw [List.drop_of_length_le (by simp), hwhole, truncateTail_content,
          if_pos ⟨Nat.zero_le _, Nat.zero_le _⟩]
        rintro (hsame | hsame | hsame)
        · exact hne hsame.symm
        · apply hbefore
          rw [hcut, ← hsame]
          simp
        · exact absurd hsame.symm (List.append_ne_nil_of_right_ne_nil _ (List.cons_ne_nil _ _))
      | cons c rest =>
        have hrest : c :: rest ≠ [] := List.cons_ne_nil _ _
        have hclosed := @Lines.split_finish _ _ '\n' (front ++ part)
        have hpartial : (Lines.split '\n' (front ++ part)).2 = lastLine front ++ part := by
          rw [Lines.split_append_snd, if_neg hpart]
          rfl
        have hwhole := shown_append options (congrArg Prod.snd hclosed) hrest (by
          right
          intro line hline
          rw [hclosed, List.getLast?_concat, hpartial] at hline
          cases hline
          rw [byteLength_append]
          rcases join_splitLines hrest with ⟨-, hsize⟩ | ⟨-, hsize⟩ <;> omega)
        have htext : front ++ (part ++ '\n' :: c :: rest) = front ++ part ++ ['\n'] ++ c :: rest := by
          simp
        refine iff_of_true ?_ (by simp)
        dsimp only
        rw [htext, hwhole, List.append_cons, List.drop_left' (by simp), truncateTail_content]
        split
        · rename_i hfits
          rcases shown_all options hrest hfits.1 hfits.2 with hsame | hsame
          · exact .inl hsame.symm
          · exact .inr (.inr hsame.symm)
        · exact .inl rfl
    · rw [List.idxOf?_eq_none_iff.mpr hmem]
      refine iff_of_true (.inl ?_) (fun h => by cases h)
      have hbefore : '\n' ∉ lastLine front ++ s.tailText := fun h =>
        (List.mem_append.mp h).elim (Lines.not_mem_unfinished front) hmem
      have hwhole := shown_last options hdone hbefore [] (.inl rfl) hlines (by
        rw [byteLength_append]
        omega)
      have hstarts : Lines.Finished '\n' ([] : List Char) := rfl
      have hend := shown_last options hstarts hmem [] (.inl rfl) hlines (by omega)
      rw [List.append_nil, ← List.append_assoc, ← hfront] at hwhole
      rw [List.nil_append, List.append_nil] at hend
      show (truncateTail s.tailText options).content = _
      rw [shown_of_long _ (by omega), hwhole, hend, truncateStringToBytesFromEnd_append _ (by omega)]

/-- **A snapshot is that of the whole output** exactly when the kept end is not only the end of one
line with its newline. -/
theorem snapshot_exact_iff (hlines : 1 ≤ options.maxLines) (hbytes : 4 ≤ options.maxBytes)
    (h : Reached decoder options s raw text) (persist : Bool) :
    Exact options s raw text persist ↔ s.EndsInPart = false := by
  obtain ⟨hoptions, htail, hcounts, hstored⟩ := h.holds
  have hcontent := content_iff hlines hbytes htail hoptions
  rw [← hoptions] at hcontent ⊢
  constructor
  · intro hexact
    exact hcontent.mp hexact.content
  · intro hpart
    have htotals : (truncateTail text s.options).totalLines = s.totalLines
        ∧ (truncateTail text s.options).totalBytes = s.totalDecodedBytes
        ∧ (truncateTail text s.options).truncated =
          (s.totalLines > s.options.maxLines || s.totalDecodedBytes > s.options.maxBytes) := by
      rw [truncateTail, hcounts.lines, hcounts.decoded]
      dsimp only
      split
      · refine ⟨rfl, rfl, ?_⟩
        simp only [Bool.false_eq, Bool.or_eq_false_iff, decide_eq_false_iff_not]
        omega
      · refine ⟨rfl, rfl, ?_⟩
        simp only [Bool.true_eq, Bool.or_eq_true, decide_eq_true_iff]
        omega
    refine ⟨htotals.1.symm, htotals.2.1.symm, htotals.2.2.symm, hcontent.mpr hpart, hcounts.current,
      ?_⟩
    rintro written (hwritten | hwritten)
    · rw [Stored, hwritten] at hstored
      exact hstored
    · have hafter := (h.snapshot persist).holds.stored
      rw [Stored, hwritten] at hafter
      exact hafter

end Snapshots

/-- A decoder of texts without bytes over 127. -/
def asciiDecoder : Decoder where
  State := Unit
  start := ()
  decode := fun _ data => (data.map fun b => Char.ofNat b.toNat, ())
  flush := fun _ => []

/-- Ten lines, of which four are kept and one is shown. -/
theorem snapshot_exact_lines :
    ∃ s, (new asciiDecoder ⟨1, 4⟩).append ((List.replicate 10 [97, 10]).flatten) = .ok s
      ∧ s.tailBytes = 8 ∧ Exact ⟨1, 4⟩ s ((List.replicate 10 [97, 10]).flatten)
        ((List.replicate 10 ['a', '\n']).flatten) true :=
  ⟨_, rfl, rfl, (snapshot_exact_iff (by decide) (by decide) (.append .new rfl) true).mpr rfl⟩

/-- Of a line of twenty letters seven are kept, with its newline: nothing is shown of it. -/
theorem snapshot_shows_nothing :
    ∃ s, Reached asciiDecoder ⟨1, 4⟩ s (List.replicate 20 97 ++ [10])
        (List.replicate 20 'a' ++ ['\n'])
      ∧ (s.snapshot false).1.content = []
      ∧ (truncateTail (List.replicate 20 'a' ++ ['\n']) ⟨1, 4⟩).content = ['a', 'a', 'a', 'a']
      ∧ ¬ Exact ⟨1, 4⟩ s (List.replicate 20 97 ++ [10]) (List.replicate 20 'a' ++ ['\n']) false := by
  obtain ⟨s, happend, hshown⟩ : ∃ s, (new asciiDecoder ⟨1, 4⟩).append (List.replicate 20 97 ++ [10])
      = .ok s ∧ (s.snapshot false).1.content = [] := ⟨_, rfl, by decide +kernel⟩
  have hwhole : (truncateTail (List.replicate 20 'a' ++ ['\n']) ⟨1, 4⟩).content =
      ['a', 'a', 'a', 'a'] := by decide +kernel
  have hrun := Reached.append .new happend
  refine ⟨s, hrun, hshown, hwhole, fun h => ?_⟩
  have hcontent := h.content
  rw [hshown, hwhole] at hcontent
  rcases hcontent with hsame | hsame | hsame
  · exact absurd hsame (by decide)
  · exact absurd hsame (by decide)
  · exact absurd hsame (by decide)

end OutputAccumulator

end ThreeXhaust.CodingAgent
