import ThreeXhaust.Durable.LineScan

/-!
# A scan of the pieces is a scan of the file

* `wholeFileScan` — what reading the whole file says about the selected lines.
* `measure` — a decoder for a range of lines is open while the scanner stands in the range, and has
  read the range so far.
* `after` — the scanner after the bytes it has processed; a newline goes from one to the next
  (`after_turned`), and so does a piece (`process_after`).
* `scans_exact` — both scanners give the scan of the whole file.
-/

namespace ThreeXhaust.Durable

open Utf8Stream (Decoder decode run flush)

/-! ## The whole file -/

/-- The lines of a file, the unfinished one last. -/
def linesOf {α : Type} [DecidableEq α] (mark : α) (file : List α) : List (List α) :=
  (Lines.split mark file).1 ++ [(Lines.split mark file).2]

/-- The lines `[startLine, endLine)`. -/
def slice {α : Type} (startLine : Nat) (endLine : Option Nat) (lines : List α) : List α :=
  (endLine.elim lines lines.take).drop startLine

/-- The bytes of a file without its byte-order mark. -/
def textBytes (bom : Bool) (file : Bytes) : Bytes := if bom then file.drop 3 else file

def decodeFile (file : Bytes) : List Char := decode (textBytes (startsWithBom file) file)

def lineStarts (file : Bytes) : List Nat := 0 :: (newlineIndexes file).map (· + 1)

def lineEnds (file : Bytes) : List Nat := newlineIndexes file ++ [file.length]

/-- The scan of a file that is read at once. -/
def wholeFileScan (startLine : Nat) (endLine : Option Nat) (file : Bytes) : LineScan :=
  let starts := slice startLine endLine (lineStarts file)
  let ends := slice startLine endLine (lineEnds file)
  let lines := slice startLine endLine (linesOf '\n' (decodeFile file))
  { newlines := file.count 10
    start := starts.head?.getD file.length
    «end» := ends.getLast?.getD file.length
    firstLineEnd := ends.head?.getD file.length
    lastLineStart := starts.getLast?.getD file.length
    selectedBytes := decodedBytes (['\n'].intercalate lines)
    firstLineBytes := (lines.head?.map decodedBytes).getD 0 }

/-! ## Ranges of lines -/

/-- The line is in the range. -/
def Selected (lo : Nat) (hi : Option Nat) (line : Nat) : Prop := lo ≤ line ∧ ∀ e ∈ hi, line < e

instance (lo : Nat) (hi : Option Nat) (line : Nat) : Decidable (Selected lo hi line) :=
  inferInstanceAs (Decidable (_ ∧ _))

section Slice

variable {α : Type} {lo : Nat} {hi : Option Nat} {init : List α}

theorem slice_selected (h : Selected lo hi init.length) (x : α) :
    slice lo hi (init ++ [x]) = init.drop lo ++ [x] := by
  have htake : hi.elim (init ++ [x]) (init ++ [x]).take = init ++ [x] := by
    cases hi with
    | none => rfl
    | some e =>
      apply List.take_of_length_le
      rw [List.length_append, List.length_singleton]
      exact h.2 e rfl
  rw [slice, htake, List.drop_append_of_le_length h.1]

theorem slice_eq_nil {lines : List α} (h : lines.length ≤ lo) : slice lo hi lines = [] := by
  apply List.drop_eq_nil_of_le
  cases hi with
  | none => exact h
  | some e => exact Nat.le_trans (List.length_take_le' _ _) h

theorem slice_not_selected (h : ¬ Selected lo hi init.length) (x : α) :
    slice lo hi (init ++ [x]) = slice lo hi init := by
  by_cases hlo : lo ≤ init.length
  · obtain ⟨e, rfl, he⟩ : ∃ e, hi = some e ∧ e ≤ init.length := by
      by_contra hnot
      exact h ⟨hlo, fun e he => Nat.lt_of_not_le fun hle => hnot ⟨e, he, hle⟩⟩
    show ((init ++ [x]).take e).drop lo = (init.take e).drop lo
    rw [List.take_append_of_le_length he]
  · rw [slice_eq_nil, slice_eq_nil]
    · omega
    · rw [List.length_append, List.length_singleton]
      omega

theorem head?_slice (h : Selected lo hi lo) (xs : List α) : (slice lo hi xs).head? = xs[lo]? := by
  rw [slice, List.head?_drop]
  cases hi with
  | none => rfl
  | some e => exact List.getElem?_take_of_lt (h.2 e rfl)

theorem getLast?_slice {xs : List α} (hxs : lo < xs.length) (h : Selected lo hi lo) :
    (slice lo hi xs).getLast? = (hi.bind fun e => xs[e - 1]?).or xs.getLast? := by
  cases hi with
  | none =>
    show (xs.drop lo).getLast? = xs.getLast?
    rw [List.getLast?_drop, if_neg (Nat.not_le.mpr hxs)]
  | some e =>
    have he := h.2 e rfl
    show ((xs.take e).drop lo).getLast? = xs[e - 1]?.or xs.getLast?
    rw [List.getLast?_drop, List.length_take, if_neg (by omega), List.getLast?_take,
      if_neg (by omega)]

theorem slice_one (lo : Nat) (xs : List α) : slice lo (some (lo + 1)) xs = xs[lo]?.toList := by
  show (xs.take (lo + 1)).drop lo = _
  rw [List.drop_take, Nat.add_sub_cancel_left, List.take_one, List.head?_drop]

theorem slice_map {β : Type} (f : α → β) (xs : List α) :
    slice lo hi (xs.map f) = (slice lo hi xs).map f := by
  unfold slice
  cases hi with
  | none => exact List.map_drop.symm
  | some e =>
    show ((xs.map f).take e).drop lo = ((xs.take e).drop lo).map f
    rw [← List.map_take, List.map_drop]

end Slice

/-- The bytes of the lines of a range. -/
def rangeOf (lo : Nat) (hi : Option Nat) (file : Bytes) : Bytes :=
  [10].intercalate (slice lo hi (linesOf 10 file))

section Range

variable {lo : Nat} {hi : Option Nat} {t seg : Bytes}

theorem length_lines (t : Bytes) : (linesOf 10 t).length = t.count 10 + 1 := by
  rw [linesOf, List.length_append, Lines.length_split, List.length_singleton]

theorem linesOf_append (hseg : 10 ∉ seg) :
    linesOf 10 (t ++ seg) = (Lines.split 10 t).1 ++ [(Lines.split 10 t).2 ++ seg] := by
  have hline : 10 ∉ (Lines.split 10 t).2 ++ seg := fun hmem =>
    (List.mem_append.mp hmem).elim (Lines.not_mem_unfinished t) hseg
  rw [linesOf, Lines.split_append, Lines.split_of_not_mem hline, List.append_nil]

theorem linesOf_newline (t : Bytes) : linesOf 10 (t ++ [10]) = linesOf 10 t ++ [[]] := by
  rw [linesOf, Lines.split_finish]
  rfl

theorem intercalate_append {α : Type} (mark : List α) (lines : List (List α)) (line seg : List α) :
    mark.intercalate (lines ++ [line ++ seg]) = mark.intercalate (lines ++ [line]) ++ seg := by
  induction lines with
  | nil => simp
  | cons first lines ih =>
    cases lines with
    | nil => simp [List.intercalate]
    | cons second lines =>
      simp only [List.cons_append, List.intercalate_cons_cons, List.append_assoc] at ih ⊢
      rw [ih]

theorem intercalate_newline {α : Type} (mark : List α) {lines : List (List α)} (h : lines ≠ []) :
    mark.intercalate (lines ++ [[]]) = mark.intercalate lines ++ mark := by
  induction lines with
  | nil => exact absurd rfl h
  | cons first lines ih =>
    cases lines with
    | nil => simp [List.intercalate]
    | cons second lines =>
      simp only [List.cons_append, List.intercalate_cons_cons, List.append_assoc] at ih ⊢
      rw [ih (List.cons_ne_nil _ _)]

theorem rangeOf_append (h : Selected lo hi (t.count 10)) (hseg : 10 ∉ seg) :
    rangeOf lo hi (t ++ seg) = rangeOf lo hi t ++ seg := by
  rw [← Lines.length_split] at h
  rw [rangeOf, linesOf_append hseg, slice_selected h, intercalate_append, rangeOf, linesOf,
    slice_selected h]

theorem rangeOf_append_not (h : ¬ Selected lo hi (t.count 10)) (hseg : 10 ∉ seg) :
    rangeOf lo hi (t ++ seg) = rangeOf lo hi t := by
  rw [← Lines.length_split] at h
  rw [rangeOf, linesOf_append hseg, slice_not_selected h, rangeOf, linesOf, slice_not_selected h]

/-- Between two lines of the range stands a newline. -/
theorem rangeOf_newline (h : Selected lo hi (t.count 10)) (hnext : Selected lo hi (t.count 10 + 1)) :
    rangeOf lo hi (t ++ [10]) = rangeOf lo hi t ++ [10] := by
  rw [← length_lines] at hnext
  rw [← Lines.length_split] at h
  have hslice : slice lo hi (linesOf 10 t) = (linesOf 10 t).drop lo := by
    rw [linesOf, slice_selected h, List.drop_append_of_le_length h.1]
  rw [rangeOf, linesOf_newline, slice_selected hnext, ← hslice, intercalate_newline, rangeOf]
  rw [linesOf, slice_selected h]
  exact List.append_ne_nil_of_right_ne_nil _ (List.cons_ne_nil _ _)

theorem rangeOf_newline_not (h : ¬ Selected lo hi (t.count 10 + 1)) :
    rangeOf lo hi (t ++ [10]) = rangeOf lo hi t := by
  rw [← length_lines] at h
  rw [rangeOf, linesOf_newline, slice_not_selected h, rangeOf]

theorem rangeOf_nil (lo : Nat) (hi : Option Nat) : rangeOf lo hi [] = [] := by
  cases hi with
  | none => cases lo <;> simp [rangeOf, slice, linesOf, Lines.split]
  | some e => cases e <;> cases lo <;> simp [rangeOf, slice, linesOf, Lines.split]

/-- The range begins behind the newline. -/
theorem rangeOf_begin (h : Selected lo hi lo) (hlo : t.count 10 + 1 = lo) :
    rangeOf lo hi t = [] ∧ rangeOf lo hi (t ++ [10]) = [] := by
  have hlength : (linesOf 10 t).length = lo := (length_lines t).trans hlo
  have hafter : Selected lo hi (linesOf 10 t).length := by rwa [hlength]
  constructor
  · rw [rangeOf, slice_eq_nil (Nat.le_of_eq hlength)]
    rfl
  · rw [rangeOf, linesOf_newline, slice_selected hafter, List.drop_eq_nil_of_le (by omega)]
    rfl

/-! ## Positions -/

theorem newlineIndexes_append (q : Bytes) (hseg : 10 ∉ seg) :
    newlineIndexes (q ++ seg) = newlineIndexes q := by
  have hnil : newlines seg = [] := by
    apply List.eq_nil_of_length_eq_zero
    rw [newlines_length, List.count_eq_zero.mpr hseg]
  rw [newlineIndexes, newlines_append, hnil, List.map_nil, List.append_nil]

theorem newlineIndexes_newline (q : Bytes) :
    newlineIndexes (q ++ [10]) = newlineIndexes q ++ [q.length] := by
  rw [newlineIndexes, newlines_append]
  rfl

theorem length_lineStarts (q : Bytes) : (lineStarts q).length = q.count 10 + 1 := by
  rw [lineStarts, List.length_cons, List.length_map, newlines_length]

theorem lineStarts_append (q : Bytes) (hseg : 10 ∉ seg) :
    lineStarts (q ++ seg) = lineStarts q := by
  rw [lineStarts, newlineIndexes_append q hseg, lineStarts]

theorem lineStarts_newline (q : Bytes) :
    lineStarts (q ++ [10]) = lineStarts q ++ [q.length + 1] := by
  rw [lineStarts, newlineIndexes_newline, List.map_append]
  rfl

/-- The list grows at its end. -/
theorem getElem?_snoc {α : Type} (xs : List α) (x : α) (i : Nat) :
    (xs ++ [x])[i]? = if xs.length = i then some x else xs[i]? := by
  split
  · next h => rw [← h, List.getElem?_concat_length]
  · next h =>
    rcases Nat.lt_or_ge i xs.length with hlt | hge
    · rw [List.getElem?_append_left hlt]
    · rw [List.getElem?_eq_none hge, List.getElem?_eq_none]
      rw [List.length_append, List.length_singleton]
      omega

theorem bind_snoc {α : Type} (h : Selected lo hi lo) (xs : List α) (x : α) :
    hi.bind (fun e => (xs ++ [x])[e - 1]?) =
      if hi = some (xs.length + 1) then some x else hi.bind fun e => xs[e - 1]? := by
  cases hi with
  | none => rfl
  | some e =>
    have hlo := h.2 e rfl
    show (xs ++ [x])[e - 1]? = if some e = some (xs.length + 1) then some x else xs[e - 1]?
    rw [getElem?_snoc]
    by_cases he : xs.length = e - 1
    · rw [if_pos he, if_pos (congrArg some (by omega))]
    · have hne : some e ≠ some (xs.length + 1) := fun heq => he (by cases heq; rfl)
      rw [if_neg he, if_neg hne]

end Range

/-! ## The decoder of a range -/

namespace LineScanner

section Measure

variable {lo : Nat} {hi : Option Nat} {t seg : Bytes}

/-- The decoder and the size of a range after the bytes `t`: the decoder is open while the scanner
stands in the range. -/
def measure (lo : Nat) (hi : Option Nat) (t : Bytes) : Option Decoder × Nat :=
  let read := run none (rangeOf lo hi t)
  if Selected lo hi (t.count 10) then (some read.1, decodedBytes read.2)
  else (none, decodedBytes (decode (rangeOf lo hi t)))

theorem decodedBytes_append (a b : List Char) :
    decodedBytes (a ++ b) = decodedBytes a + decodedBytes b := by
  rw [decodedBytes, utf8Chars_append, List.length_append]
  rfl

theorem stream_run (read bytes : Bytes) :
    stream (some (run none read).1) (decodedBytes (run none read).2) bytes =
      (some (run none (read ++ bytes)).1, decodedBytes (run none (read ++ bytes)).2) := by
  rw [Utf8Stream.run_append, decodedBytes_append]
  rfl

theorem stream_nil (decoder : Option Decoder) (size : Nat) :
    stream decoder size [] = (decoder, size) := by
  cases decoder <;> rfl

/-- Closing the decoder gives the size of the range. -/
theorem close_measure (lo : Nat) (hi : Option Nat) (t : Bytes) :
    close (measure lo hi t).1 (measure lo hi t).2 = decodedBytes (decode (rangeOf lo hi t)) := by
  unfold measure
  split
  · rw [decode, decodedBytes_append]
    rfl
  · rfl

theorem stream_measure (hseg : 10 ∉ seg) :
    stream (measure lo hi t).1 (measure lo hi t).2 seg = measure lo hi (t ++ seg) := by
  have hcount : (t ++ seg).count 10 = t.count 10 := by
    rw [List.count_append, List.count_eq_zero.mpr hseg, Nat.add_zero]
  unfold measure
  rw [hcount]
  split
  · next hsel => rw [rangeOf_append hsel hseg, stream_run]
  · next hsel =>
    rw [rangeOf_append_not hsel hseg]
    rfl

/-- The newline closes the decoder of a range that ends with its line, is read by the one of a range
that goes on, and opens the one of a range that begins behind it. -/
theorem measure_newline (hlo : Selected lo hi lo) :
    let closed := if hi = some (t.count 10 + 1)
      then (none, close (measure lo hi t).1 (measure lo hi t).2) else measure lo hi t
    let read := stream closed.1 closed.2 [10]
    measure lo hi (t ++ [10]) = (if t.count 10 + 1 = lo then some none else read.1, read.2) := by
  have hcount : (t ++ [10]).count 10 = t.count 10 + 1 := by
    rw [List.count_append]
    rfl
  simp only [close_measure]
  unfold measure
  rw [hcount]
  by_cases hsel : Selected lo hi (t.count 10)
  · have hne : t.count 10 + 1 ≠ lo := by
      have := hsel.1
      omega
    rw [if_neg hne, if_pos hsel]
    by_cases hend : hi = some (t.count 10 + 1)
    · -- the line was the last one of the range
      have hnot : ¬ Selected lo hi (t.count 10 + 1) := fun hnext =>
        Nat.lt_irrefl _ (hnext.2 _ hend)
      rw [if_neg hnot, rangeOf_newline_not hnot, if_pos hend]
      rfl
    · have hnext : Selected lo hi (t.count 10 + 1) := by
        refine ⟨Nat.le_succ_of_le hsel.1, fun e he => ?_⟩
        have hlt := hsel.2 e he
        have hne : e ≠ t.count 10 + 1 := fun heq => hend (heq ▸ he)
        omega
      rw [if_pos hnext, rangeOf_newline hsel hnext, if_neg hend, stream_run]
  · have hread : ∀ c : Prop, [Decidable c] →
        (if c then ((none : Option Decoder), decodedBytes (decode (rangeOf lo hi t)))
          else (none, decodedBytes (decode (rangeOf lo hi t))))
          = (none, decodedBytes (decode (rangeOf lo hi t))) := fun c _ => ite_self _
    rw [if_neg hsel, hread]
    by_cases hbegin : t.count 10 + 1 = lo
    · obtain ⟨hbefore, hafter⟩ := rangeOf_begin hlo hbegin
      rw [if_pos (hbegin ▸ hlo), if_pos hbegin, hbefore, hafter]
      rfl
    · -- the range is behind the scanner, or further on
      have hnot : ¬ Selected lo hi (t.count 10 + 1) := by
        intro hnext
        refine hsel ⟨?_, fun e he => Nat.lt_of_succ_lt (hnext.2 e he)⟩
        have := hnext.1
        omega
      rw [if_neg hnot, if_neg hbegin, rangeOf_newline_not hnot]
      rfl

theorem measure_nil (h : Selected lo hi lo) :
    measure lo hi [] = (if lo = 0 then some none else none, 0) := by
  have hnil : measure lo hi [] = if Selected lo hi 0 then (some none, 0) else (none, 0) := by
    rw [measure, rangeOf_nil]
    rfl
  rw [hnil]
  by_cases hlo : lo = 0
  · rw [if_pos (show Selected lo hi 0 from hlo ▸ h), if_pos hlo]
  · rw [if_neg fun hsel : Selected lo hi 0 => hlo (Nat.le_zero.mp hsel.1), if_neg hlo]

end Measure

/-! ## Steps of the scanner -/

/-- Both decoders read on. -/
def advance (s : LineScanner) (bytes : Bytes) : LineScanner :=
  { s with
    selection := (stream s.selection s.selectedBytes bytes).1
    selectedBytes := (stream s.selection s.selectedBytes bytes).2
    firstLine := (stream s.firstLine s.firstLineBytes bytes).1
    firstLineBytes := (stream s.firstLine s.firstLineBytes bytes).2 }

section Steps

variable (s : LineScanner)

theorem feed_eq {done seg rest : Bytes} {base : Nat}
    (hmark : s.bom = true → 3 ≤ base + done.length) :
    s.feed (done ++ (seg ++ rest)) base done.length (done.length + seg.length) = s.advance seg := by
  have hstart : ¬ (s.bom && decide (base + done.length < 3)) = true := by
    rw [Bool.and_eq_true, decide_eq_true_iff]
    rintro ⟨hbom, hlt⟩
    have := hmark hbom
    omega
  simp only [feed, if_neg hstart, List.drop_left, Nat.add_sub_cancel_left, List.take_left]
  split
  · next hle =>
    obtain rfl : seg = [] := List.eq_nil_of_length_eq_zero (by omega)
    simp only [advance, stream_nil]
  · rfl

theorem isLast_iff (line : Nat) : s.isLast line = true ↔ s.endLine = some (line + 1) := by
  unfold isLast
  cases s.endLine with
  | none => simp
  | some e =>
    show decide ((line : Int) = e - 1) = true ↔ some e = some (line + 1)
    rw [decide_eq_true_iff, Option.some_inj]
    omega

variable (c : Prop) [Decidable c] (position : Nat)

theorem ite_endFirstLine :
    (if c then s.endFirstLine position else s) =
      let closed := if c then (none, close s.firstLine s.firstLineBytes)
        else (s.firstLine, s.firstLineBytes)
      { s with
        firstLineEnd := if c then some position else s.firstLineEnd
        firstLine := closed.1
        firstLineBytes := closed.2 } := by
  split <;> rfl

theorem ite_endSelection :
    (if c then s.endSelection position else s) =
      let closed := if c then (none, close s.selection s.selectedBytes)
        else (s.selection, s.selectedBytes)
      { s with
        «end» := if c then some position else s.end
        selection := closed.1
        selectedBytes := closed.2 } := by
  split <;> rfl

theorem ite_begin :
    (if c then s.begin position else s) =
      { s with
        start := if c then some position else s.start
        lastLineStart :=
          if c then if s.isLast s.startLine then some position else s.lastLineStart
          else s.lastLineStart
        selection := if c then some rangeDecoder else s.selection
        firstLine := if c then some rangeDecoder else s.firstLine } := by
  split <;> rfl

theorem ite_lastLineStart (start : Option Nat) :
    (if c then { s with lastLineStart := start } else s) =
      { s with lastLineStart := if c then start else s.lastLineStart } := by
  split <;> rfl

end Steps

/-- The scanner behind a newline at `position`. -/
def turned (s : LineScanner) (position : Nat) : LineScanner :=
  let selection := if s.isLast s.newlines then (none, close s.selection s.selectedBytes)
    else (s.selection, s.selectedBytes)
  let firstLine := if s.newlines = s.startLine then (none, close s.firstLine s.firstLineBytes)
    else (s.firstLine, s.firstLineBytes)
  let lastLineStart := if s.isLast s.startLine then some (position + 1) else s.lastLineStart
  { s with
    newlines := s.newlines + 1
    lineStart := position + 1
    start := if s.newlines + 1 = s.startLine then some (position + 1) else s.start
    «end» := if s.isLast s.newlines then some position else s.end
    firstLineEnd := if s.newlines = s.startLine then some position else s.firstLineEnd
    lastLineStart := if s.isLast (s.newlines + 1) then some (position + 1)
      else if s.newlines + 1 = s.startLine then lastLineStart else s.lastLineStart
    selection := if s.newlines + 1 = s.startLine then some none
      else (stream selection.1 selection.2 [10]).1
    selectedBytes := (stream selection.1 selection.2 [10]).2
    firstLine := if s.newlines + 1 = s.startLine then some none
      else (stream firstLine.1 firstLine.2 [10]).1
    firstLineBytes := (stream firstLine.1 firstLine.2 [10]).2 }

theorem newline_eq (s : LineScanner) {done seg rest : Bytes} {base : Nat}
    (hmark : s.bom = true → 3 ≤ base + done.length) :
    newline (done ++ (seg ++ 10 :: rest)) base (s, done.length) (done.length + seg.length) =
      ((s.advance seg).turned (base + (done.length + seg.length)),
        done.length + seg.length + 1) := by
  have hnewline : ∀ s' : LineScanner, s'.bom = s.bom →
      s'.feed (done ++ (seg ++ 10 :: rest)) base (done.length + seg.length)
        (done.length + seg.length + 1) = s'.advance [10] := by
    intro s' hbom
    have hfeed := @feed_eq s' (done ++ seg) [10] rest base (by
      rw [hbom, List.length_append]
      intro h
      have := hmark h
      omega)
    rwa [List.length_append, List.append_assoc] at hfeed
  simp only [newline, s.feed_eq hmark]
  rw [hnewline _ (by split_ifs <;> rfl)]
  generalize s.advance seg = s
  rw [ite_endFirstLine, ite_endSelection, ite_begin, ite_lastLineStart]
  rfl

/-! ## The scanner in a file -/

/-- The scanner after the bytes `q`, which it has processed; `base` is where its chunk began. -/
def after (lo : Nat) (hi : Option Nat) (mark : Bool) (base : Nat) (q : Bytes) : LineScanner where
  startLine := lo
  endLine := hi
  position := base
  newlines := q.count 10
  lineStart := (lineStarts q).getLast?.getD 0
  start := (lineStarts q)[lo]?
  «end» := hi.bind fun e => (newlineIndexes q)[e - 1]?
  firstLineEnd := (newlineIndexes q)[lo]?
  lastLineStart := hi.bind fun e => (lineStarts q)[e - 1]?
  selectedBytes := (measure lo hi (textBytes mark q)).2
  firstLineBytes := (measure lo (some (lo + 1)) (textBytes mark q)).2
  selection := (measure lo hi (textBytes mark q)).1
  firstLine := (measure lo (some (lo + 1)) (textBytes mark q)).1
  head := none
  bom := mark

/-- The mark is whole, and is no newline. -/
def Marked (mark : Bool) (q : Bytes) : Prop := mark = true → 3 ≤ q.length ∧ 10 ∉ q.take 3

section After

variable {lo base : Nat} {hi : Option Nat} {mark : Bool} {q seg : Bytes}

theorem Marked.append (h : Marked mark q) (r : Bytes) : Marked mark (q ++ r) := by
  intro hmark
  obtain ⟨hlength, hnone⟩ := h hmark
  rw [List.take_append_of_le_length hlength, List.length_append]
  exact ⟨Nat.le_add_right_of_le hlength, hnone⟩

theorem Marked.text_append (h : Marked mark q) (r : Bytes) :
    textBytes mark (q ++ r) = textBytes mark q ++ r := by
  unfold textBytes
  split
  · next hmark => rw [List.drop_append_of_le_length (h hmark).1]
  · rfl

theorem Marked.count_text (h : Marked mark q) : (textBytes mark q).count 10 = q.count 10 := by
  unfold textBytes
  split
  · next hmark =>
    have hsplit := congrArg (List.count 10) (List.take_append_drop 3 q)
    rw [List.count_append, List.count_eq_zero.mpr (h hmark).2, Nat.zero_add] at hsplit
    exact hsplit
  · rfl

/-- Bytes of a line. -/
theorem after_advance (h : Marked mark q) (hseg : 10 ∉ seg) :
    (after lo hi mark base q).advance seg = after lo hi mark base (q ++ seg) := by
  have hcount : (q ++ seg).count 10 = q.count 10 := by
    rw [List.count_append, List.count_eq_zero.mpr hseg, Nat.add_zero]
  simp only [advance, after, h.text_append, hcount, newlineIndexes_append q hseg,
    lineStarts_append q hseg, stream_measure hseg]

/-- **A newline.** -/
theorem after_turned (h : Marked mark q) (hrange : Selected lo hi lo) :
    (after lo hi mark base q).turned q.length = after lo hi mark base (q ++ [10]) := by
  have hcount : (q ++ [10]).count 10 = q.count 10 + 1 := by
    rw [List.count_append]
    rfl
  have hlength : (newlineIndexes q).length = q.count 10 := newlines_length q
  have hselection := measure_newline (t := textBytes mark q) hrange
  have hfirst := @measure_newline lo (some (lo + 1)) (textBytes mark q) ⟨Nat.le_refl _, by simp⟩
  have hif : some (lo + 1) = some (q.count 10 + 1) ↔ q.count 10 = lo := by
    rw [Option.some_inj, Nat.add_right_cancel_iff, eq_comm]
  rw [← h.text_append, h.count_text] at hselection hfirst
  have hlast : ∀ line, (after lo hi mark base q).isLast line = true ↔ hi = some (line + 1) :=
    isLast_iff _
  simp only [turned, hlast]
  simp only [after, hselection, hfirst, hif, hcount, Prod.mk.eta, lineStarts_newline,
    newlineIndexes_newline, getElem?_snoc _ _ lo, bind_snoc hrange, length_lineStarts, hlength,
    List.getLast?_concat, Option.getD_some]
  congr! 1
  by_cases hend : hi = some (q.count 10 + 1 + 1)
  · exact (if_pos hend).trans (if_pos hend).symm
  · refine (if_neg hend).trans (Eq.trans ?_ (if_neg hend).symm)
    by_cases hbegin : q.count 10 + 1 = lo
    · exact (if_pos hbegin).trans (if_neg (hbegin ▸ hend))
    · exact if_neg hbegin

/-- The newlines of a chunk, behind the bytes `seg` of a line. -/
theorem foldl_newline {chunk : Bytes} (hrange : Selected lo hi lo) (hmark : Marked mark q)
    (hbase : q.length = base) (rest : Bytes) : ∀ done seg : Bytes, chunk = done ++ (seg ++ rest) →
      10 ∉ seg → ∃ stop tail, ((newlineIndexes rest).map (done.length + seg.length + ·)).foldl
          (newline chunk base) (after lo hi mark base (q ++ done), done.length)
          = (after lo hi mark base (q ++ stop), stop.length)
        ∧ chunk = stop ++ tail ∧ 10 ∉ tail := by
  have hshift : ∀ k, (fun i => k + i) ∘ (· + 1) = fun i : Nat => k + 1 + i := by
    intro k
    funext i
    show k + (i + 1) = k + 1 + i
    omega
  induction rest with
  | nil =>
    intro done seg hchunk hseg
    rw [List.append_nil] at hchunk
    exact ⟨done, seg, rfl, hchunk, hseg⟩
  | cons byte rest ih =>
    intro done seg hchunk hseg
    by_cases hbyte : byte = 10
    · subst hbyte
      have hrest := ih (done ++ (seg ++ [10])) [] (by rw [hchunk]; simp) List.not_mem_nil
      have hround := @newline_eq (after lo hi mark base (q ++ done)) done seg rest base fun hbom =>
        hbase ▸ List.length_append ▸ (hmark.append done hbom).1
      have hposition : base + (done.length + seg.length) = (q ++ done ++ seg).length := by
        rw [List.length_append, List.length_append, hbase, Nat.add_assoc]
      rw [← hchunk, after_advance (hmark.append done) hseg, hposition,
        after_turned ((hmark.append done).append seg) hrange] at hround
      have hindexes : newlineIndexes (10 :: rest) = 0 :: (newlineIndexes rest).map (· + 1) := rfl
      rw [hindexes, List.map_cons, List.foldl_cons, List.map_map, Nat.add_zero, hround, hshift]
      simpa [← Nat.add_assoc] using hrest
    · have hrest := ih done (seg ++ [byte]) (by rw [hchunk]; simp) (by
        rw [List.mem_append, List.mem_singleton]
        exact fun hmem => hmem.elim hseg (fun h => hbyte h.symm))
      have hindexes : newlineIndexes (byte :: rest) = (newlineIndexes rest).map (· + 1) := by
        show (if byte = 10 then [0] else []) ++ _ = _
        rw [if_neg hbyte]
        rfl
      rw [List.length_append, List.length_singleton, ← Nat.add_assoc] at hrest
      rw [hindexes, List.map_map, hshift]
      exact hrest

/-- **A piece of the file.** -/
theorem process_after (hrange : Selected lo hi lo) (hmark : Marked mark q) (chunk : Bytes) :
    (after lo hi mark q.length q).process chunk
      = after lo hi mark (q ++ chunk).length (q ++ chunk) := by
  obtain ⟨stop, tail, hfold, rfl, htail⟩ :=
    @foldl_newline lo q.length hi mark q chunk hrange hmark rfl chunk [] [] rfl List.not_mem_nil
  have hmap : (newlineIndexes (stop ++ tail)).map (0 + 0 + ·) = newlineIndexes (stop ++ tail) := by
    simp
  have hfeed := @feed_eq (after lo hi mark q.length (q ++ stop)) stop tail [] q.length fun hbom =>
    List.length_append ▸ (hmark.append stop hbom).1
  rw [List.append_nil, ← List.length_append, after_advance (hmark.append stop) htail,
    List.append_assoc] at hfeed
  rw [List.append_nil, List.length_nil, hmap] at hfold
  have hposition : (after lo hi mark q.length q).position = q.length := rfl
  simp only [process, hposition, hfold, hfeed]
  rw [@List.length_append _ q]
  rfl

end After

/-! ## The beginning and the end -/

section Run

variable {lo base : Nat} {hi : Option Nat} {mark : Bool} {s : LineScanner} {q file : Bytes}

/-- The scanner that the constructor makes. -/
def started (lo : Nat) (hi : Option Nat) : LineScanner :=
  if lo = 0 then (fresh lo hi).begin 0 else fresh lo hi

/-- Before the first byte of the text. -/
theorem started_eq (hrange : Selected lo hi lo) (hindexes : newlineIndexes q = [])
    (htext : textBytes mark q = []) :
    { started lo hi with head := none, bom := mark, position := base }
      = after lo hi mark base q := by
  have hcount : q.count 10 = 0 := by
    rw [← newlines_length]
    exact congrArg List.length hindexes
  have hlast : hi.bind (fun e => [0][e - 1]?) = if hi = some 1 then some 0 else none :=
    (bind_snoc hrange [] 0).trans (by cases hi <;> rfl)
  have hend : hi.bind (fun e => ([] : List Nat)[e - 1]?) = none := by cases hi <;> rfl
  have hfirst := @measure_nil lo (some (lo + 1)) ⟨Nat.le_refl _, by simp⟩
  simp only [started, after, ite_begin, isLast_iff, lineStarts, hindexes, htext, hcount,
    measure_nil hrange, hfirst, List.map_nil, hlast, hend]
  by_cases hlo : lo = 0
  · subst hlo
    rfl
  · have hne : hi ≠ some 1 := fun h => hlo (Nat.lt_one_iff.mp (hrange.2 1 h))
    have hnone : [0][lo]? = none := List.getElem?_eq_none (Nat.one_le_iff_ne_zero.mpr hlo)
    simp only [if_neg hlo, if_neg hne, hnone]
    rfl

theorem eq_bom {head : Bytes} (h : startsWithBom head = true) :
    ∃ rest, head = [0xEF, 0xBB, 0xBF] ++ rest := by
  match head with
  | [] | [_] | [_, _] => simp [startsWithBom] at h
  | a :: b :: c :: rest => exact ⟨rest, by simpa [startsWithBom, and_assoc] using h⟩

theorem marked_bom (head : Bytes) : Marked (startsWithBom head) head := by
  intro h
  obtain ⟨rest, rfl⟩ := eq_bom h
  exact ⟨Nat.le_add_left _ _, by simp⟩

theorem startsWithBom_append {head : Bytes} (h : 3 ≤ head.length) (rest : Bytes) :
    startsWithBom (head ++ rest) = startsWithBom head := by
  unfold startsWithBom
  rw [List.getElem?_append_left (by omega), List.getElem?_append_left (by omega),
    List.getElem?_append_left (by omega)]

theorem started_head (lo : Nat) (hi : Option Nat) : (started lo hi).head = some [] := by
  unfold started
  split <;> rfl

theorem started_position (lo : Nat) (hi : Option Nat) : (started lo hi).position = 0 := by
  unfold started
  split <;> rfl

/-- The first bytes are known. -/
theorem releaseHead_started (hrange : Selected lo hi lo) {head : Bytes} (hlength : head.length ≤ 3) :
    releaseHead { started lo hi with head := some head }
      = after lo hi (startsWithBom head) head.length head := by
  have hposition := started_position lo hi
  show process { started lo hi with head := none, bom := startsWithBom head } head = _
  cases hbom : startsWithBom head with
  | false =>
    have hstarted := @started_eq lo 0 hi false [] hrange rfl rfl
    rw [← hposition] at hstarted
    rw [congrArg (process · head) hstarted, hposition]
    exact @process_after lo hi false [] hrange nofun head
  | true =>
    obtain ⟨rest, hrest⟩ := eq_bom hbom
    have hnil : rest = [] := by
      rw [hrest, List.length_append] at hlength
      exact List.eq_nil_of_length_eq_zero (Nat.le_zero.mp (Nat.le_of_add_le_add_left hlength))
    subst hnil
    subst hrest
    refine Eq.trans ?_ (@started_eq lo 3 hi true [0xEF, 0xBB, 0xBF] hrange rfl rfl)
    -- nothing of the mark goes to a decoder
    simp only [process, newlineIndexes, feed, hposition]
    rfl

/-- After some pieces: the first bytes are held, or everything is processed. -/
def Pushed (lo : Nat) (hi : Option Nat) (s : LineScanner) (file : Bytes) : Prop :=
  (file.length < 3 ∧ s = { started lo hi with head := some file })
  ∨ (3 ≤ file.length ∧ s = after lo hi (startsWithBom file) file.length file)

theorem pushed_process (hrange : Selected lo hi lo) (hlength : 3 ≤ file.length) (chunk : Bytes) :
    Pushed lo hi ((after lo hi (startsWithBom file) file.length file).process chunk)
      (file ++ chunk) := by
  refine .inr ⟨by rw [List.length_append]; omega, ?_⟩
  rw [process_after hrange (marked_bom file), startsWithBom_append hlength]

theorem Pushed.push (h : Pushed lo hi s file) (hrange : Selected lo hi lo) (chunk : Bytes) :
    Pushed lo hi (s.push chunk) (file ++ chunk) := by
  rcases h with ⟨hlength, rfl⟩ | ⟨hlength, rfl⟩
  · have hsplit := List.take_append_drop (min (3 - file.length) chunk.length) chunk
    have htake : (chunk.take (min (3 - file.length) chunk.length)).length
        = min (3 - file.length) chunk.length := by
      rw [List.length_take]
      omega
    simp only [LineScanner.push]
    split
    · next hshort =>
      rw [List.length_append, htake] at hshort
      rw [List.take_of_length_le (by omega)]
      exact .inl ⟨by rw [List.length_append]; omega, rfl⟩
    · next hfull =>
      have hthree : (file ++ chunk.take (min (3 - file.length) chunk.length)).length ≤ 3 := by
        rw [List.length_append, htake]
        omega
      have hpushed := pushed_process hrange (Nat.le_of_not_lt hfull)
        (chunk.drop (min (3 - file.length) chunk.length))
      rw [List.append_assoc, hsplit] at hpushed
      rw [releaseHead_started hrange hthree]
      exact hpushed
  · exact pushed_process hrange hlength chunk

theorem pushed_foldl (hrange : Selected lo hi lo) (chunks : List Bytes) :
    ∀ {s : LineScanner} {file : Bytes}, Pushed lo hi s file →
      Pushed lo hi (chunks.foldl LineScanner.push s) (file ++ chunks.flatten) := by
  induction chunks with
  | nil =>
    intro s file h
    rwa [List.flatten_nil, List.append_nil]
  | cons chunk chunks ih =>
    intro s file h
    have hrest := ih (h.push hrange chunk)
    rwa [List.append_assoc, ← List.flatten_cons] at hrest

/-- At the end everything is processed. -/
theorem Pushed.released (h : Pushed lo hi s file) (hrange : Selected lo hi lo) :
    (if s.head.isSome then s.releaseHead else s)
      = after lo hi (startsWithBom file) file.length file := by
  rcases h with ⟨hlength, rfl⟩ | ⟨-, rfl⟩
  · exact releaseHead_started hrange (Nat.le_of_lt hlength)
  · rfl

theorem linesOf_decode (bytes : Bytes) :
    linesOf '\n' (decode bytes) = (linesOf 10 bytes).map decode := by
  rw [linesOf, Utf8Stream.split_decode, linesOf, List.map_append]
  rfl

theorem decode_intercalate (lines : List Bytes) :
    decode ([10].intercalate lines) = ['\n'].intercalate (lines.map decode) := by
  induction lines with
  | nil => rfl
  | cons line lines ih =>
    cases lines with
    | nil => simp
    | cons second lines =>
      rw [List.intercalate_cons_cons, List.append_assoc, List.singleton_append,
        Utf8Stream.decode_newline, ih]
      simp only [List.map_cons, List.intercalate_cons_cons, List.append_assoc,
        List.singleton_append]

theorem decode_rangeOf (bytes : Bytes) :
    decode (rangeOf lo hi bytes)
      = ['\n'].intercalate (slice lo hi (linesOf '\n' (decode bytes))) := by
  rw [rangeOf, decode_intercalate, linesOf_decode, slice_map]

/-- A range that is still open at the end of the file is closed there. -/
theorem closed_measure {t : Bytes} (hcount : t.count 10 = file.count 10) :
    (if (hi.bind fun e => (newlineIndexes file)[e - 1]?).isNone
        then ((none : Option Decoder), close (measure lo hi t).1 (measure lo hi t).2)
        else measure lo hi t).2
      = decodedBytes (['\n'].intercalate (slice lo hi (linesOf '\n' (decode t)))) := by
  rw [← decode_rangeOf]
  split
  · exact close_measure lo hi t
  · next hfound =>
    have hnot : ¬ Selected lo hi (t.count 10) := by
      intro hsel
      cases hi with
      | none => exact hfound rfl
      | some e =>
        have hlt := hsel.2 e rfl
        refine hfound (Option.isNone_iff_eq_none.mpr (List.getElem?_eq_none ?_))
        rw [newlines_length]
        omega
    rw [measure, if_neg hnot]

/-- The end of a line, or of the file. -/
theorem getD_end {found : Option Nat} {c : Prop} [Decidable c] {size : Nat}
    (h : c → found = none) : (if c then some size else found).getD size = found.getD size := by
  split
  · next hc =>
    rw [h hc]
    rfl
  · rfl

/-- **The end of the file.** -/
theorem Pushed.finish (h : Pushed lo hi s file) (hrange : Selected lo hi lo) :
    s.finish = wholeFileScan lo hi file := by
  have htext : (textBytes (startsWithBom file) file).count 10 = file.count 10 :=
    (marked_bom file).count_text
  have hlines : (linesOf '\n' (decodeFile file)).length = file.count 10 + 1 := by
    rw [decodeFile, linesOf_decode, List.length_map, length_lines, htext]
  have hcount : (newlineIndexes file).length = file.count 10 := newlines_length file
  have hstarts := length_lineStarts file
  have hends : (lineEnds file).length = file.count 10 + 1 := by
    rw [lineEnds, List.length_append, hcount, List.length_singleton]
  unfold LineScanner.finish
  simp only [h.released hrange]
  rcases Nat.lt_or_ge (file.count 10) lo with hpast | hlo
  · -- the range begins behind the last line
    have hstart : (after lo hi (startsWithBom file) file.length file).start = none :=
      List.getElem?_eq_none (hstarts.trans_le hpast)
    rw [hstart]
    simp only [wholeFileScan]
    rw [slice_eq_nil (hstarts.trans_le hpast), slice_eq_nil (hends.trans_le hpast),
      slice_eq_nil (hlines.trans_le hpast)]
    rfl
  · have hstartsIn : lo < (lineStarts file).length := by omega
    have hendsIn : lo < (lineEnds file).length := by omega
    have hstart := List.getElem?_eq_getElem hstartsIn
    have hunended : hi = some ((newlineIndexes file).length + 1) →
        hi.bind (fun e => (newlineIndexes file)[e - 1]?) = none := by
      rintro rfl
      exact List.getElem?_eq_none (Nat.le_refl _)
    have hunbroken : (newlineIndexes file).length = lo → (newlineIndexes file)[lo]? = none :=
      fun heq => List.getElem?_eq_none (Nat.le_of_eq heq)
    have hopened : (after lo hi (startsWithBom file) file.length file).start
        = some (lineStarts file)[lo] := hstart
    rw [hopened]
    simp only [wholeFileScan, ite_endFirstLine, ite_endSelection]
    rw [LineScan.mk.injEq, head?_slice hrange, head?_slice hrange, getLast?_slice hstartsIn hrange,
      getLast?_slice hendsIn hrange, hstart]
    refine ⟨rfl, rfl, ?_, ?_, ?_, ?_, ?_⟩
    · rw [lineEnds, bind_snoc hrange, List.getLast?_concat, Option.getD_or, Option.getD_some]
      exact (getD_end Option.isNone_iff_eq_none.mp).trans (getD_end hunended).symm
    · rw [lineEnds, getElem?_snoc]
      exact (getD_end Option.isNone_iff_eq_none.mp).trans (getD_end hunbroken).symm
    · rw [Option.getD_or]
      refine congrArg (Option.getD _) ?_
      show (lineStarts file).getLast?.getD 0 = _
      rw [lineStarts, List.getLast?_cons]
      rfl
    · exact closed_measure htext
    · refine (@closed_measure lo (some (lo + 1)) file _ htext).trans ?_
      rw [slice_one, head?_slice hrange]
      show decodedBytes (['\n'].intercalate (linesOf '\n' (decodeFile file))[lo]?.toList) = _
      cases (linesOf '\n' (decodeFile file))[lo]? with
      | none => rfl
      | some line =>
        rw [Option.toList_some, List.intercalate_singleton]
        rfl

theorem pushed_started (lo : Nat) (hi : Option Nat) : Pushed lo hi (started lo hi) [] :=
  .inl ⟨by decide, by rw [← started_head]⟩

/-- Any way to cut a file into pieces gives the scan of the file. -/
theorem finish_foldl (hrange : Selected lo hi lo) (chunks : List Bytes) :
    (chunks.foldl push (started lo hi)).finish = wholeFileScan lo hi chunks.flatten :=
  (pushed_foldl hrange chunks (pushed_started lo hi)).finish hrange

end Run

/-! ## The port -/

namespace Port

theorem isLastLine_eq (s : LineScanner) (line : Nat) : isLastLine s line = s.isLast line := by
  rw [Bool.eq_iff_iff, isLast_iff, isLastLine]
  cases s.endLine <;> simp [eq_comm]

theorem begin_eq (s : LineScanner) (start : Nat) : begin s start = s.begin start := by
  have hport : isLastLine { s with start := some start } s.startLine = s.isLast s.startLine :=
    isLastLine_eq _ _
  cases hlast : s.isLast s.startLine with
  | false => simp only [begin, LineScanner.begin, hport, hlast, Bool.false_eq_true, if_false]
  | true => simp only [begin, LineScanner.begin, hport, hlast, if_true]

/-- The subtraction stands behind its guard. -/
theorem feed_eq (s : LineScanner) (chunk : Bytes) (base start stop : Nat) :
    feed s chunk base start stop = some (s.feed chunk base start stop) := by
  simp only [feed, LineScanner.feed, Option.bind_eq_bind, List.drop_take]
  split
  · next h =>
    rw [Bool.and_eq_true, decide_eq_true_iff] at h
    rw [checkedSub, if_pos (by omega), Option.map_some, Option.bind_some]
    split <;> rfl
  · rw [Option.pure_def, Option.bind_some]
    split <;> rfl

theorem newline_eq (chunk : Bytes) (base : Nat) (state : LineScanner × Nat) (index : Nat) :
    newline chunk base state index = some (LineScanner.newline chunk base state index) := by
  simp only [newline, LineScanner.newline, feed_eq, isLastLine_eq, begin_eq]
  rfl

theorem foldlM_newline (chunk : Bytes) (base : Nat) (indexes : List Nat)
    (state : LineScanner × Nat) :
    indexes.foldlM (newline chunk base) state
      = some (indexes.foldl (LineScanner.newline chunk base) state) := by
  induction indexes generalizing state with
  | nil => rfl
  | cons index indexes ih =>
    rw [List.foldlM_cons, newline_eq, List.foldl_cons, ← ih]
    rfl

theorem process_eq (s : LineScanner) (chunk : Bytes) : process s chunk = some (s.process chunk) := by
  simp only [process, foldlM_newline, Option.bind_eq_bind, Option.bind_some, feed_eq]
  rfl

theorem releaseHead_eq (s : LineScanner) : releaseHead s = some s.releaseHead :=
  process_eq _ _

/-- Less than three bytes are held. -/
theorem push_eq {lo : Nat} {hi : Option Nat} {s : LineScanner} {file : Bytes}
    (h : Pushed lo hi s file) (chunk : Bytes) : push s chunk = some (s.push chunk) := by
  unfold push LineScanner.push
  split
  · next head hhead =>
    have hlength : head.length < 3 := by
      rcases h with ⟨hlength, rfl⟩ | ⟨-, rfl⟩
      · cases hhead
        exact hlength
      · cases hhead
    have hsub : checkedSub 3 head.length = some (3 - head.length) := if_pos (by omega)
    simp only [hsub, Option.bind_eq_bind, Option.bind_some, releaseHead_eq, process_eq]
    split <;> rfl
  · exact process_eq s chunk

theorem finish_eq (s : LineScanner) : finish s = some s.finish := by
  simp only [finish, LineScanner.finish, Option.bind_eq_bind, releaseHead_eq, Option.bind_some]
  split
  · cases hstart : s.releaseHead.start with
    | none => rfl
    | some start => rfl
  · cases hstart : s.start with
    | none =>
      rw [Option.pure_def, Option.bind_some, hstart]
      rfl
    | some start =>
      rw [Option.pure_def, Option.bind_some, hstart]
      rfl

theorem foldlM_push {lo : Nat} {hi : Option Nat} (hrange : Selected lo hi lo)
    (chunks : List Bytes) : ∀ {s : LineScanner} {file : Bytes}, Pushed lo hi s file →
      chunks.foldlM push s = some (chunks.foldl LineScanner.push s) := by
  induction chunks with
  | nil => exact fun _ => rfl
  | cons chunk chunks ih =>
    intro s file h
    rw [List.foldlM_cons, push_eq h, List.foldl_cons, ← ih (h.push hrange chunk)]
    rfl

end Port

end LineScanner

open LineScanner

/-- **The scanners give the scan of the whole file**, however it is cut into pieces. -/
theorem scans_exact (startLine : Nat) (endLine : Option Nat) (file : Bytes) (chunks : List Bytes)
    (hfile : chunks.flatten = file) (hrange : ∀ e ∈ endLine, startLine < e) :
    Port.scan startLine endLine chunks = some (wholeFileScan startLine endLine file)
    ∧ (validRange startLine endLine = true →
      LineScanner.scan startLine endLine chunks = some (wholeFileScan startLine endLine file)) := by
  subst hfile
  have hrange : Selected startLine endLine startLine := ⟨Nat.le_refl _, hrange⟩
  have hfinish := finish_foldl hrange chunks
  constructor
  · have hnew : Port.new startLine endLine = started startLine endLine := by
      simp only [Port.new, Port.begin_eq, started]
    rw [Port.scan, hnew, Port.foldlM_push hrange chunks (pushed_started startLine endLine)]
    exact (Port.finish_eq _).trans (congrArg some hfinish)
  · intro hvalid
    rw [LineScanner.scan, new, if_pos hvalid]
    exact congrArg some hfinish

/-- A file in pieces, one of them empty. -/
theorem scans_exact_pieces :
    Port.scan 1 (some 2) [[0x61], [0x0A, 0xE2], [], [0x0A]]
        = some (wholeFileScan 1 (some 2) [0x61, 0x0A, 0xE2, 0x0A])
    ∧ LineScanner.scan 1 (some 2) [[0x61], [0x0A, 0xE2], [], [0x0A]]
        = some (wholeFileScan 1 (some 2) [0x61, 0x0A, 0xE2, 0x0A]) :=
  have hexact := scans_exact 1 (some 2) [0x61, 0x0A, 0xE2, 0x0A]
    [[0x61], [0x0A, 0xE2], [], [0x0A]] rfl (by decide)
  ⟨hexact.1, hexact.2 (by decide)⟩

end ThreeXhaust.Durable
