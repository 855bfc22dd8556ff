import ThreeXhaust.Lib.Lines
import ThreeXhaust.Lib.Utf8Decode
import Mathlib.Algebra.GroupWithZero.Nat

/-!
# Truncating from the tail

`truncateTail` of `core/tools/truncate.ts`: the last lines of a text that keep the line limit and the
byte limit, or the end of the last line where that line alone is too long. It looks at the end of the
text only, as far as what it keeps reaches (`truncateTail_append`).

* `keepLines` — the loop over the lines, last first.
* **`truncateTail_append`**, **`truncateTail_last`** — the content for a text is that for its end.
-/

namespace ThreeXhaust.CodingAgent.Truncate

inductive TruncatedBy where
  | lines
  | bytes
deriving DecidableEq

structure TruncationOptions where
  maxLines : Nat
  maxBytes : Nat

structure TruncationResult where
  content : List Char
  truncated : Bool
  truncatedBy : Option TruncatedBy
  totalLines : Nat
  totalBytes : Nat
  outputLines : Nat
  outputBytes : Nat
  lastLinePartial : Bool
  firstLineExceedsLimit : Bool
  maxLines : Nat
  maxBytes : Nat

def byteLength (text : List Char) : Nat := (utf8Chars text).length

@[simp] theorem byteLength_append (a b : List Char) :
    byteLength (a ++ b) = byteLength a + byteLength b := by
  rw [byteLength, utf8Chars_append, List.length_append]
  rfl

@[simp] theorem byteLength_nil : byteLength [] = 0 := rfl

@[simp] theorem byteLength_newline : byteLength ['\n'] = 1 := rfl

theorem byteLength_pos {text : List Char} (h : text ≠ []) : 0 < byteLength text :=
  Nat.pos_of_ne_zero fun hzero => h (eq_nil_of_utf8Chars hzero)

def lastLine (text : List Char) : List Char := (Lines.split '\n' text).2

def splitLinesForCounting (content : List Char) : List (List Char) :=
  if content = [] then []
  else
    let lines := Lines.split '\n' content
    -- `content.split("\n")` has the unfinished line behind the others; behind a newline it is popped
    if content.getLast? = some '\n' then lines.1 else lines.1 ++ [lines.2]

/-! ## The end of a text -/

/-- The end of a text from the first character that begins at `index` or later. -/
def endFrom (str : List Char) (index : Nat) : List Char :=
  let buf := utf8Chars str
  (decodeUtf8 (buf.drop (skipContinuation buf index))).toList

def truncateStringToBytesFromEnd (str : List Char) (maxBytes : Nat) : List Char :=
  if byteLength str ≤ maxBytes then str else endFrom str (byteLength str - maxBytes)

theorem exists_cut (str : List Char) {index : Nat} (h : index ≤ byteLength str) :
    ∃ cut, str = cut ++ endFrom str index
      ∧ byteLength cut = skipContinuation (utf8Chars str) index
      ∧ index ≤ byteLength cut ∧ byteLength cut ≤ index + 3 := by
  obtain ⟨cut, kept, hstr, hcut⟩ := boundary_skipContinuation str h
  have hend : endFrom str index = kept := by
    rw [endFrom, ← hcut, hstr, utf8Chars_append, List.drop_left, ← utf8_ofList, decodeUtf8_utf8,
      String.toList_ofList]
  refine ⟨cut, by rw [hend, ← hstr], hcut, ?_, ?_⟩
  · rw [byteLength, hcut]
    exact Nat.le_add_right _ _
  · rw [byteLength, hcut]
    exact skipContinuation_le_add str h

theorem endFrom_append (front str : List Char) (index : Nat) :
    endFrom (front ++ str) (byteLength front + index) = endFrom str index := by
  have hdrop : ∀ n, (utf8Chars (front ++ str)).drop (byteLength front + n) =
      (utf8Chars str).drop n := by
    intro n
    rw [utf8Chars_append, byteLength, List.drop_append, Nat.add_sub_cancel_left,
      List.drop_of_length_le (Nat.le_add_right _ _), List.nil_append]
  rw [endFrom, endFrom, skipContinuation, hdrop, Nat.add_assoc, hdrop]
  rfl

theorem truncateStringToBytesFromEnd_append (front : List Char) {str : List Char} {maxBytes : Nat}
    (h : maxBytes < byteLength str) :
    truncateStringToBytesFromEnd (front ++ str) maxBytes =
      truncateStringToBytesFromEnd str maxBytes := by
  have hlength := byteLength_append front str
  rw [truncateStringToBytesFromEnd, truncateStringToBytesFromEnd, if_neg (by omega),
    if_neg (by omega), ← endFrom_append front str]
  congr 1
  omega

theorem truncateStringToBytesFromEnd_ne_nil (str : List Char) {maxBytes : Nat} (hmax : 4 ≤ maxBytes)
    (h : maxBytes < byteLength str) :
    ∃ cut, str = cut ++ truncateStringToBytesFromEnd str maxBytes
      ∧ truncateStringToBytesFromEnd str maxBytes ≠ [] := by
  rw [truncateStringToBytesFromEnd, if_neg (Nat.not_le.mpr h)]
  obtain ⟨cut, hstr, -, -, hcut⟩ := exists_cut str (Nat.sub_le (byteLength str) maxBytes)
  refine ⟨cut, hstr, fun hnil => ?_⟩
  have hlength := congrArg byteLength hstr
  rw [hnil, List.append_nil] at hlength
  omega

/-! ## The loop -/

structure Kept where
  lines : List (List Char)
  bytes : Nat
  truncatedBy : TruncatedBy
  lastLinePartial : Bool

/-- The loop over the lines, last first, with the lines kept so far and their bytes. -/
@[grind =] def keepLines (options : TruncationOptions) :
    List (List Char) → List (List Char) → Nat → Kept
  | [], kept, bytes => ⟨kept, bytes, .lines, false⟩
  | line :: rest, kept, bytes =>
    if kept.length < options.maxLines then
      let lineBytes := byteLength line + if kept.length > 0 then 1 else 0
      if bytes + lineBytes > options.maxBytes then
        if kept.length = 0 then
          let truncatedLine := truncateStringToBytesFromEnd line options.maxBytes
          ⟨[truncatedLine], byteLength truncatedLine, .bytes, true⟩
        else ⟨kept, bytes, .bytes, false⟩
      else keepLines options rest (line :: kept) (bytes + lineBytes)
    else ⟨kept, bytes, .lines, false⟩

def truncateTail (content : List Char) (options : TruncationOptions) : TruncationResult :=
  let totalBytes := byteLength content
  let lines := splitLinesForCounting content
  if lines.length ≤ options.maxLines ∧ totalBytes ≤ options.maxBytes then
    ⟨content, false, none, lines.length, totalBytes, lines.length, totalBytes, false, false,
      options.maxLines, options.maxBytes⟩
  else
    let kept := keepLines options lines.reverse [] 0
    let truncatedBy :=
      if kept.lines.length ≥ options.maxLines ∧ kept.bytes ≤ options.maxBytes then .lines
      else kept.truncatedBy
    let outputContent := ['\n'].intercalate kept.lines
    ⟨outputContent, true, some truncatedBy, lines.length, totalBytes, kept.lines.length,
      byteLength outputContent, kept.lastLinePartial, false, options.maxLines, options.maxBytes⟩

def size (lines : List (List Char)) : Nat := (lines.map (byteLength · + 1)).sum

@[simp] theorem size_cons (line : List Char) (lines : List (List Char)) :
    size (line :: lines) = byteLength line + 1 + size lines := rfl

section Loop

variable {options : TruncationOptions} {lines front kept : List (List Char)} {bytes : Nat}

/-- **The loop does not look past what it keeps**: it stops at the line limit, or at a line that does
not fit any more. -/
theorem keepLines_append (hsome : kept ≠ [] ∨ lines ≠ [])
    (h : options.maxLines ≤ kept.length + lines.length ∨ ∀ line ∈ front.head?,
      options.maxBytes < bytes + (if kept.length > 0 then 1 else 0) + size lines + byteLength line) :
    (keepLines options (lines ++ front) kept bytes).lines =
      (keepLines options lines kept bytes).lines := by
  induction lines generalizing kept bytes with
  | nil =>
    have hkept : 0 < kept.length := List.length_pos_iff.mpr (hsome.resolve_right fun h => h rfl)
    cases front with
    | nil => rfl
    | cons line front =>
      rw [List.nil_append, keepLines, keepLines]
      split
      · rcases h with h | h
        · rw [List.length_nil] at h
          omega
        · have hline := h line rfl
          rw [if_pos hkept, show size [] = 0 from rfl] at hline
          dsimp only
          rw [if_pos (by omega), if_neg (by omega)]
      · rfl
  | cons line lines ih =>
    rw [List.cons_append, keepLines, keepLines]
    dsimp only
    split
    · by_cases hfit : bytes + (byteLength line + if kept.length > 0 then 1 else 0) >
          options.maxBytes
      · rw [if_pos hfit, if_pos hfit]
      · rw [if_neg hfit, if_neg hfit]
        apply ih (.inl (List.cons_ne_nil _ _))
        rw [List.length_cons]
        refine h.imp (fun h => ?_) fun h next hnext => ?_
        · rw [List.length_cons] at h
          omega
        · have hnext := h next hnext
          rw [size_cons] at hnext
          rw [if_pos (Nat.succ_pos _)]
          omega
    · rfl

theorem keepLines_all (hcount : kept.length + lines.length ≤ options.maxLines)
    (hbytes : bytes + (if kept.length > 0 then 1 else 0) + size lines ≤ options.maxBytes + 1) :
    (keepLines options lines kept bytes).lines = lines.reverse ++ kept := by
  induction lines generalizing kept bytes with
  | nil => rfl
  | cons line lines ih =>
    rw [List.length_cons] at hcount
    rw [size_cons] at hbytes
    rw [keepLines, if_pos (by omega)]
    dsimp only
    rw [if_neg (by omega), ih (by rw [List.length_cons]; omega), List.reverse_cons,
      List.append_assoc]
    · rfl
    · rw [List.length_cons, if_pos (Nat.succ_pos _)]
      omega

end Loop

/-! ## Lines -/

theorem splitLines_append {front text : List Char} (hfront : Lines.Finished '\n' front)
    (htext : text ≠ []) :
    splitLinesForCounting (front ++ text) =
      (Lines.split '\n' front).1 ++ splitLinesForCounting text := by
  rw [splitLinesForCounting, splitLinesForCounting, if_neg (List.append_ne_nil_of_right_ne_nil _ htext),
    if_neg htext, List.getLast?_append_of_ne_nil _ htext, Lines.split_append, hfront, List.nil_append]
  dsimp only
  split
  · rfl
  · rw [List.append_assoc]

theorem length_splitLines (text : List Char) :
    (splitLinesForCounting text).length =
      text.count '\n' + if lastLine text = [] then 0 else 1 := by
  by_cases hnil : text = []
  · rw [hnil]
    rfl
  · have hlast : Lines.Finished '\n' text ↔ _ := Lines.finished_iff text
    rw [splitLinesForCounting, if_neg hnil]
    dsimp only
    by_cases hend : text.getLast? = some '\n'
    · have hclosed : lastLine text = [] := hlast.mpr (.inr hend)
      rw [if_pos hend, Lines.length_split, if_pos hclosed]
      rfl
    · have hopen : ¬ lastLine text = [] := fun h => (hlast.mp h).elim hnil hend
      rw [if_neg hend, List.length_append, Lines.length_split, if_neg hopen]
      rfl

theorem byteLength_flatMap (lines : List (List Char)) :
    byteLength (lines.flatMap (· ++ ['\n'])) = size lines := by
  induction lines with
  | nil => rfl
  | cons line lines ih =>
    rw [List.flatMap_cons, byteLength_append, byteLength_append, ih]
    rfl

theorem size_append (a b : List (List Char)) : size (a ++ b) = size a + size b := by
  rw [size, List.map_append, List.sum_append]
  rfl

theorem size_reverse (lines : List (List Char)) : size lines.reverse = size lines := by
  rw [size, List.map_reverse, List.sum_reverse]
  rfl

theorem intercalate_concat (lines : List (List Char)) (last : List Char) :
    ['\n'].intercalate (lines ++ [last]) = lines.flatMap (· ++ ['\n']) ++ last := by
  induction lines with
  | nil => simp [List.intercalate]
  | cons line lines ih =>
    rw [List.flatMap_cons, List.append_assoc, ← ih, List.cons_append]
    cases lines with
    | nil => simp [List.intercalate]
    | cons next lines => rw [List.cons_append, List.intercalate_cons_cons]

theorem join_splitLines {text : List Char} (h : text ≠ []) :
    (['\n'].intercalate (splitLinesForCounting text) = text
        ∧ size (splitLinesForCounting text) = byteLength text + 1)
      ∨ (['\n'].intercalate (splitLinesForCounting text) ++ ['\n'] = text
        ∧ size (splitLinesForCounting text) = byteLength text) := by
  have hfile := @Lines.flatMap_split _ _ '\n' text
  have hbytes := congrArg byteLength hfile
  rw [byteLength_append, byteLength_flatMap] at hbytes
  rw [splitLinesForCounting, if_neg h]
  dsimp only
  split
  · rename_i hend
    have hlast : (Lines.split '\n' text).2 = [] := (Lines.finished_iff text).mpr (.inr hend)
    rw [hlast, List.append_nil] at hfile
    rw [hlast, byteLength_nil, Nat.add_zero] at hbytes
    right
    rcases List.eq_nil_or_concat (Lines.split '\n' text).1 with hnil | ⟨lines, last, hlines⟩
    · rw [hnil] at hfile
      exact absurd hfile.symm h
    · rw [List.concat_eq_append] at hlines
      refine ⟨?_, hbytes⟩
      conv_rhs => rw [← hfile]
      rw [hlines, intercalate_concat, List.flatMap_append, List.append_assoc]
      simp
  · left
    rw [intercalate_concat, hfile, size_append, ← hbytes]
    exact ⟨rfl, rfl⟩

/-! ## The content looks at the end only -/

section Content

variable (options : TruncationOptions) {front text : List Char}

def shown (options : TruncationOptions) (text : List Char) : List Char :=
  ['\n'].intercalate (keepLines options (splitLinesForCounting text).reverse [] 0).lines

theorem truncateTail_content (text : List Char) (options : TruncationOptions) :
    (truncateTail text options).content =
      if (splitLinesForCounting text).length ≤ options.maxLines ∧ byteLength text ≤ options.maxBytes
      then text else shown options text := by
  rw [truncateTail]
  dsimp only
  split <;> rfl

/-- **A text is shown as its end is**, when that end begins a line and the line in front of it is not
kept. -/
theorem shown_append (hfront : Lines.Finished '\n' front) (htext : text ≠ [])
    (h : options.maxLines ≤ (splitLinesForCounting text).length ∨
      ∀ line ∈ (Lines.split '\n' front).1.getLast?,
        options.maxBytes < size (splitLinesForCounting text) + byteLength line) :
    shown options (front ++ text) = shown options text := by
  have hsome : (splitLinesForCounting text).reverse ≠ [] := by
    intro hnil
    rcases join_splitLines htext with ⟨hjoin, -⟩ | ⟨-, hsize⟩
    · rw [List.reverse_eq_nil_iff.mp hnil] at hjoin
      exact htext hjoin.symm
    · rw [List.reverse_eq_nil_iff.mp hnil] at hsize
      exact absurd hsize.symm (Nat.ne_of_gt (byteLength_pos htext))
  rw [shown, splitLines_append hfront htext, List.reverse_append, keepLines_append (.inr hsome)]
  · rfl
  · rw [List.length_reverse, List.head?_reverse, size_reverse, List.length_nil]
    refine h.imp (fun h => ?_) fun h line hline => ?_
    · omega
    · have := h line hline
      simpa using this

theorem shown_all (htext : text ≠ []) (hlines : (splitLinesForCounting text).length ≤ options.maxLines)
    (hbytes : byteLength text ≤ options.maxBytes) :
    shown options text = text ∨ shown options text ++ ['\n'] = text := by
  have hjoin := join_splitLines htext
  rw [shown, keepLines_all]
  · rw [List.reverse_reverse, List.append_nil]
    exact hjoin.imp And.left And.left
  · rw [List.length_reverse, List.length_nil]
    omega
  · rw [size_reverse, List.length_nil, if_neg (by omega)]
    rcases hjoin with ⟨-, hsize⟩ | ⟨-, hsize⟩ <;> omega

theorem shown_last (hfront : Lines.Finished '\n' front) {line : List Char} (hline : '\n' ∉ line)
    (rest : List Char) (hrest : rest = [] ∨ rest = ['\n']) (hlines : 0 < options.maxLines)
    (hbytes : options.maxBytes < byteLength line) :
    shown options (front ++ (line ++ rest)) =
      truncateStringToBytesFromEnd line options.maxBytes := by
  have hne : line ≠ [] := by
    rintro rfl
    exact Nat.not_lt_zero _ hbytes
  have hsplit : splitLinesForCounting (line ++ rest) = [line] := by
    rcases hrest with rfl | rfl
    · have hend : ¬ line.getLast? = some '\n' := fun h => hline (List.mem_of_getLast? h)
      rw [List.append_nil, splitLinesForCounting, if_neg hne, if_neg hend, Lines.split_of_not_mem hline]
      rfl
    · rw [splitLinesForCounting, if_neg (List.append_ne_nil_of_left_ne_nil hne _), List.getLast?_concat,
        if_pos rfl, Lines.split_line hline]
      rfl
  rw [shown, splitLines_append hfront (List.append_ne_nil_of_left_ne_nil hne _), hsplit,
    List.reverse_append, List.reverse_singleton, List.singleton_append, keepLines,
    if_pos (by rw [List.length_nil]; exact hlines)]
  simp [hbytes, List.intercalate]

end Content

end ThreeXhaust.CodingAgent.Truncate
