import ThreeXhaust.Chord.Output

/-!
# The tail window

The tail window of a text looks only at its end: text in front of more than a window does not move
it (`tailRange_append`). So a buffer that has dropped, or was never given, text in front of more
than a window still shows what the whole text would show.

* `Proves` — a text holds more than a window, by a byte or a line.
* `shows` — what a whole text shows under tail limits.
-/

namespace ThreeXhaust.Chord.Output

/-! ## The search for the first line -/

def searchEnd (bytes : Bytes) : Nat := bytes.length - if bytes.getLast? = some 10 then 1 else 0

theorem lastIndexOf_before (bytes : Bytes) (i : Nat) :
    (if i = 0 then none else lastIndexOf bytes (i - 1)) = (below bytes i).head? := by
  split
  · rename_i hzero
    rw [hzero, below_zero]
    rfl
  · rename_i hpos
    rw [lastIndexOf, Nat.sub_add_cancel (Nat.pos_of_ne_zero hpos)]

/-- The search steps over one newline after the other. -/
theorem lineStart_below (bytes : Bytes) (maxLines fuel n k : Nat)
    (hfuel : (below bytes n).length ≤ fuel) (hk : k ≤ maxLines) :
    lineStart bytes maxLines fuel (below bytes n).head? k =
      ((below bytes n)[maxLines - k]?).elim 0 (· + 1) := by
  induction fuel generalizing n k with
  | zero =>
    rw [List.eq_nil_of_length_eq_zero (Nat.le_zero.mp hfuel)]
    rfl
  | succ fuel ih =>
    cases h : below bytes n with
    | nil => rfl
    | cons i rest =>
      have hrest := below_cons h
      rw [h, List.length_cons, hrest] at hfuel
      rw [List.head?_cons, lineStart]
      split
      · rename_i heq
        rw [heq, Nat.sub_self]
        rfl
      · rename_i hne
        obtain ⟨j, hj⟩ : ∃ j, maxLines - k = j + 1 := ⟨maxLines - k - 1, by omega⟩
        rw [lastIndexOf_before, ih i (k + 1) (by omega) (by omega), hrest, hj, List.getElem?_cons_succ]
        congr 2
        omega

variable {maxLines : Nat}

/-- **Where the last lines begin.** -/
theorem tailLines_eq (bytes : Bytes) (h : 0 < maxLines) :
    tailLines bytes maxLines =
      ((below bytes (searchEnd bytes))[maxLines - 1]?).elim 0 (· + 1) := by
  rw [← lineStart_below bytes maxLines bytes.length (searchEnd bytes) 1 (below_length_le _ _) h,
    tailLines, searchEnd]
  congr 1
  split
  · split
    · rename_i hneg
      rw [show bytes.length - 1 = 0 by omega, below_zero]
      rfl
    · rename_i hpos
      rw [lastIndexOf]
      congr 2
      omega
  · split
    · rename_i hneg
      rw [show bytes.length - 0 = 0 by omega, below_zero]
      rfl
    · rename_i hpos
      rw [lastIndexOf]
      congr 2
      omega

section Append

variable {front rest : Bytes}

theorem searchEnd_append (h : rest ≠ []) :
    searchEnd (front ++ rest) = front.length + searchEnd rest := by
  have hpos := List.length_pos_iff.mpr h
  rw [searchEnd, searchEnd, List.getLast?_append_of_ne_nil _ h, List.length_append]
  split <;> omega

theorem lt_below_searchEnd (h : maxLines < rest.count 10) :
    maxLines ≤ (below rest (searchEnd rest)).length := by
  have hall : (below rest rest.length).length = rest.count 10 := by
    rw [below_all, List.length_reverse, newlines_length]
  rw [searchEnd]
  split
  · have hpos : 0 < rest.length := Nat.lt_of_lt_of_le (Nat.zero_lt_of_lt h) List.count_le_length
    have hsucc := below_length_succ rest (rest.length - 1)
    rw [Nat.sub_add_cancel hpos] at hsucc
    omega
  · rw [Nat.sub_zero]
    omega

/-- Text in front of enough lines does not move that. -/
theorem tailLines_append (front : Bytes) (hmax : 0 < maxLines) (h : rest ≠ []) :
    tailLines (front ++ rest) maxLines = front.length + tailLines rest maxLines ∧
        maxLines ≤ (below rest (searchEnd rest)).length ∨
      tailLines (front ++ rest) maxLines ≤ front.length ∧ tailLines rest maxLines = 0 ∧
        rest.count 10 ≤ maxLines := by
  rw [tailLines_eq _ hmax, tailLines_eq _ hmax, searchEnd_append h, below_append]
  rcases Nat.lt_or_ge (maxLines - 1) (below rest (searchEnd rest)).length with hin | hout
  · left
    rw [List.getElem?_append_left (by rwa [List.length_map]), List.getElem?_map,
      List.getElem?_eq_getElem hin]
    exact ⟨Nat.add_assoc _ _ _, by omega⟩
  · right
    rw [List.getElem?_append_right (by rwa [List.length_map]), List.getElem?_eq_none hout]
    refine ⟨?_, rfl, ?_⟩
    · cases hat : (newlines front).reverse[maxLines - 1 -
          ((below rest (searchEnd rest)).map (front.length + ·)).length]? with
      | none => exact Nat.zero_le _
      | some i =>
        have hmem := List.mem_reverse.mp (List.mem_of_getElem? hat)
        exact lt_of_mem_newlines hmem
    · by_contra hmany
      have hle := lt_below_searchEnd (Nat.lt_of_not_le hmany)
      omega

theorem indexOf_append (start : Nat) :
    indexOf (front ++ rest) (front.length + start) =
      (indexOf rest start).map (front.length + ·) := by
  rw [indexOf, newlines_append, List.find?_append, List.find?_eq_none.mpr]
  · rw [Option.none_or, List.find?_map, indexOf]
    congr 2
    funext i
    simp
  · intro i hi
    have hlt := lt_of_mem_newlines hi
    rw [decide_eq_true_iff]
    omega

/-- Nor does it move where the last bytes begin. -/
theorem byteStart_append {maxBytes : Nat} (h : maxBytes < rest.length) :
    byteStart (front ++ rest) maxBytes = front.length + byteStart rest maxBytes := by
  have hstart : (front ++ rest).length - maxBytes = front.length + (rest.length - maxBytes) := by
    rw [List.length_append]
    omega
  have hcharacter : characterStart (front ++ rest) (front.length + (rest.length - maxBytes)) =
      front.length + characterStart rest (rest.length - maxBytes) := by
    rw [characterStart, characterStart, List.drop_append, Nat.add_sub_cancel_left,
      List.drop_of_length_le (Nat.le_add_right _ _), List.nil_append, Nat.add_assoc]
  simp only [byteStart]
  rw [hstart, Nat.add_sub_assoc (by omega), indexOf_append]
  cases indexOf rest (rest.length - maxBytes - 1) with
  | none => exact hcharacter
  | some newline =>
    rw [Option.map_some, List.length_append]
    simp only
    by_cases hlt : newline + 1 < rest.length
    · rw [if_pos (by omega), if_pos hlt, Nat.add_assoc]
    · rw [if_neg (by omega), if_neg hlt, hcharacter]

def Proves (limits : OutputLimits) (text : List Char) : Prop :=
  limits.maxBytes < (utf8Chars text).length ∨ limits.maxLines < text.count '\n'

end Append

theorem Proves.append_left {limits : OutputLimits} {text : List Char} (h : Proves limits text)
    (front : List Char) : Proves limits (front ++ text) := by
  rw [Proves, utf8Chars_append, List.length_append, List.count_append]
  rcases h with h | h
  · left
    omega
  · right
    omega

theorem Proves.append_right {limits : OutputLimits} {text : List Char} (h : Proves limits text)
    (more : List Char) : Proves limits (text ++ more) := by
  rw [Proves, utf8Chars_append, List.length_append, List.count_append]
  rcases h with h | h
  · left
    omega
  · right
    omega

theorem Proves.ne_nil {limits : OutputLimits} {text : List Char} (h : Proves limits text) :
    text ≠ [] := by
  rintro rfl
  rcases h with h | h
  · exact Nat.not_lt_zero _ h
  · exact Nat.not_lt_zero _ h

/-- **The window looks at the end only**: text in front of more than a window does not move it. -/
theorem tailRange_append {limits : OutputLimits} {text : List Char} (h : Proves limits text)
    (front : Bytes) :
    (tailRange (front ++ utf8Chars text) limits).1 =
      front.length + (tailRange (utf8Chars text) limits).1 := by
  have hne : utf8Chars text ≠ [] := fun hnil =>
    h.ne_nil (eq_nil_of_utf8Chars (congrArg List.length hnil))
  have hlength : (front ++ utf8Chars text).length = front.length + (utf8Chars text).length :=
    List.length_append
  rw [tailRange, tailRange]
  by_cases hzero : limits.maxLines = 0 ∨ limits.maxBytes = 0
  · rw [if_pos hzero, if_pos hzero]
    exact hlength
  · rw [if_neg hzero, if_neg hzero]
    have hmax : 0 < limits.maxLines := Nat.pos_of_ne_zero fun h => hzero (Or.inl h)
    simp only
    obtain ⟨hlines, -⟩ | ⟨hlines, hnone, hfew⟩ := tailLines_append front hmax hne
    · -- the first line of the window is found behind the front text
      rw [hlines]
      by_cases hlong : (utf8Chars text).length - tailLines (utf8Chars text) limits.maxLines >
          limits.maxBytes
      · rw [if_pos (by omega), if_pos hlong]
        exact byteStart_append (by omega)
      · rw [if_neg (by omega), if_neg hlong]
    · -- too few lines behind it: then it holds too many bytes, and the byte limit decides
      have hbytes : limits.maxBytes < (utf8Chars text).length := by
        rcases h with h | h
        · exact h
        · rw [count_newline] at hfew
          omega
      rw [if_pos (by omega), if_pos (by omega)]
      exact byteStart_append hbytes

/-! ## Where a window may start -/

theorem boundary_lineStart (text : List Char) (h : 0 < maxLines) :
    Boundary text (tailLines (utf8Chars text) maxLines) := by
  rw [tailLines_eq _ h]
  cases hat : (below (utf8Chars text) (searchEnd (utf8Chars text)))[maxLines - 1]? with
  | none => exact boundary_zero text
  | some i => exact (boundary_newline (mem_below.mp (List.mem_of_getElem? hat)).1).2

theorem boundary_characterStart (text : List Char) {start : Nat}
    (h : start ≤ (utf8Chars text).length) :
    Boundary text (characterStart (utf8Chars text) start) := boundary_skipContinuation text h

theorem boundary_byteStart (text : List Char) (maxBytes : Nat) :
    Boundary text (byteStart (utf8Chars text) maxBytes) := by
  have hstart := boundary_characterStart text (Nat.sub_le (utf8Chars text).length maxBytes)
  simp only [byteStart]
  split
  · rename_i newline hnewline
    split
    · have hmem := List.mem_of_find?_eq_some hnewline
      exact (boundary_newline (mem_newlines.mp hmem)).2
    · exact hstart
  · exact hstart

theorem characterEnd_le (bytes : Bytes) (n : Nat) : characterEnd bytes n ≤ n := by
  induction n with
  | zero => exact Nat.le_refl 0
  | succ n ih =>
    rw [characterEnd]
    split
    · exact Nat.le_succ_of_le ih
    · exact Nat.le_refl _

theorem boundary_characterEnd (text : List Char) {n : Nat} (h : n ≤ (utf8Chars text).length) :
    Boundary text (characterEnd (utf8Chars text) n) := by
  induction n with
  | zero => exact boundary_zero text
  | succ n ih =>
    rw [characterEnd]
    split
    · exact ih (Nat.le_of_succ_le h)
    · rename_i hnot
      apply boundary_of_not_continuation h
      intro b hb
      rw [List.getD_eq_getElem?_getD, hb] at hnot
      simpa using hnot

theorem boundary_tailRange (text : List Char) (limits : OutputLimits) :
    Boundary text (tailRange (utf8Chars text) limits).1 := by
  rw [tailRange]
  split
  · exact boundary_end text
  · rename_i hnonzero
    simp only
    split
    · exact boundary_byteStart text limits.maxBytes
    · exact boundary_lineStart text (Nat.pos_of_ne_zero fun h => hnonzero (Or.inl h))

theorem tailRange_snd (bytes : Bytes) (limits : OutputLimits) :
    (tailRange bytes limits).2 = bytes.length := by
  rw [tailRange]
  split
  · rfl
  · simp only
    split
    · rfl
    · rfl

/-! ## The window of a text -/

/-- The tail window of a text, in front of which `front` is left out. -/
def IsWindow (limits : OutputLimits) (text front kept : List Char) : Prop :=
  text = front ++ kept ∧ (utf8Chars front).length = (tailRange (utf8Chars text) limits).1

theorem exists_window (limits : OutputLimits) (text : List Char) :
    ∃ front kept, IsWindow limits text front kept := by
  obtain ⟨front, kept, htext, hfront⟩ := boundary_tailRange text limits
  exact ⟨front, kept, htext, hfront⟩

theorem slice_append (a b : List Char) :
    slice (a ++ b) (utf8Chars a).length (utf8Chars (a ++ b)).length = some b := by
  have hall := splitAtByte_append (a ++ b) []
  rw [List.append_nil] at hall
  rw [slice, hall, Option.bind_some]
  simp only [splitAtByte_append, Option.map_some]

variable {front : List Char}

theorem IsWindow.unique {limits : OutputLimits} {text kept front' kept' : List Char}
    (h : IsWindow limits text front kept) (h' : IsWindow limits text front' kept') :
    kept = kept' := by
  have hsplit := splitAtByte_append front kept
  have hsplit' := splitAtByte_append front' kept'
  rw [← h.1, h.2] at hsplit
  rw [← h'.1, h'.2, hsplit] at hsplit'
  exact congrArg Prod.snd (Option.some.inj hsplit')

/-- **The window survives dropping**: what is kept of a text that holds more than a window is kept
of it behind any other text. -/
theorem IsWindow.append {limits : OutputLimits} {text kept : List Char}
    (h : IsWindow limits text front kept) (hproves : Proves limits text) (before : List Char) :
    IsWindow limits (before ++ text) (before ++ front) kept := by
  constructor
  · rw [List.append_assoc, ← h.1]
  · rw [utf8Chars_append, utf8Chars_append, tailRange_append hproves, List.length_append, h.2]

/-- The window is what is shown. -/
theorem boundOutput_tail {limits : OutputLimits} (htail : limits.retain = .tail)
    {text kept : List Char} (h : IsWindow limits text front kept) :
    boundOutput text limits = some {
      text := kept
      bytes := (utf8Chars kept).length
      droppedBytes := (utf8Chars text).length - (utf8Chars kept).length
      droppedLines := lineCount (utf8Chars text) - lineCount (utf8Chars kept) } := by
  have hbytes : ((utf8Chars text).take (tailRange (utf8Chars text) limits).2).drop
      (tailRange (utf8Chars text) limits).1 = utf8Chars kept := by
    rw [tailRange_snd, List.take_length, ← h.2, h.1, utf8Chars_append, List.drop_left]
  have hslice : slice text (tailRange (utf8Chars text) limits).1
      (tailRange (utf8Chars text) limits).2 = some kept := by
    rw [tailRange_snd, ← h.2, h.1]
    exact slice_append front kept
  have hshown : (if (utf8Chars kept).length = (utf8Chars text).length then some text
      else some kept) = some kept := by
    split
    · rename_i hall
      have hlength := congrArg (fun cs => (utf8Chars cs).length) h.1
      simp only [utf8Chars_append, List.length_append] at hlength
      rw [h.1, eq_nil_of_utf8Chars (show (utf8Chars front).length = 0 by omega)]
      rfl
    · rfl
  simp only [boundOutput, htail]
  rw [hbytes, hslice, hshown]
  rfl

/-! ## The margin a snapshot keeps -/

/-- The margin is found the same way. -/
theorem marginLine_below (bytes : Bytes) (maxLines fuel n k : Nat)
    (hfuel : (below bytes n).length ≤ fuel) (hk : k ≤ maxLines) :
    marginLine bytes maxLines fuel (below bytes n).head? k =
      ((below bytes n)[maxLines - k]?).getD 0 := by
  induction fuel generalizing n k with
  | zero =>
    rw [List.eq_nil_of_length_eq_zero (Nat.le_zero.mp hfuel)]
    rfl
  | succ fuel ih =>
    cases h : below bytes n with
    | nil => rfl
    | cons i rest =>
      have hrest := below_cons h
      rw [h, List.length_cons, hrest] at hfuel
      rw [List.head?_cons, marginLine]
      split
      · rename_i hmore
        rw [show maxLines - k = 0 by omega]
        rfl
      · rename_i hfew
        obtain ⟨j, hj⟩ : ∃ j, maxLines - k = j + 1 := ⟨maxLines - k - 1, by omega⟩
        rw [lastIndexOf_before, ih i (k + 1) (by omega) (by omega), hrest, hj, List.getElem?_cons_succ]
        congr 2
        omega

theorem marginLine_eq (bytes : Bytes) (maxLines : Nat) :
    marginLine bytes maxLines bytes.length
      (if bytes.length = 0 then none else lastIndexOf bytes (bytes.length - 1)) 0 =
        ((newlines bytes).reverse[maxLines]?).getD 0 := by
  have h := marginLine_below bytes maxLines bytes.length bytes.length 0 (below_length_le _ _)
    (Nat.zero_le _)
  rw [below_all, Nat.sub_zero] at h
  rw [lastIndexOf_before, below_all, h]

theorem lt_count_of_reverse (front : Bytes) {rest : Bytes}
    (h : (newlines (front ++ rest)).reverse[maxLines]? = some front.length) :
    maxLines < rest.count 10 := by
  have hlt := (List.getElem?_eq_some_iff.mp h).1
  rw [List.length_reverse] at hlt
  rw [List.getElem?_reverse hlt] at h
  have hle := le_count_of_newlines h
  omega

/-- **The margin** is all of the text or holds more than a window. -/
theorem tailMargin_eq (limits : OutputLimits) (text : List Char) :
    ∃ gone margin, text = gone ++ margin ∧ tailMargin text limits = some margin ∧
      (gone = [] ∨ Proves limits margin) := by
  rw [tailMargin, marginLine_eq]
  generalize hbyte : (if (utf8Chars text).length > limits.maxBytes
    then characterEnd (utf8Chars text) ((utf8Chars text).length - limits.maxBytes - 1)
    else 0) = byteStart
  generalize hline : ((newlines (utf8Chars text)).reverse[limits.maxLines]?).getD 0 = lineStart
  by_cases hzero : max byteStart lineStart = 0
  · rw [if_pos hzero]
    exact ⟨[], text, rfl, rfl, Or.inl rfl⟩
  · rw [if_neg hzero]
    rcases Nat.le_total lineStart byteStart with hmax | hmax
    · -- cut by bytes
      rw [Nat.max_eq_left hmax] at hzero ⊢
      have hlong : (utf8Chars text).length > limits.maxBytes := by
        by_contra hshort
        rw [if_neg hshort] at hbyte
        exact hzero hbyte.symm
      rw [if_pos hlong] at hbyte
      have hle := characterEnd_le (utf8Chars text) ((utf8Chars text).length - limits.maxBytes - 1)
      obtain ⟨gone, margin, htext, hgone⟩ := boundary_characterEnd text
        (n := (utf8Chars text).length - limits.maxBytes - 1) (by omega)
      rw [hbyte] at hgone hle
      refine ⟨gone, margin, htext, ?_, Or.inr (Or.inl ?_)⟩
      · rw [htext, ← hgone]
        exact slice_append gone margin
      · have hlength := congrArg (fun cs => (utf8Chars cs).length) htext
        simp only [utf8Chars_append, List.length_append] at hlength
        omega
    · -- cut by lines
      rw [Nat.max_eq_right hmax] at hzero ⊢
      cases hat : (newlines (utf8Chars text)).reverse[limits.maxLines]? with
      | none =>
        rw [hat] at hline
        exact absurd hline.symm hzero
      | some i =>
        rw [hat] at hline
        obtain rfl : i = lineStart := hline
        have hmem := List.mem_reverse.mp (List.mem_of_getElem? hat)
        obtain ⟨gone, margin, htext, hgone⟩ := (boundary_newline (mem_newlines.mp hmem)).1
        refine ⟨gone, margin, htext, ?_, Or.inr (Or.inr ?_)⟩
        · rw [htext, ← hgone]
          exact slice_append gone margin
        · rw [← count_newline]
          apply lt_count_of_reverse (utf8Chars gone)
          rw [← utf8Chars_append, ← htext, hgone]
          exact hat

/-! ## A buffer stands for a whole text -/

def IsShown (limits : OutputLimits) (total : List Char) (out : BoundedOutput) : Prop :=
  ∃ front kept, IsWindow limits total front kept ∧ out = {
    text := sanitizeOutput kept
    droppedBytes := (utf8Chars total).length - (utf8Chars kept).length
    droppedLines := lineCount (utf8Chars total) - lineCount (utf8Chars kept) }

theorem IsShown.unique {limits : OutputLimits} {total : List Char} {out out' : BoundedOutput}
    (h : IsShown limits total out) (h' : IsShown limits total out') : out = out' := by
  obtain ⟨front, kept, hwindow, rfl⟩ := h
  obtain ⟨front', kept', hwindow', rfl⟩ := h'
  rw [hwindow.unique hwindow']

def texts (chunks : List Chunk) : List Char := (chunks.map Chunk.text).flatten

/-- A buffer with tail limits stands for `total`: its counts are exact, and what it does not store
stands in front of more than a window. -/
structure Holds (limits : OutputLimits) (total : List Char) (b : OutputBuffer) : Prop where
  limits_eq : b.limits = limits
  suffix : ∃ gone, total = gone ++ texts b.chunks ∧ (gone = [] ∨ Proves limits (texts b.chunks))
  counted : ∀ c ∈ b.chunks, c = Chunk.of c.text
  storedBytes : b.storedBytes = (utf8Chars (texts b.chunks)).length
  storedNewlines : b.storedNewlines = (texts b.chunks).count '\n'
  full : b.full = false
  totalBytes : b.totalBytes = (utf8Chars total).length
  totalNewlines : b.totalNewlines = total.count '\n'
  endsWithNewline : b.endsWithNewline = (total = [] || endsWithNewline total)

theorem Holds.new (limits : OutputLimits) : Holds limits [] (.new limits) where
  limits_eq := rfl
  suffix := ⟨[], rfl, Or.inl rfl⟩
  counted := by
    intro c hc
    cases hc
  storedBytes := rfl
  storedNewlines := rfl
  full := rfl
  totalBytes := rfl
  totalNewlines := rfl
  endsWithNewline := rfl

theorem texts_append (chunks chunks' : List Chunk) :
    texts (chunks ++ chunks') = texts chunks ++ texts chunks' := by
  rw [texts, List.map_append, List.flatten_append]
  rfl

/-- What a buffer drops lies in front of its margin. -/
theorem dropLeading_eq (limits : OutputLimits) (chunks : List Chunk)
    (hexact : ∀ c ∈ chunks, c = Chunk.of c.text) :
    ∃ gone kept, dropLeading limits chunks (utf8Chars (texts chunks)).length
        ((texts chunks).count '\n') =
          (kept, (utf8Chars (texts kept)).length, (texts kept).count '\n') ∧
      texts chunks = gone ++ texts kept ∧ (gone = [] ∨ Proves limits (texts kept)) ∧
      ∀ c ∈ kept, c = Chunk.of c.text := by
  induction chunks with
  | nil => exact ⟨[], [], rfl, rfl, Or.inl rfl, hexact⟩
  | cons first rest ih =>
    cases rest with
    | nil => exact ⟨[], [first], rfl, rfl, Or.inl rfl, hexact⟩
    | cons second rest =>
      have hfirst : first = Chunk.of first.text := hexact first List.mem_cons_self
      have hsplit : texts (first :: second :: rest) =
          first.text ++ texts (second :: rest) := List.flatten_cons
      have hbytes : (utf8Chars (texts (first :: second :: rest))).length - first.bytes =
          (utf8Chars (texts (second :: rest))).length := by
        rw [hsplit, utf8Chars_append, List.length_append, hfirst]
        exact Nat.add_sub_cancel_left _ _
      have hnewlines : (texts (first :: second :: rest)).count '\n' - first.newlines =
          (texts (second :: rest)).count '\n' := by
        rw [hsplit, List.count_append, hfirst]
        exact Nat.add_sub_cancel_left _ _
      rw [dropLeading, hbytes, hnewlines]
      by_cases hstop : (utf8Chars (texts (second :: rest))).length ≤ limits.maxBytes + 1 ∧
          (texts (second :: rest)).count '\n' ≤ limits.maxLines + 1
      · rw [if_pos hstop]
        exact ⟨[], _, rfl, rfl, Or.inl rfl, hexact⟩
      · rw [if_neg hstop]
        obtain ⟨gone, kept, hrun, hkept, hproves, hexact'⟩ :=
          ih fun c hc => hexact c (List.mem_cons_of_mem _ hc)
        refine ⟨first.text ++ gone, kept, hrun, ?_, ?_, hexact'⟩
        · rw [hsplit, hkept, List.append_assoc]
        · right
          rcases hproves with hgone | hproves
          · rw [hgone, List.nil_append] at hkept
            rw [← hkept, Proves]
            omega
          · exact hproves

theorem accept_tail {b : OutputBuffer} {text : List Char} (htail : b.limits.retain = .tail)
    (hfull : b.full = false) (htext : text ≠ []) :
    b.accept text =
      let kept := dropLeading b.limits (b.chunks ++ [Chunk.of text])
        (b.storedBytes + (Chunk.of text).bytes) (b.storedNewlines + (Chunk.of text).newlines)
      { b with
        totalBytes := b.totalBytes + (Chunk.of text).bytes
        totalNewlines := b.totalNewlines + (Chunk.of text).newlines
        endsWithNewline := Output.endsWithNewline text
        chunks := kept.1
        storedBytes := kept.2.1
        storedNewlines := kept.2.2 } := by
  rw [OutputBuffer.accept, if_neg htext]
  simp only [hfull, htail, Bool.false_eq_true, if_false]

section Holds

variable {limits : OutputLimits} {total text : List Char} {b : OutputBuffer}

/-- What is left behind new text still proves the window. -/
theorem holds_accept (htail : limits.retain = .tail) (htext : text ≠ []) (hlimits : b.limits = limits)
    (hcounted : ∀ c ∈ b.chunks, c = Chunk.of c.text)
    (hbytes : b.storedBytes = (utf8Chars (texts b.chunks)).length)
    (hnewlines : b.storedNewlines = (texts b.chunks).count '\n') (hfull : b.full = false)
    (htotalBytes : b.totalBytes = (utf8Chars total).length)
    (htotalNewlines : b.totalNewlines = total.count '\n')
    (hsuffix : ∃ gone, total = gone ++ texts b.chunks ∧
      (gone = [] ∨ Proves limits (texts b.chunks ++ text))) :
    Holds limits (total ++ text) (b.accept text) := by
  obtain ⟨gone, htotal, hgone⟩ := hsuffix
  have hall : texts (b.chunks ++ [Chunk.of text]) = texts b.chunks ++ text := by
    rw [texts_append]
    show texts b.chunks ++ (text ++ []) = _
    rw [List.append_nil]
  have hbytes' : b.storedBytes + (Chunk.of text).bytes =
      (utf8Chars (texts (b.chunks ++ [Chunk.of text]))).length := by
    rw [hall, utf8Chars_append, List.length_append, hbytes]
    rfl
  have hnewlines' : b.storedNewlines + (Chunk.of text).newlines =
      (texts (b.chunks ++ [Chunk.of text])).count '\n' := by
    rw [hall, List.count_append, hnewlines]
    rfl
  obtain ⟨dropped, kept, hrun, hkept, hproves, hcounted'⟩ :=
    dropLeading_eq limits (b.chunks ++ [Chunk.of text]) (by
      intro c hc
      rcases List.mem_append.mp hc with hc | hc
      · exact hcounted c hc
      · obtain rfl := List.mem_singleton.mp hc
        rfl)
  rw [accept_tail (hlimits ▸ htail) hfull htext, hbytes', hnewlines', hlimits, hrun]
  refine ⟨rfl, ⟨gone ++ dropped, ?_, ?_⟩, hcounted', rfl, rfl, hfull, ?_, ?_, ?_⟩
  · rw [htotal, List.append_assoc, ← hall, hkept, List.append_assoc]
  · rcases hproves with hnone | hproves
    · -- nothing was dropped now
      rw [hnone, List.nil_append, hall] at hkept
      rw [hnone, List.append_nil, ← hkept]
      exact hgone
    · exact Or.inr hproves
  · show b.totalBytes + (utf8Chars text).length = _
    rw [utf8Chars_append, List.length_append, htotalBytes]
  · show b.totalNewlines + text.count '\n' = _
    rw [List.count_append, htotalNewlines]
  · show endsWithNewline text = _
    rw [endsWithNewline, endsWithNewline, List.getLast?_append_of_ne_nil _ htext,
      decide_eq_false (fun h => htext (List.append_eq_nil_iff.mp h).2), Bool.false_or]

/-- **A text** of the stream: the buffer stands for the longer text. -/
theorem Holds.accept (htail : limits.retain = .tail) (h : Holds limits total b)
    (text : List Char) : Holds limits (total ++ text) (b.accept text) := by
  by_cases htext : text = []
  · rw [htext, List.append_nil, OutputBuffer.accept, if_pos rfl]
    exact h
  · obtain ⟨gone, htotal, hgone⟩ := h.suffix
    exact holds_accept htail htext h.limits_eq h.counted h.storedBytes h.storedNewlines h.full
      h.totalBytes h.totalNewlines
      ⟨gone, htotal, hgone.imp_right fun hproves => hproves.append_right text⟩

def OutputSkip.of (text : List Char) : OutputSkip :=
  ⟨(utf8Chars text).length, text.count '\n', Output.endsWithNewline text⟩

/-- **An omission** in front of more than a window: the buffer stands for the text with it. -/
theorem Holds.skip (htail : limits.retain = .tail) (h : Holds limits total b)
    {omitted : List Char} (homitted : omitted ≠ []) (hproves : Proves limits text) :
    ∃ b', b.push text (some (OutputSkip.of omitted)) = some b' ∧
      Holds limits (total ++ omitted ++ text) b' := by
  have hbytes : (OutputSkip.of omitted).bytes ≠ 0 := fun hzero =>
    homitted (eq_nil_of_utf8Chars hzero)
  refine ⟨(b.skip (OutputSkip.of omitted)).accept text, ?_, ?_⟩
  · rw [OutputBuffer.push, if_neg (by rw [h.limits_eq, htail]; simp)]
  · rw [OutputBuffer.skip, if_neg hbytes]
    refine holds_accept htail hproves.ne_nil ?_ ?_ rfl rfl ?_ ?_ ?_ ?_
    · exact h.limits_eq
    · intro c hc
      cases hc
    · exact h.full
    · show b.totalBytes + (utf8Chars omitted).length = _
      rw [h.totalBytes, utf8Chars_append, List.length_append]
    · show b.totalNewlines + omitted.count '\n' = _
      rw [h.totalNewlines, List.count_append]
    · exact ⟨total ++ omitted, (List.append_nil _).symm, Or.inr hproves⟩

theorem lines_eq (text : List Char) :
    lines (text.count '\n') (text = [] || endsWithNewline text) = lineCount (utf8Chars text) := by
  by_cases htext : text = []
  · rw [htext]
    rfl
  · have hbytes : utf8Chars text ≠ [] := fun hnil =>
      htext (eq_nil_of_utf8Chars (congrArg List.length hnil))
    rw [lines, lineCount, if_neg hbytes, count_newline, decide_eq_false htext, Bool.false_or,
      endsWithNewline]
    simp only [getLast?_newline, decide_eq_true_iff]

/-- **A snapshot** shows what the whole text shows, and leaves a buffer that stands for it. -/
theorem Holds.snapshot (htail : limits.retain = .tail) (h : Holds limits total b) :
    ∃ out b', b.snapshot = some (out, b') ∧ IsShown limits total out ∧ Holds limits total b' := by
  obtain ⟨gone, htotal, hgone⟩ := h.suffix
  obtain ⟨front, kept, hwindow⟩ := exists_window limits (texts b.chunks)
  obtain ⟨dropped, margin, hmargin, hrun, hproves⟩ := tailMargin_eq limits (texts b.chunks)
  have hwhole : ∃ front, IsWindow limits total front kept := by
    rcases hgone with hnone | hproves
    · rw [htotal, hnone]
      exact ⟨front, hwindow⟩
    · rw [htotal]
      exact ⟨_, hwindow.append hproves gone⟩
  obtain ⟨before, hwhole⟩ := hwhole
  have hstored : b.stored = texts b.chunks := rfl
  rw [OutputBuffer.snapshot, h.limits_eq, hstored, boundOutput_tail htail hwindow]
  simp only [Option.bind_eq_bind, Option.bind_some, htail, if_true, hrun, true_or]
  refine ⟨_, _, rfl, ⟨before, kept, hwhole, ?_⟩, ?_⟩
  · congr 1
    · rw [h.totalBytes]
    · rw [h.totalNewlines, h.endsWithNewline, lines_eq, h.storedNewlines, lines_eq]
      omega
  · have htexts : texts (if margin = [] then []
        else [⟨margin, (utf8Chars margin).length, margin.count '\n'⟩]) = margin := by
      split
      · rename_i hnil
        rw [hnil]
        rfl
      · exact List.append_nil margin
    refine ⟨rfl, ⟨gone ++ dropped, ?_, ?_⟩, ?_, ?_, ?_, h.full, h.totalBytes,
      h.totalNewlines, h.endsWithNewline⟩
    · rw [htexts, List.append_assoc, ← hmargin]
      exact htotal
    · rw [htexts]
      rcases hproves with hnone | hproves
      · rw [hnone, List.nil_append] at hmargin
        rw [hnone, List.append_nil, ← hmargin]
        exact hgone
      · exact Or.inr hproves
    · intro c hc
      simp only at hc
      split at hc
      · cases hc
      · obtain rfl := List.mem_singleton.mp hc
        rfl
    · rw [htexts]
    · rw [htexts]
      split
      · rename_i hnil
        rw [hnil]
        rfl
      · rfl

end Holds

end ThreeXhaust.Chord.Output
