import ThreeXhaust.Tui.MainScreen

/-!
# What the terminal shows after a render

After every render the rows of the terminal are the frame's lines, and the cursor is where the
renderer believes it is, as long as the cursor marker is on the screen. The moves to a marker above
the screen stop at its top row, while the renderer goes on from the marker's row.
-/

namespace ThreeXhaust.Tui.MainScreen

open Lib.Terminal

section
variable {L C : Type} {text : LineText L C} {width height : Nat} {blank : C}

/-! ## The cursor marker -/

variable (text width height blank) in
def rowsOf (lines : List L) : List (List C) :=
  lines.map fun line => padded width blank (text.cells line)

theorem length_newLines (frame : Frame L) :
    (newLines text height frame).length = frame.lines.length := by
  rw [newLines, List.length_map, extractCursorPosition]
  split
  · exact List.length_set
  · rfl

theorem cursorPos_bound {frame : Frame L} {row col : Nat}
    (h : cursorPos text height frame = some (row, col)) :
    (newLines text height frame).length ≤ row + height
      ∧ row < (newLines text height frame).length := by
  rw [length_newLines]
  rw [cursorPos, extractCursorPosition] at h
  split at h
  · next found line hfound =>
    have hrow : row ∈ ((List.range frame.lines.length).drop
        (frame.lines.length - height)).reverse := by
      obtain ⟨i, hi, hsome⟩ := List.exists_of_findSome?_eq_some hfound
      obtain ⟨a, -, ha⟩ := Option.map_eq_some_iff.1 hsome
      cases ha
      cases h
      exact hi
    rw [List.mem_reverse, List.mem_drop_iff_getElem] at hrow
    obtain ⟨i, hi, rfl⟩ := hrow
    rw [List.length_range] at hi
    rw [List.getElem_range]
    omega
  · cases h

theorem positionHardwareCursor_state (s : RenderState L) (position : Option (Nat × Nat))
    (totalLines : Nat) :
    (positionHardwareCursor (C := C) s position totalLines).1 = { s with
      hardwareCursorRow :=
        (positionHardwareCursor (C := C) s position totalLines).1.hardwareCursorRow } := by
  unfold positionHardwareCursor
  split
  · rfl
  · simp only
    split
    · rfl
    · rfl

/-- **The cursor is moved to a marker on the screen.** -/
theorem position_spec {s : RenderState L} {t : Display C} (hwf : t.WF height)
    (hcursor : t.top + t.row = s.hardwareCursorRow) {position : Option (Nat × Nat)}
    {totalLines : Nat} (hvisible : ∀ row col, position = some (row, col) →
      t.top ≤ row ∧ row < totalLines ∧ row < t.top + height) :
    ∃ t', run width height blank t (positionHardwareCursor s position totalLines).2 = t'
      ∧ t'.rows = t.rows ∧ t'.top = t.top ∧ t'.WF height
      ∧ t'.top + t'.row = (positionHardwareCursor (C := C) s position totalLines).1.hardwareCursorRow
      ∧ (totalLines = 0 → t' = t) := by
  unfold positionHardwareCursor
  split
  · exact ⟨t, rfl, rfl, rfl, hwf, hcursor, fun _ => rfl⟩
  · next row col =>
    obtain ⟨habove, hbelow, hscreen⟩ := hvisible row col rfl
    simp only
    rw [if_neg (by omega)]
    have htarget : min row (totalLines - 1) = row := by omega
    simp only [htarget]
    obtain ⟨t₁, hrun, hrows, htop, hrow, hwf₁, -⟩ := run_moves width blank hwf
      ((row : Int) - s.hardwareCursorRow) (by omega) (by omega)
    refine ⟨_, rfl, ?_⟩
    rw [run_append, hrun]
    refine ⟨hrows, htop, ⟨hwf₁.length_rows, hwf₁.row_lt⟩, ?_, fun h => absurd h (by omega)⟩
    show t₁.top + t₁.row = row
    omega

/-! ## The invariant -/

variable (text width height blank) in
/-- The terminal shows the lines of the last render, from the first one on, with blank rows below
them; the screen starts where the renderer believes, and the cursor is where it believes. -/
structure Inv (s : RenderState L) (t : Display C) : Prop where
  wf : t.WF height
  rows : ∃ count, t.rows = rowsOf text width blank s.previousLines
    ++ List.replicate count (blankRow width blank)
  top : t.top = s.previousViewportTop
  cursor : t.top + t.row = s.hardwareCursorRow
  begun : s.previousLines = [] → t.top = 0 ∧ t.row = 0 ∧ t.col = 0
  inside : s.previousLines ≠ [] → t.top < s.previousLines.length
  previousWidth : s.previousWidth = 0 ∨ s.previousWidth = width
  previousHeight : s.previousHeight = 0 ∨ s.previousHeight = height

theorem Inv.viewport {s : RenderState L} {t : Display C} (h : Inv text width height blank s t)
    {viewportTop : Nat} (htop : s.previousViewportTop = viewportTop) :
    Inv text width height blank { s with previousViewportTop := viewportTop } t := by
  subst htop
  exact h

/-- What every path ends with: the cursor is moved to the marker, and the lines are kept. -/
theorem inv_finish {s : RenderState L} {t : Display C} (lines : List L) (hwf : t.WF height)
    (hrows : ∃ count, t.rows = rowsOf text width blank lines
      ++ List.replicate count (blankRow width blank))
    (htop : t.top = s.previousViewportTop) (hcursor : t.top + t.row = s.hardwareCursorRow)
    (hbegun : lines = [] → t.top = 0 ∧ t.row = 0 ∧ t.col = 0)
    (hinside : lines ≠ [] → t.top < lines.length) {position : Option (Nat × Nat)}
    (hvisible : ∀ row col, position = some (row, col) →
      t.top ≤ row ∧ row < lines.length ∧ row < t.top + height) :
    Inv text width height blank
      { (positionHardwareCursor (C := C) s position lines.length).1 with
        previousLines := lines
        previousWidth := width
        previousHeight := height }
      (run width height blank t (positionHardwareCursor s position lines.length).2) := by
  obtain ⟨t', hrun, hrows', htop', hwf', hcursor', hsame⟩ := position_spec hwf hcursor hvisible
  have hstate := positionHardwareCursor_state (C := C) s position lines.length
  rw [hrun]
  refine ⟨hwf', ?_, ?_, hcursor', ?_, ?_, .inr rfl, .inr rfl⟩
  · rw [hrows']
    exact hrows
  · rw [htop', htop, hstate]
  · intro hnil
    have hnil : lines = [] := hnil
    rw [hsame (by rw [hnil]; rfl)]
    exact hbegun hnil
  · intro hne
    rw [htop']
    exact hinside hne

/-! ## Full renders -/

theorem length_rowsOf (lines : List L) :
    (rowsOf text width blank lines).length = lines.length := List.length_map _

theorem run_writeAll (hheight : 0 < height) {lines : List L}
    (hfit : ∀ line ∈ lines, (text.cells line).length ≤ width) :
    ∃ t, run width height blank (start width height blank) (writeLines text false lines) = t
      ∧ t.WF height ∧ (∃ count, t.rows = rowsOf text width blank lines
        ++ List.replicate count (blankRow width blank))
      ∧ t.top = max height lines.length - height ∧ t.top + t.row = lines.length - 1
      ∧ (lines = [] → t.row = 0 ∧ t.col = 0) := by
  have hwf : (start width height blank).WF height := wf_start hheight
  cases lines with
  | nil =>
    refine ⟨start width height blank, rfl, hwf, ⟨height, rfl⟩, ?_, rfl, fun _ => ⟨rfl, rfl⟩⟩
    show 0 = max height 0 - height
    omega
  | cons line rest =>
    have hblank : ∀ i, (start width height blank).top + (start width height blank).row ≤ i →
        ∀ row, (start width height blank).rows[i]? = some row → row = blankRow width blank := by
      intro i _ row hread
      exact List.eq_of_mem_replicate (List.mem_of_getElem? hread)
    have hcells : ∀ row ∈ text.cells line :: rest.map text.cells, row.length ≤ width := by
      intro row hmem
      rw [← List.map_cons] at hmem
      obtain ⟨l, hl, rfl⟩ := List.mem_map.1 hmem
      exact hfit l hl
    obtain ⟨t, hrun, hwf', hrow, hrows⟩ := run_writeRows width blank false (text.cells line)
      (rest.map text.cells) hwf rfl (fun _ => hblank) hcells
    rw [List.flatMap_map] at hrun
    rw [List.length_map] at hrow hrows
    have hshown : t.rows = rowsOf text width blank (line :: rest)
        ++ List.replicate (height - (1 + rest.length)) (blankRow width blank) := by
      rw [hrows, rowsOf, List.map_cons, List.map_cons, List.map_map]
      have hzero : (start width height blank).top + (start width height blank).row = 0 := rfl
      rw [hzero, List.take_zero, List.nil_append, Nat.zero_add]
      congr 1
      exact List.drop_replicate
    have hlength : t.rows.length = (line :: rest).length + (height - (1 + rest.length)) := by
      rw [hshown, List.length_append, length_rowsOf, List.length_replicate]
    have htop := hwf'.length_rows
    rw [List.length_cons] at hlength
    refine ⟨t, hrun, hwf', ⟨_, hshown⟩, ?_, ?_, nofun⟩
    · rw [List.length_cons]
      omega
    · rw [hrow, List.length_cons]
      show 0 + 0 + rest.length = rest.length + 1 - 1
      omega

/-- **A full render**, on the first terminal or after everything is erased. -/
theorem inv_fullRender (hheight : 0 < height) {s : RenderState L} {t : Display C} {clear : Bool}
    (hwf : t.WF height) (hstart : clear = false → t = start width height blank) {lines : List L}
    (hfit : ∀ line ∈ lines, (text.cells line).length ≤ width) {position : Option (Nat × Nat)}
    (hposition : ∀ row col, position = some (row, col) →
      lines.length ≤ row + height ∧ row < lines.length) :
    (fullRender text width height clear s lines position).1.previousLines = lines
      ∧ Inv text width height blank (fullRender text width height clear s lines position).1
        (run width height blank t (fullRender text width height clear s lines position).2) := by
  obtain ⟨t₁, hrun, hwf₁, hrows, htop, hrow, hbegun⟩ :=
    @run_writeAll L C text width height blank hheight lines hfit
  have herased : run width height blank t (if clear then [.ed2, .home, .ed3] else [])
      = start width height blank := by
    cases clear with
    | true => exact run_erase hwf
    | false => exact hstart rfl
  refine ⟨rfl, ?_⟩
  simp only [fullRender]
  rw [run_append, run_append, herased, hrun]
  refine inv_finish lines hwf₁ hrows htop hrow ?_ ?_ ?_
  · intro hnil
    obtain ⟨hrow₁, hcol₁⟩ := hbegun hnil
    refine ⟨?_, hrow₁, hcol₁⟩
    rw [htop, hnil]
    show max height 0 - height = 0
    omega
  · intro hne
    have := List.length_pos_iff.2 hne
    omega
  · intro row col hsome
    obtain ⟨habove, hbelow⟩ := hposition row col hsome
    omega

/-! ## The changed lines -/

/-- The lines that were looked at are the same, but those from the first change to the last. -/
def Noted (previousLines newLines : List L) (count : Nat) : Option (Nat × Nat) → Prop
  | none => ∀ i < count, previousLines[i]? = newLines[i]?
  | some (first, last) => first ≤ last ∧ last < count
    ∧ previousLines[first]? ≠ newLines[first]? ∧ previousLines[last]? ≠ newLines[last]?
    ∧ (∀ i < first, previousLines[i]? = newLines[i]?)
    ∧ ∀ i, last < i → i < count → previousLines[i]? = newLines[i]?

variable [DecidableEq L]

theorem noted_foldl (previousLines newLines : List L) (count : Nat) :
    Noted previousLines newLines count
      ((List.range count).foldl (noteChange previousLines newLines) none) := by
  induction count with
  | zero =>
    intro i hi
    omega
  | succ count ih =>
    rw [List.range_succ, List.foldl_append, List.foldl_cons, List.foldl_nil, noteChange]
    generalize (List.range count).foldl (noteChange previousLines newLines) none = changed at ih ⊢
    split
    · next hdiffer =>
      cases changed with
      | none =>
        refine ⟨Nat.le_refl _, Nat.lt_succ_self _, hdiffer, hdiffer, ih, fun i hlast hi => ?_⟩
        omega
      | some range =>
        obtain ⟨first, last⟩ := range
        obtain ⟨hle, hlt, hfirst, -, hbefore, -⟩ := ih
        refine ⟨?_, Nat.lt_succ_self _, hfirst, hdiffer, hbefore, fun i hlast hi => ?_⟩
        · simp only [Option.map_some, Option.getD_some]
          omega
        · omega
    · next hsame =>
      rw [ne_eq, not_not] at hsame
      cases changed with
      | none =>
        intro i hi
        by_cases hend : i = count
        · rw [hend, hsame]
        · exact ih i (by omega)
      | some range =>
        obtain ⟨first, last⟩ := range
        obtain ⟨hle, hlt, hfirst, hlast, hbefore, hafter⟩ := ih
        refine ⟨hle, by omega, hfirst, hlast, hbefore, fun i hi hcount => ?_⟩
        by_cases hend : i = count
        · rw [hend, hsame]
        · exact hafter i hi (by omega)

theorem changedRange_none {previousLines newLines : List L}
    (h : changedRange previousLines newLines = none) : previousLines = newLines := by
  have hnoted := noted_foldl previousLines newLines (max newLines.length previousLines.length)
  rw [changedRange] at h
  split at h
  · cases h
  · next hshort =>
    rw [h] at hnoted
    apply List.ext_getElem?
    intro i
    by_cases hi : i < max newLines.length previousLines.length
    · exact hnoted i hi
    · rw [List.getElem?_eq_none (by omega), List.getElem?_eq_none (by omega)]

/-- **The changed range**: what is before and after it is the same, and it goes to the end of the
longer list. -/
theorem changedRange_some {previousLines newLines : List L} {first last : Nat}
    (h : changedRange previousLines newLines = some (first, last)) :
    first ≤ last ∧ first ≤ previousLines.length
      ∧ last < max newLines.length previousLines.length
      ∧ (newLines.length > previousLines.length → last = newLines.length - 1)
      ∧ (newLines.length < previousLines.length → last = previousLines.length - 1)
      ∧ (∀ i < first, previousLines[i]? = newLines[i]?)
      ∧ ∀ i, last < i → previousLines[i]? = newLines[i]? := by
  have hnoted := noted_foldl previousLines newLines (max newLines.length previousLines.length)
  rw [changedRange] at h
  generalize (List.range (max newLines.length previousLines.length)).foldl
    (noteChange previousLines newLines) none = changed at h hnoted
  have hbeyond : ∀ i, max newLines.length previousLines.length ≤ i →
      previousLines[i]? = newLines[i]? := by
    intro i hi
    rw [List.getElem?_eq_none (by omega), List.getElem?_eq_none (by omega)]
  split at h
  · next hlonger =>
    -- the first appended line differs, so something was noted
    have happended : previousLines[previousLines.length]? ≠ newLines[previousLines.length]? := by
      rw [List.getElem?_eq_none (Nat.le_refl _), List.getElem?_eq_getElem hlonger]
      exact nofun
    cases changed with
    | none => exact absurd (hnoted _ (by omega)) happended
    | some range =>
      obtain ⟨noted, end_⟩ := range
      obtain ⟨hle, hlt, -, -, hbefore, -⟩ := hnoted
      cases h
      have hfirst : noted ≤ previousLines.length := by
        by_contra hgt
        exact happended (hbefore _ (by omega))
      simp only [Option.map_some, Option.getD_some]
      refine ⟨by omega, hfirst, by omega, fun _ => trivial, by omega, hbefore, fun i hi => ?_⟩
      exact hbeyond i (by omega)
  · next hshort =>
    rw [h] at hnoted
    obtain ⟨hle, hlt, -, hlast, hbefore, hafter⟩ := hnoted
    refine ⟨hle, by omega, hlt, by omega, fun hshorter => ?_, hbefore, fun i hi => ?_⟩
    · -- the last line that was taken away differs
      by_contra hne
      have hgone := hafter (previousLines.length - 1) (by omega) (by omega)
      rw [List.getElem?_eq_getElem (by omega), List.getElem?_eq_none (by omega)] at hgone
      cases hgone
    · by_cases hcount : i < max newLines.length previousLines.length
      · exact hafter i hi hcount
      · exact hbeyond i (by omega)

/-! ## Renders that keep the screen -/

omit [DecidableEq L] in
theorem length_le_of_rows {t : Display C} (hwf : t.WF height) {lines : List L}
    (hrows : ∃ count, t.rows = rowsOf text width blank lines
      ++ List.replicate count (blankRow width blank)) : lines.length ≤ t.top + height := by
  obtain ⟨count, hrows⟩ := hrows
  have hlength := hwf.length_rows
  rw [hrows, List.length_append, length_rowsOf] at hlength
  omega

omit [DecidableEq L] in
theorem Inv.length_rows {s : RenderState L} {t : Display C} (h : Inv text width height blank s t) :
    s.previousLines.length ≤ t.top + height := length_le_of_rows h.wf h.rows

omit [DecidableEq L] in
/-- **Nothing has changed**, but for the marker. -/
theorem inv_unchanged {s : RenderState L} {t : Display C} (h : Inv text width height blank s t)
    {position : Option (Nat × Nat)} (hvisible : ∀ row col, position = some (row, col) →
      t.top ≤ row ∧ row < s.previousLines.length) :
    Inv text width height blank
      { (positionHardwareCursor (C := C) s position s.previousLines.length).1 with
        previousViewportTop := s.previousViewportTop
        previousHeight := height }
      (run width height blank t
        (positionHardwareCursor s position s.previousLines.length).2) := by
  have hlength := h.length_rows
  obtain ⟨t', hrun, hrows', htop', hwf', hcursor', hsame⟩ :=
    @position_spec L C width height blank s t h.wf h.cursor position s.previousLines.length
      fun row col hsome => by
        have := hvisible row col hsome
        omega
  have hstate := positionHardwareCursor_state (C := C) s position s.previousLines.length
  generalize positionHardwareCursor (C := C) s position s.previousLines.length = moved at *
  have hlines : moved.1.previousLines = s.previousLines := by rw [hstate]
  rw [hrun]
  refine ⟨hwf', ?_, ?_, hcursor', ?_, ?_, ?_, .inr rfl⟩
  · rw [hrows']
    simp only [hlines]
    exact h.rows
  · rw [htop']
    exact h.top
  · intro hnil
    simp only [hlines] at hnil
    rw [hsame (by rw [hnil]; rfl)]
    exact h.begun hnil
  · intro hne
    simp only [hlines] at hne ⊢
    rw [htop']
    exact h.inside hne
  · have hwidth : moved.1.previousWidth = s.previousWidth := by rw [hstate]
    simp only [hwidth]
    exact h.previousWidth

omit [DecidableEq L] in
theorem run_toEnd {s : RenderState L} {t : Display C} (h : Inv text width height blank s t)
    {count : Nat} (hshorter : count < s.previousLines.length) (htarget : t.top ≤ count - 1) :
    ∃ t', run width height blank t (moves (((count - 1 : Nat) : Int) - s.hardwareCursorRow) ++ [.cr]
        ++ (if (if count = 0 then 0 else 1) > 0 then [.cud (if count = 0 then 0 else 1)] else []))
        = t' ∧ t'.WF height ∧ t'.rows = t.rows ∧ t'.top = t.top ∧ t'.top + t'.row = count
      ∧ t'.col = 0 := by
  have hlength := h.length_rows
  have hcursor := h.cursor
  obtain ⟨t₁, hrun, hrows, htop, hrow, hwf₁, -⟩ := run_moves width blank h.wf
    (((count - 1 : Nat) : Int) - s.hardwareCursorRow) (by omega) (by omega)
  rw [run_append, run_append, hrun]
  by_cases hzero : count = 0
  · rw [if_pos hzero, if_neg (Nat.lt_irrefl 0)]
    refine ⟨_, rfl, ⟨hwf₁.length_rows, hwf₁.row_lt⟩, hrows, htop, ?_, rfl⟩
    show t₁.top + t₁.row = count
    omega
  · rw [if_neg hzero, if_pos Nat.one_pos]
    refine ⟨_, rfl, ⟨hwf₁.length_rows, ?_⟩, hrows, htop, ?_, Nat.zero_min _⟩
    · show min (t₁.row + 1) (height - 1) < height
      have := hwf₁.row_lt
      omega
    · show t₁.top + min (t₁.row + 1) (height - 1) = count
      omega

omit [DecidableEq L] in
theorem rowsOf_take {previousLines lines : List L} (hlength : lines.length ≤ previousLines.length)
    (hbefore : ∀ i < lines.length, previousLines[i]? = lines[i]?) (below : List (List C)) :
    (rowsOf text width blank previousLines ++ below).take lines.length
      = rowsOf text width blank lines := by
  have hlines : previousLines.take lines.length = lines := by
    apply List.ext_getElem?
    intro i
    rw [List.getElem?_take]
    split
    · next hi => exact hbefore i hi
    · exact (List.getElem?_eq_none (by omega)).symm
  rw [List.take_append_of_le_length (by rw [length_rowsOf]; exact hlength), rowsOf,
    ← List.map_take, hlines, rowsOf]

omit [DecidableEq L] in
/-- **The rows of deleted lines** are erased, and the cursor is back on the last line. -/
theorem run_deleted {s : RenderState L} {t : Display C} (h : Inv text width height blank s t)
    {lines : List L} (hshorter : lines.length < s.previousLines.length)
    (hbefore : ∀ i < lines.length, s.previousLines[i]? = lines[i]?)
    (htarget : t.top ≤ lines.length - 1) :
    ∃ t', run width height blank t
        (moves (((lines.length - 1 : Nat) : Int) - s.hardwareCursorRow) ++ [.cr]
          ++ (if (if lines.length = 0 then 0 else 1) > 0 then
              [.cud (if lines.length = 0 then 0 else 1)] else [])
          ++ clearRows (s.previousLines.length - lines.length)
          ++ (if s.previousLines.length - lines.length - 1 + (if lines.length = 0 then 0 else 1) > 0
            then [.cuu (s.previousLines.length - lines.length - 1
              + (if lines.length = 0 then 0 else 1))] else [])) = t'
      ∧ t'.WF height ∧ (∃ count, t'.rows = rowsOf text width blank lines
        ++ List.replicate count (blankRow width blank))
      ∧ t'.top = t.top ∧ t'.top + t'.row = lines.length - 1 ∧ t'.col = 0 := by
  have hlength := h.length_rows
  obtain ⟨below, hrows⟩ := h.rows
  obtain ⟨t₁, hrun₁, hwf₁, hrows₁, htop₁, hrow₁, hcol₁⟩ := run_toEnd h hshorter htarget
  obtain ⟨extra, hextra'⟩ : ∃ extra, s.previousLines.length - lines.length = extra + 1 :=
    ⟨s.previousLines.length - lines.length - 1, by omega⟩
  obtain ⟨t₂, hrun₂, hwf₂, htop₂, hrow₂, hcol₂, hrows₂⟩ :=
    run_clearRows width blank extra hwf₁ (by omega)
  rw [run_append, run_append, hrun₁, hextra', hrun₂]
  -- what is left above is the new lines, and all below is blank
  have hshown : t₂.rows = rowsOf text width blank lines
      ++ List.replicate (extra + 1 + below) (blankRow width blank) := by
    have hpast : lines.length + (extra + 1) = (rowsOf text width blank s.previousLines).length := by
      rw [length_rowsOf]
      omega
    rw [hrows₂, hrow₁, hrows₁, hrows, rowsOf_take (by omega) hbefore, hpast, List.drop_left,
      List.append_assoc, List.replicate_append_replicate]
  have hlast := hwf₂.row_lt
  by_cases hback : extra + 1 - 1 + (if lines.length = 0 then 0 else 1) > 0
  · rw [if_pos hback]
    refine ⟨_, rfl, ⟨hwf₂.length_rows, ?_⟩, ⟨_, hshown⟩, htop₂.trans htop₁, ?_, ?_⟩
    · show t₂.row - _ < height
      omega
    · show t₂.top + (t₂.row - (extra + 1 - 1 + if lines.length = 0 then 0 else 1)) = lines.length - 1
      split at hback
      · next hzero =>
        rw [if_pos hzero]
        omega
      · next hsome =>
        rw [if_neg hsome]
        omega
    · show min t₂.col (width - 1) = 0
      rw [hcol₂, Nat.zero_min]
  · rw [if_neg hback]
    refine ⟨t₂, rfl, hwf₂, ⟨_, hshown⟩, htop₂.trans htop₁, ?_, hcol₂⟩
    split at hback
    · omega
    · omega

omit [DecidableEq L] in
/-- **Lines were taken away** at the end. -/
theorem inv_renderDeleted (hheight : 0 < height) {s : RenderState L} {t : Display C}
    (h : Inv text width height blank s t) {lines : List L}
    (hfit : ∀ line ∈ lines, (text.cells line).length ≤ width)
    (hbefore : ∀ i < lines.length, s.previousLines[i]? = lines[i]?)
    (hrange : s.previousLines.length ≤ lines.length → s.previousLines.length = lines.length)
    {position : Option (Nat × Nat)}
    (hposition : ∀ row col, position = some (row, col) →
      lines.length ≤ row + height ∧ row < lines.length)
    (hvisible : (s.previousLines.length > lines.length
        ∧ (lines.length - 1 < s.previousViewportTop
          ∨ s.previousLines.length - lines.length > height))
      ∨ ∀ row col, position = some (row, col) → s.previousViewportTop ≤ row) :
    (renderDeleted text width height s s.previousViewportTop lines position).1.previousLines = lines
      ∧ Inv text width height blank
        (renderDeleted text width height s s.previousViewportTop lines position).1
        (run width height blank t
          (renderDeleted text width height s s.previousViewportTop lines position).2) := by
  have hlength := h.length_rows
  have htop := h.top
  have hfull := @inv_fullRender L C text width height blank hheight s t true h.wf nofun lines hfit
    position hposition
  simp only [renderDeleted]
  split
  · next hshorter =>
    split
    · exact hfull
    next habove =>
    split
    · exact hfull
    next hextra =>
    have hscreen : ∀ row col, position = some (row, col) → s.previousViewportTop ≤ row := by
      obtain ⟨-, hredrawn⟩ | hscreen := hvisible
      · omega
      · exact hscreen
    obtain ⟨t₁, hrun, hwf₁, hrows₁, htop₁, hrow₁, hcol₁⟩ :=
      run_deleted h hshorter hbefore (by omega)
    refine ⟨rfl, ?_⟩
    rw [run_append, hrun]
    have hfinish := @inv_finish L C text width height blank { s with
      cursorRow := lines.length - 1
      hardwareCursorRow := lines.length - 1 } t₁ lines hwf₁ hrows₁ (htop₁.trans htop) hrow₁
    refine (hfinish ?_ ?_ ?_).viewport ?_
    · intro hnil
      rw [hnil] at hrow₁
      simp only [List.length_nil] at hrow₁
      exact ⟨by omega, by omega, hcol₁⟩
    · intro hne
      have := List.length_pos_iff.2 hne
      omega
    · intro row col hsome
      have := hposition row col hsome
      have := hscreen row col hsome
      omega
    · simp only
      rw [positionHardwareCursor_state]
  · next hlonger =>
    -- the lists are as long as each other, so the lines are the same
    have hsame : s.previousLines = lines := by
      apply List.ext_getElem?
      intro i
      by_cases hi : i < lines.length
      · exact hbefore i hi
      · have := hrange (by omega)
        rw [List.getElem?_eq_none (by omega), List.getElem?_eq_none (by omega)]
    have hscreen : ∀ row col, position = some (row, col) → s.previousViewportTop ≤ row := by
      obtain ⟨hshorter, -⟩ | hscreen := hvisible
      · omega
      · exact hscreen
    subst hsame
    refine ⟨rfl, ?_⟩
    rw [List.nil_append]
    refine (inv_finish s.previousLines h.wf h.rows htop h.cursor h.begun h.inside ?_).viewport ?_
    · intro row col hsome
      have := hposition row col hsome
      have := hscreen row col hsome
      omega
    · simp only
      rw [positionHardwareCursor_state]

omit [DecidableEq L] in
/-- **The changed lines** are written over their rows, or below the last row. -/
theorem run_rendered {s : RenderState L} {t : Display C} (h : Inv text width height blank s t)
    (hne : s.previousLines ≠ []) {lines : List L}
    (hfit : ∀ line ∈ lines, (text.cells line).length ≤ width) {first renderEnd : Nat}
    (habove : t.top ≤ first) (hfirst : first ≤ s.previousLines.length) (hle : first ≤ renderEnd)
    (hend : renderEnd < lines.length) {append : Bool}
    (happend : append = true ↔ lines.length > s.previousLines.length
      ∧ first = s.previousLines.length ∧ first > 0) :
    ∃ t', run width height blank t
        (moves (((if append then first - 1 else first : Nat) : Int) - s.hardwareCursorRow)
          ++ (if append then [.cr, .lf] else [.cr])
          ++ writeLines text true ((lines.drop first).take (renderEnd + 1 - first))) = t'
      ∧ t'.WF height ∧ t'.top + t'.row = renderEnd
      ∧ t'.rows = t.rows.take first
        ++ rowsOf text width blank ((lines.drop first).take (renderEnd + 1 - first))
        ++ t.rows.drop (renderEnd + 1) := by
  have hlength := h.length_rows
  have hcursor := h.cursor
  have hinside := h.inside hne
  have hcount : ((lines.drop first).take (renderEnd + 1 - first)).length
      = renderEnd + 1 - first := by
    rw [List.length_take, List.length_drop]
    omega
  have hcells : ∀ line ∈ (lines.drop first).take (renderEnd + 1 - first),
      (text.cells line).length ≤ width :=
    fun line hmem => hfit line (List.mem_of_mem_drop (List.mem_of_mem_take hmem))
  generalize (lines.drop first).take (renderEnd + 1 - first) = rendered at hcount hcells ⊢
  cases rendered with
  | nil =>
    rw [List.length_nil] at hcount
    omega
  | cons line rest =>
  rw [List.length_cons] at hcount
  have hrows : ∀ row ∈ text.cells line :: rest.map text.cells, row.length ≤ width := by
    intro row hmem
    rw [← List.map_cons] at hmem
    obtain ⟨l, hl, rfl⟩ := List.mem_map.1 hmem
    exact hcells l hl
  have hshown : (text.cells line :: rest.map text.cells).map (padded width blank)
      = rowsOf text width blank (line :: rest) := by
    rw [← List.map_cons, List.map_map]
    rfl
  rw [run_append, run_append]
  cases append with
  | true =>
    obtain ⟨-, hstart, hpos⟩ := happend.1 rfl
    obtain ⟨t₁, hrun₁, hrows₁, htop₁, hrow₁, hwf₁, -⟩ := run_moves width blank h.wf
      (((first - 1 : Nat) : Int) - s.hardwareCursorRow) (by omega) (by omega)
    obtain ⟨t₂, hrun₂, hwf₂, hrow₂, hrows₂⟩ := run_appendRows width blank true
      (text.cells line :: rest.map text.cells) hwf₁ (by rintro ⟨⟩) hrows
    refine ⟨t₂, ?_, hwf₂, ?_, ?_⟩
    · rw [if_pos rfl, hrun₁, ← run_append, ← hrun₂]
      congr 1
      rw [writeLines, List.flatMap_cons, List.flatMap_map, List.append_assoc]
      rfl
    · rw [hrow₂, List.length_cons, List.length_map]
      omega
    · have hcut : t₁.top + t₁.row + 1 = first := by omega
      have hpast : first + (text.cells line :: rest.map text.cells).length = renderEnd + 1 := by
        rw [List.length_cons, List.length_map]
        omega
      rw [hrows₂, hcut, hpast, hrows₁, hshown]
  | false =>
    have hstart : first < s.previousLines.length := by
      by_contra hpast
      have hpos := List.length_pos_iff.2 hne
      have : false = true := happend.2 ⟨by omega, by omega, by omega⟩
      cases this
    obtain ⟨t₁, hrun₁, hrows₁, htop₁, hrow₁, hwf₁, -⟩ := run_moves width blank h.wf
      ((first : Int) - s.hardwareCursorRow) (by omega) (by omega)
    have hwf₁' : ({ t₁ with col := 0 } : Display C).WF height := ⟨hwf₁.length_rows, hwf₁.row_lt⟩
    obtain ⟨t₂, hrun₂, hwf₂, hrow₂, hrows₂⟩ := run_writeRows width blank true
      (text.cells line) (rest.map text.cells) hwf₁' rfl (by rintro ⟨⟩) hrows
    have hcut : t₁.top + t₁.row = first := by omega
    simp only [hcut, List.length_map] at hrow₂ hrows₂
    refine ⟨t₂, ?_, hwf₂, by omega, ?_⟩
    · rw [if_neg Bool.false_ne_true, hrun₁, ← hrun₂, writeLines, List.flatMap_map]
      rfl
    · have hpast : first + 1 + rest.length = renderEnd + 1 := by omega
      rw [hrows₂, hpast, hrows₁, hshown]

omit [DecidableEq L] in
variable (width blank) in
/-- **The rows below the new end** are erased, and the cursor is back on the last line. -/
theorem run_cleared {t : Display C} (hwf : t.WF height) (extra : Nat) {last : Nat}
    (hcursor : t.top + t.row = last) (hroom : last + 1 + extra ≤ t.rows.length) :
    ∃ t', run width height blank t
        ((List.replicate extra [.cr, .lf, .el2]).flatten ++ [.cuu extra]) = t'
      ∧ t'.WF height ∧ t'.top = t.top ∧ t'.top + t'.row = last
      ∧ t'.rows = t.rows.take (last + 1) ++ List.replicate extra (blankRow width blank)
        ++ t.rows.drop (last + 1 + extra) := by
  -- an erased row is one that an empty line is written on
  have hempty : run width height blank t (List.replicate extra [.cr, .lf, .el2]).flatten
      = run width height blank t ((List.replicate extra []).flatMap fun cells =>
        [.cr, .lf] ++ writeRow true cells) := by
    clear hroom hcursor hwf
    induction extra generalizing t with
    | zero => rfl
    | succ extra ih =>
      rw [List.replicate_succ, List.replicate_succ, List.flatten_cons, List.flatMap_cons,
        run_append, run_append, ih]
      rfl
  obtain ⟨t₁, hrun₁, hwf₁, hrow₁, hrows₁⟩ := run_appendRows width blank true
    (List.replicate extra []) hwf nofun fun cells hmem => by
      rw [List.eq_of_mem_replicate hmem]
      exact Nat.zero_le _
  rw [List.length_replicate, hcursor] at hrow₁ hrows₁
  rw [List.map_replicate, padded_nil] at hrows₁
  have hlength := hwf.length_rows
  have hlength₁ := hwf₁.length_rows
  rw [hrows₁, List.length_append, List.length_append, List.length_take, List.length_replicate,
    List.length_drop] at hlength₁
  have hlast := hwf₁.row_lt
  rw [run_append, hempty, hrun₁]
  refine ⟨_, rfl, ⟨hwf₁.length_rows, ?_⟩, ?_, ?_, hrows₁⟩
  · show t₁.row - extra < height
    omega
  · show t₁.top = t.top
    omega
  · show t₁.top + (t₁.row - extra) = last
    omega

omit [DecidableEq L] in
theorem rowsOf_changed {previousLines lines : List L} {first renderEnd below : Nat}
    (hfirst : first ≤ previousLines.length) (hle : first ≤ renderEnd)
    (hbefore : ∀ i < first, previousLines[i]? = lines[i]?)
    (hafter : previousLines.length ≤ lines.length →
      ∀ i, renderEnd < i → lines[i]? = if i < previousLines.length then previousLines[i]? else none) :
    (rowsOf text width blank previousLines
          ++ List.replicate below (blankRow width blank)).take first
        ++ rowsOf text width blank ((lines.drop first).take (renderEnd + 1 - first))
      = rowsOf text width blank (lines.take (renderEnd + 1))
      ∧ (previousLines.length ≤ lines.length →
        ∃ count, (rowsOf text width blank previousLines
            ++ List.replicate below (blankRow width blank)).drop (renderEnd + 1)
          = rowsOf text width blank (lines.drop (renderEnd + 1))
            ++ List.replicate count (blankRow width blank)) := by
  constructor
  · have htake : previousLines.take first = lines.take first := by
      apply List.ext_getElem?
      intro i
      rw [List.getElem?_take, List.getElem?_take]
      split
      · next hi => exact hbefore i hi
      · rfl
    have hsplit : lines.take first ++ (lines.drop first).take (renderEnd + 1 - first)
        = lines.take (renderEnd + 1) := by
      have hlength : renderEnd + 1 = first + (renderEnd + 1 - first) := by omega
      conv_rhs => rw [hlength, List.take_add]
    rw [List.take_append_of_le_length (by rw [length_rowsOf]; exact hfirst), rowsOf,
      ← List.map_take, htake, rowsOf, ← List.map_append, hsplit, rowsOf]
  · intro hlonger
    have hdrop : lines.drop (renderEnd + 1) = previousLines.drop (renderEnd + 1) := by
      apply List.ext_getElem?
      intro i
      rw [List.getElem?_drop, List.getElem?_drop, hafter hlonger _ (by omega)]
      split
      · rfl
      · exact (List.getElem?_eq_none (by omega)).symm
    refine ⟨below - (renderEnd + 1 - previousLines.length), ?_⟩
    rw [List.drop_append, length_rowsOf, rowsOf, ← List.map_drop, ← hdrop, List.drop_replicate,
      rowsOf]

/-- **The lines from the first change to the last** are written. -/
theorem inv_renderChanged (hheight : 0 < height) {s : RenderState L} {t : Display C}
    (h : Inv text width height blank s t) (hne : s.previousLines ≠ []) {lines : List L}
    (hfit : ∀ line ∈ lines, (text.cells line).length ≤ width) {first last : Nat}
    (hrange : changedRange s.previousLines lines = some (first, last))
    (hfirst : first < lines.length) (habove : s.previousViewportTop ≤ first)
    {position : Option (Nat × Nat)}
    (hposition : ∀ row col, position = some (row, col) →
      lines.length ≤ row + height ∧ row < lines.length)
    (hscreen : ∀ row col, position = some (row, col) → s.previousViewportTop ≤ row) :
    ∃ s' output, renderChanged text width height s s.previousViewportTop lines position first last
        = some (s', output)
      ∧ s'.previousLines = lines ∧ Inv text width height blank s' (run width height blank t output)
    := by
  obtain ⟨hle, hold, hlast, hlonger, hshorter, hbefore, hafter⟩ := changedRange_some hrange
  have htop := h.top
  have hlength := h.length_rows
  have hinside := h.inside hne
  have hpos := List.length_pos_iff.2 hne
  obtain ⟨below, hrows⟩ := h.rows
  generalize hrenderEnd : min last (lines.length - 1) = renderEnd
  have hend : renderEnd + 1 ≤ lines.length := by omega
  have hfits : ((lines.drop first).take (renderEnd + 1 - first)).any
      (fun line => decide ((text.cells line).length > width)) = false := by
    rw [List.any_eq_false]
    intro line hmem
    have := hfit line (List.mem_of_mem_drop (List.mem_of_mem_take hmem))
    rw [decide_eq_true_eq]
    omega
  obtain ⟨append, hdef⟩ : ∃ append : Bool, append = decide (lines.length > s.previousLines.length
      ∧ first = s.previousLines.length ∧ first > 0) := ⟨_, rfl⟩
  have happend : append = true ↔ lines.length > s.previousLines.length
      ∧ first = s.previousLines.length ∧ first > 0 := by
    rw [hdef, decide_eq_true_eq]
  -- the row to move to is on the screen, so nothing is scrolled in
  have hscroll : (if append then first - 1 else first) - (s.previousViewportTop + height - 1) = 0 := by
    split
    · omega
    · next hno =>
      have : ¬ (lines.length > s.previousLines.length ∧ first = s.previousLines.length
        ∧ first > 0) := fun hyes => hno (happend.2 hyes)
      omega
  obtain ⟨t₁, hrun₁, hwf₁, hrow₁, hrows₁⟩ := @run_rendered L C text width height blank s t h
    hne lines hfit first renderEnd (by omega) hold (by omega) (by omega) append happend
  have hstretch := @rowsOf_changed L C text width blank s.previousLines lines first renderEnd below
    hold (by omega) hbefore fun _ i hi => by
      by_cases hlong : lines.length > s.previousLines.length
      · have := hlonger hlong
        rw [if_neg (by omega), List.getElem?_eq_none (by omega)]
      · rw [← hafter i (by omega)]
        split
        · rfl
        · exact List.getElem?_eq_none (by omega)
  obtain ⟨habove', hbelow'⟩ := hstretch
  rw [hrows, habove'] at hrows₁
  have htake : (rowsOf text width blank (lines.take (renderEnd + 1))).length = renderEnd + 1 := by
    rw [length_rowsOf, List.length_take]
    omega
  -- what is below the written lines is erased where the new lines are fewer
  have hcleared : ∃ t₂, run width height blank t₁ (if s.previousLines.length > lines.length then
        (if renderEnd < lines.length - 1 then [.cud (lines.length - 1 - renderEnd)] else [])
          ++ (List.replicate (s.previousLines.length - lines.length) [.cr, .lf, .el2]).flatten
          ++ [.cuu (s.previousLines.length - lines.length)]
      else []) = t₂ ∧ t₂.WF height ∧ t₂.top + t₂.row = renderEnd
      ∧ t₂.top = max s.previousViewportTop (renderEnd + 1 - height)
      ∧ ∃ count, t₂.rows = rowsOf text width blank lines
        ++ List.replicate count (blankRow width blank) := by
    have hbuffer : (rowsOf text width blank s.previousLines
        ++ List.replicate below (blankRow width blank)).length = t.top + height := by
      rw [← hrows]
      exact h.wf.length_rows
    have hlength₁ := hwf₁.length_rows
    rw [hrows₁, List.length_append, htake, List.length_drop, hbuffer] at hlength₁
    have hsplit : rowsOf text width blank lines = rowsOf text width blank (lines.take (renderEnd + 1))
        ++ rowsOf text width blank (lines.drop (renderEnd + 1)) := by
      rw [rowsOf, rowsOf, rowsOf, ← List.map_append, List.take_append_drop]
    by_cases hshrunk : s.previousLines.length > lines.length
    · have := hshorter hshrunk
      have hwhole : renderEnd + 1 = lines.length := by omega
      rw [if_pos hshrunk, if_neg (by omega), List.nil_append]
      obtain ⟨t₂, hrun₂, hwf₂, htop₂, hrow₂, hrows₂⟩ := run_cleared width blank hwf₁
        (s.previousLines.length - lines.length) hrow₁ (by rw [hwf₁.length_rows]; omega)
      refine ⟨t₂, hrun₂, hwf₂, hrow₂, by omega, s.previousLines.length - lines.length + below, ?_⟩
      have hpast : renderEnd + 1 + (renderEnd + 1 + (s.previousLines.length - lines.length)
          - (renderEnd + 1)) = (rowsOf text width blank s.previousLines).length := by
        rw [length_rowsOf]
        omega
      rw [hrows₂, hrows₁, List.take_left' htake, List.drop_append, htake,
        List.drop_of_length_le (by omega), List.nil_append, List.drop_drop, hpast, List.drop_left,
        hwhole, List.take_length, List.append_assoc, List.replicate_append_replicate]
    · rw [if_neg hshrunk]
      obtain ⟨count, hcount⟩ := hbelow' (by omega)
      refine ⟨t₁, rfl, hwf₁, hrow₁, by omega, count, ?_⟩
      rw [hrows₁, hcount, hsplit, List.append_assoc]
  obtain ⟨t₂, hrun₂, hwf₂, hrow₂, htop₂, hrows₂⟩ := hcleared
  have hfinal : (if s.previousLines.length > lines.length ∧ renderEnd < lines.length - 1 then
      lines.length - 1 else renderEnd) = renderEnd := by
    split
    · omega
    · rfl
  have hdiff : ∀ row : Nat, ((row : Int) - s.previousViewportTop)
      - ((s.hardwareCursorRow : Int) - s.previousViewportTop) = (row : Int) - s.hardwareCursorRow := by
    intro row
    omega
  unfold renderChanged
  simp only [hrenderEnd, ← hdef, hscroll, hfits, hfinal, Nat.lt_irrefl, gt_iff_lt, if_false,
    Nat.add_zero, hdiff, List.nil_append, Bool.false_eq_true]
  refine ⟨_, _, rfl, rfl, ?_⟩
  rw [run_append, run_append, hrun₁]
  rw [hrun₂]
  have hfinish := @inv_finish L C text width height blank { s with
    cursorRow := lines.length - 1
    hardwareCursorRow := renderEnd
    maxLinesRendered := max s.maxLinesRendered lines.length
    previousViewportTop := max s.previousViewportTop (renderEnd + 1 - height) } t₂ lines hwf₂ hrows₂
    htop₂ hrow₂
  refine hfinish ?_ ?_ ?_
  · intro hnil
    rw [hnil] at hfirst
    exact absurd hfirst (Nat.not_lt_zero _)
  · intro _
    omega
  · intro row col hsome
    obtain ⟨hfrom, hto⟩ := hposition row col hsome
    refine ⟨?_, hto, Nat.lt_of_lt_of_le hto (length_le_of_rows hwf₂ hrows₂)⟩
    rw [htop₂]
    exact Nat.max_le.2 ⟨hscreen row col hsome, Nat.sub_le_of_le_add (Nat.le_trans hend hfrom)⟩

/-! ## Runs of frames -/

variable (text width height) in
/-- What makes a render on a terminal of the same size write all lines again. -/
def Redrawn (s : RenderState L) (frame : Frame L) : Prop :=
  s.previousLines.length = 0
    ∨ (frame.clearOnShrink ∧ (newLines text height frame).length < s.maxLinesRendered
      ∧ !frame.hasOverlayEntries)
    ∨ match changedRange s.previousLines (newLines text height frame) with
      | none => False
      | some (first, _) =>
        if first ≥ (newLines text height frame).length then
          s.previousLines.length > (newLines text height frame).length
            ∧ ((newLines text height frame).length - 1 < s.previousViewportTop
              ∨ s.previousLines.length - (newLines text height frame).length > height)
        else first < s.previousViewportTop

variable (text height) in
/-- The marker is not above the screen of the render before, unless all lines are written again. -/
def MarkerVisible (s : RenderState L) (frame : Frame L) : Prop :=
  Redrawn text height s frame
    ∨ ∀ row col, cursorPos text height frame = some (row, col) → s.previousViewportTop ≤ row

variable (text width height) in
def Fits (frame : Frame L) : Prop :=
  ∀ line ∈ newLines text height frame, (text.cells line).length ≤ width

omit [DecidableEq L] in
theorem inv_begin (hheight : 0 < height) :
    Inv text width height blank (begin (L := L) width height blank).1
      (begin (L := L) width height blank).2 where
  wf := wf_start hheight
  rows := ⟨height, rfl⟩
  top := rfl
  cursor := rfl
  begun := fun _ => ⟨rfl, rfl, rfl⟩
  inside := fun h => absurd rfl h
  previousWidth := .inl rfl
  previousHeight := .inl rfl

omit [DecidableEq L] in
theorem Inv.eq_start {s : RenderState L} {t : Display C} (h : Inv text width height blank s t)
    (hnil : s.previousLines = []) : t = start width height blank := by
  obtain ⟨htop, hrow, hcol⟩ := h.begun hnil
  obtain ⟨count, hrows⟩ := h.rows
  have hlength := h.wf.length_rows
  rw [hnil, rowsOf, List.map_nil, List.nil_append] at hrows
  rw [hrows, List.length_replicate, htop, Nat.zero_add] at hlength
  rw [hlength] at hrows
  cases t
  simp only at hrows htop hrow hcol
  rw [hrows, htop, hrow, hcol]
  rfl

/-- **A render** never fails, and the terminal shows its lines. -/
theorem inv_doRender (hheight : 0 < height) {s : RenderState L} {t : Display C}
    (h : Inv text width height blank s t) {frame : Frame L} (hfit : Fits text width height frame)
    (hvisible : MarkerVisible text height s frame) :
    ∃ s' output, doRender text width height s frame = some (s', output)
      ∧ s'.previousLines = newLines text height frame
      ∧ Inv text width height blank s' (run width height blank t output) := by
  have hposition : ∀ row col, cursorPos text height frame = some (row, col) →
      (newLines text height frame).length ≤ row + height
        ∧ row < (newLines text height frame).length := fun row col => cursorPos_bound
  have hwidth : decide (s.previousWidth ≠ 0 ∧ s.previousWidth ≠ width) = false := by
    rw [decide_eq_false_iff_not]
    obtain hzero | hsame := h.previousWidth
    · exact fun hchanged => hchanged.1 hzero
    · exact fun hchanged => hchanged.2 hsame
  have hheightSame : decide (s.previousHeight ≠ 0 ∧ s.previousHeight ≠ height) = false := by
    rw [decide_eq_false_iff_not]
    obtain hzero | hsame := h.previousHeight
    · exact fun hchanged => hchanged.1 hzero
    · exact fun hchanged => hchanged.2 hsame
  have hredraw := @inv_fullRender L C text width height blank hheight s t true h.wf nofun
    (newLines text height frame) hfit (cursorPos text height frame) hposition
  rw [doRender]
  simp only [hwidth, hheightSame, Bool.not_false, and_true, Bool.false_eq_true, if_false,
    false_and]
  by_cases hnil : s.previousLines.length = 0
  · rw [if_pos hnil]
    obtain ⟨hlines, hinv⟩ := @inv_fullRender L C text width height blank hheight s t false h.wf
      (fun _ => h.eq_start (List.length_eq_zero_iff.1 hnil)) (newLines text height frame) hfit
      (cursorPos text height frame) hposition
    exact ⟨_, _, rfl, hlines, hinv⟩
  rw [if_neg hnil]
  split
  · exact ⟨_, _, rfl, hredraw.1, hredraw.2⟩
  next hkept =>
  -- what is left of the two ways in which the marker is visible
  have hrest := hvisible.imp_left fun hredrawn =>
    (hredrawn.resolve_left hnil).resolve_left hkept
  have hne : s.previousLines ≠ [] := fun hempty => hnil (List.length_eq_zero_iff.2 hempty)
  cases hrange : changedRange s.previousLines (newLines text height frame) with
  | none =>
    have hsame := changedRange_none hrange
    have hscreen := hrest.resolve_left (by rw [hrange]; exact id)
    refine ⟨_, _, rfl, ?_, ?_⟩
    · rw [positionHardwareCursor_state]
      exact hsame
    · rw [← hsame] at hposition ⊢
      exact inv_unchanged h fun row col hsome =>
        ⟨h.top ▸ hscreen row col hsome, (hposition row col hsome).2⟩
  | some range =>
    obtain ⟨first, last⟩ := range
    simp only [hrange] at hrest ⊢
    obtain ⟨hle, hold, hlast, hlonger, hshorter, hbefore, hafter⟩ := changedRange_some hrange
    split
    · next hdeleted =>
      rw [if_pos hdeleted] at hrest
      obtain ⟨hlines, hinv⟩ := inv_renderDeleted hheight h hfit
        (fun i hi => hbefore i (by omega)) (by omega) hposition hrest
      exact ⟨_, _, rfl, hlines, hinv⟩
    next hshown =>
    rw [if_neg hshown] at hrest
    split
    · exact ⟨_, _, rfl, hredraw.1, hredraw.2⟩
    next habove =>
    exact inv_renderChanged hheight h hne hfit hrange (by omega) (by omega) hposition
      (hrest.resolve_left habove)

variable (text height blank) in
def AllVisible (width : Nat) (state : RenderState L × Display C) : List (Frame L) → Prop
  | [] => True
  | frame :: frames => MarkerVisible text height state.1 frame
    ∧ ∀ next, renderFrame text width height blank state frame = some next →
      AllVisible width next frames

variable (text width height blank) in
/-- The terminal shows the frame's lines from the first one on with blank rows below them, the
screen is the rows from `previousViewportTop` on, and the cursor is where the renderer believes. -/
def Shown (frame : Frame L) (state : RenderState L × Display C) : Prop :=
  (∃ count, state.2.rows = rowsOf text width blank (newLines text height frame)
      ++ List.replicate count (blankRow width blank))
    ∧ state.2.top = state.1.previousViewportTop
    ∧ state.2.rows.length = state.1.previousViewportTop + height
    ∧ (state.2.row : Int) = state.1.hardwareCursorRow - state.1.previousViewportTop

theorem inv_renderFrames (hheight : 0 < height) {frames : List (Frame L)}
    (hfits : ∀ frame ∈ frames, Fits text width height frame)
    {state : RenderState L × Display C} (h : Inv text width height blank state.1 state.2)
    (hvisible : AllVisible text height blank width state frames) :
    ∃ last, renderFrames text width height blank state frames = some last
      ∧ Inv text width height blank last.1 last.2
      ∧ ∀ frame, frames.getLast? = some frame →
        last.1.previousLines = newLines text height frame := by
  induction frames generalizing state with
  | nil => exact ⟨state, rfl, h, nofun⟩
  | cons frame frames ih =>
    obtain ⟨hmarker, hnext⟩ := hvisible
    obtain ⟨s', output, hrender, hlines, hinv⟩ :=
      inv_doRender hheight h (hfits frame List.mem_cons_self) hmarker
    have hstep : renderFrame text width height blank state frame
        = some (s', run width height blank state.2 output) := by
      rw [renderFrame, hrender]
      rfl
    obtain ⟨last, hrun, hinv', hshown⟩ := @ih (fun f hf => hfits f (List.mem_cons_of_mem _ hf))
      (s', run width height blank state.2 output) hinv (hnext _ hstep)
    refine ⟨last, ?_, hinv', ?_⟩
    · rw [renderFrames, List.foldlM_cons, hstep]
      exact hrun
    · intro f hlast
      cases frames with
      | nil =>
        obtain rfl := Option.some.inj hlast
        obtain rfl := Option.some.inj hrun
        exact hlines
      | cons next rest => exact hshown f hlast

/-- **After every render** of a run whose markers are visible, the terminal shows the frame, and the
cursor is where the renderer believes it is. -/
theorem shown_of_visible (hheight : 0 < height) {frames : List (Frame L)}
    (hfits : ∀ frame ∈ frames, Fits text width height frame)
    (hvisible : AllVisible text height blank width (begin width height blank) frames) :
    ∃ last, renderFrames text width height blank (begin width height blank) frames = some last
      ∧ ∀ frame, frames.getLast? = some frame → Shown text width height blank frame last := by
  obtain ⟨last, hrun, hinv, hlines⟩ :=
    inv_renderFrames hheight hfits (inv_begin hheight) hvisible
  refine ⟨last, hrun, fun frame hlast => ⟨?_, hinv.top, ?_, ?_⟩⟩
  · rw [← hlines frame hlast]
    exact hinv.rows
  · rw [hinv.wf.length_rows, hinv.top]
  · have := hinv.cursor
    have := hinv.top
    omega

end

def cellText : LineText (Nat × Option Nat) Nat where
  marker := fun line => line.2.map fun col => (col, (line.1, none))
  reset := id
  cells := fun line => [line.1]

def cellFrame (lines : List (Nat × Option Nat)) : Frame (Nat × Option Nat) where
  lines := lines
  clearOnShrink := false
  hasOverlayEntries := false
  termux := false

/-- Five lines on a screen of three rows, and then four with the cursor on the last of them. -/
def shrinking : List (Frame (Nat × Option Nat)) :=
  [cellFrame [(1, none), (2, none), (3, none), (4, none), (5, some 0)],
    cellFrame [(1, none), (2, none), (3, none), (4, some 0)]]

theorem shown_shrunk : ∃ last,
    renderFrames cellText 1 3 0 (begin 1 3 0) shrinking = some last
      ∧ Shown cellText 1 3 0 (cellFrame [(1, none), (2, none), (3, none), (4, some 0)]) last := by
  have hfits : ∀ frame ∈ shrinking, Fits cellText 1 3 frame := fun frame _ line _ => Nat.le_refl 1
  have hvisible : AllVisible cellText 3 0 1 (begin 1 3 0) shrinking := by
    refine ⟨.inl (.inl rfl), fun next hnext => ⟨.inr fun row col hpos => ?_, fun _ _ => trivial⟩⟩
    have htop : (renderFrame cellText 1 3 0 (begin 1 3 0)
        (cellFrame [(1, none), (2, none), (3, none), (4, none), (5, some 0)])).map
          (·.1.previousViewportTop) = some 2 := by decide +kernel
    rw [hnext] at htop
    have hrow : cursorPos cellText 3 (cellFrame [(1, none), (2, none), (3, none), (4, some 0)])
        = some (3, 0) := rfl
    cases hrow.symm.trans hpos
    have htop : next.1.previousViewportTop = 2 := Option.some.inj htop
    omega
  obtain ⟨last, hrun, hshown⟩ := shown_of_visible (by decide) hfits hvisible
  exact ⟨last, hrun, hshown _ rfl⟩

/-- The five lines have become four, and the cursor goes up to a line that has scrolled off: the
move stops at the top row, and the next change of a line is written one row too low. -/
theorem shown_fails :
    (renderFrames cellText 1 3 0 (begin 1 3 0)
        [cellFrame [(1, none), (2, none), (3, none), (4, none), (5, some 0)],
          cellFrame [(1, none), (2, none), (3, none), (4, some 0)],
          cellFrame [(1, none), (2, some 0), (3, none), (4, none)]]).map
      (fun state => (state.2.row, state.1.hardwareCursorRow, state.1.previousViewportTop))
        = some (0, 1, 2)
      ∧ (renderFrames cellText 1 3 0 (begin 1 3 0)
        [cellFrame [(1, none), (2, none), (3, none), (4, none), (5, some 0)],
          cellFrame [(1, none), (2, none), (3, none), (4, some 0)],
          cellFrame [(1, none), (2, some 0), (3, none), (4, none)],
          cellFrame [(1, none), (2, some 0), (7, none), (4, none)]]).map
      (fun state => state.2.rows) = some [[1], [2], [3], [7], [0]] := by
  decide +kernel

end ThreeXhaust.Tui.MainScreen
