import Mathlib.Data.List.Basic

/-!
# A terminal

The rows of a terminal of fixed size, of which the last ones are on its screen and those above have
scrolled off, and what the usual control sequences do to them. Moves stop at the edges of the screen
without a word; a line feed on the bottom row scrolls.

* **`exec_moves`** — a move that stays on the screen ends where it is told.
* **`exec_appendRows`** — rows written below the cursor, line feed by line feed, whether or not they
  scroll.
* **`exec_clearRows`** — rows that are cleared from the cursor down.
-/

namespace ThreeXhaust.Lib.Terminal

/-- The scrollback is the first `top` rows, and the screen is the rest. A column past the last one
is a wrap that is due with the next cell. -/
structure Display (C : Type) where
  rows : List (List C)
  top : Nat
  row : Nat
  col : Nat
deriving DecidableEq

/-- The control sequences. -/
inductive Command (C : Type) where
  | print (cells : List C)
  | cr
  | lf
  /-- Up, down, and to a column, which is counted from one. -/
  | cuu (count : Nat)
  | cud (count : Nat)
  | cha (col : Nat)
  /-- The cursor's row, the screen and the scrollback are erased. -/
  | el2
  | ed2
  | ed3
  | home
deriving DecidableEq

section
variable {C : Type} (width height : Nat) (blank : C)

def blankRow : List C := List.replicate width blank

def padded (cells : List C) : List C := cells ++ List.replicate (width - cells.length) blank

def start : Display C where
  rows := List.replicate height (blankRow width blank)
  top := 0
  row := 0
  col := 0

def lineFeed (t : Display C) : Display C :=
  if t.row + 1 < height then { t with row := t.row + 1 }
  else { t with rows := t.rows ++ [blankRow width blank], top := t.top + 1 }

def putCell (t : Display C) (cell : C) : Display C :=
  let t := if t.col < width then t else { lineFeed width height blank t with col := 0 }
  { t with rows := t.rows.modify (t.top + t.row) (·.set t.col cell), col := t.col + 1 }

def exec (t : Display C) : Command C → Display C
  | .print cells => cells.foldl (putCell width height blank) t
  | .cr => { t with col := 0 }
  | .lf => lineFeed width height blank t
  | .cuu count => { t with row := t.row - count, col := min t.col (width - 1) }
  | .cud count => { t with row := min (t.row + count) (height - 1), col := min t.col (width - 1) }
  | .cha col => { t with col := min (col - 1) (width - 1) }
  | .el2 => { t with rows := t.rows.set (t.top + t.row) (blankRow width blank) }
  | .ed2 => { t with rows := t.rows.take t.top ++ List.replicate height (blankRow width blank) }
  | .ed3 => { t with rows := t.rows.drop t.top, top := 0 }
  | .home => { t with row := 0, col := 0 }

def run (t : Display C) (commands : List (Command C)) : Display C :=
  commands.foldl (exec width height blank) t

/-- The rows fill the screen, and the cursor is on it. -/
structure Display.WF (t : Display C) : Prop where
  length_rows : t.rows.length = t.top + height
  row_lt : t.row < height

def moves (count : Int) : List (Command C) :=
  if count > 0 then [.cud count.toNat] else if count < 0 then [.cuu (-count).toNat] else []

variable {width height : Nat} {blank : C}

@[simp] theorem run_nil (t : Display C) : run width height blank t [] = t := rfl

@[simp] theorem run_cons (t : Display C) (command : Command C) (commands : List (Command C)) :
    run width height blank t (command :: commands)
      = run width height blank (exec width height blank t command) commands := rfl

theorem run_append (t : Display C) (xs ys : List (Command C)) :
    run width height blank t (xs ++ ys)
      = run width height blank (run width height blank t xs) ys := List.foldl_append

/-! ## Moves -/

variable (width blank) in
/-- **A move on the screen** ends where it is told. -/
theorem run_moves {t : Display C} (h : t.WF height) (count : Int) (hfrom : 0 ≤ t.row + count)
    (hto : t.row + count < height) :
    ∃ t', run width height blank t (moves count) = t' ∧ t'.rows = t.rows ∧ t'.top = t.top
      ∧ (t'.row : Int) = t.row + count ∧ t'.WF height ∧ (t.col = 0 → t'.col = 0) := by
  have hrow := h.row_lt
  have hlength := h.length_rows
  unfold moves
  split
  · refine ⟨_, rfl, rfl, rfl, ?_, ⟨hlength, ?_⟩, ?_⟩
    · simp only [run_cons, run_nil, exec]
      omega
    · simp only [run_cons, run_nil, exec]
      omega
    · intro hcol
      simp [exec, hcol]
  split
  · refine ⟨_, rfl, rfl, rfl, ?_, ⟨hlength, ?_⟩, ?_⟩
    · simp only [run_cons, run_nil, exec]
      omega
    · simp only [run_cons, run_nil, exec]
      omega
    · intro hcol
      simp [exec, hcol]
  · refine ⟨t, rfl, rfl, rfl, ?_, h, id⟩
    omega

/-! ## Rows -/

theorem padded_nil : padded width blank [] = blankRow width blank := rfl

/-- Cells that fit are put in their row. -/
theorem foldl_putCell (cells done : List C) {t : Display C} (hlt : t.top + t.row < t.rows.length)
    (hrow : t.rows[t.top + t.row]? = some (padded width blank done)) (hcol : t.col = done.length)
    (hfit : done.length + cells.length ≤ width) :
    cells.foldl (putCell width height blank) t
      = { t with
          rows := t.rows.set (t.top + t.row) (padded width blank (done ++ cells))
          col := done.length + cells.length } := by
  induction cells generalizing done t with
  | nil =>
    obtain ⟨_, hget⟩ := List.getElem?_eq_some_iff.1 hrow
    rw [List.foldl_nil, List.append_nil, ← hget, List.set_getElem_self]
    cases t
    simp only at hcol ⊢
    rw [hcol]
    rfl
  | cons cell rest ih =>
    rw [List.length_cons] at hfit
    have hput : putCell width height blank t cell
        = { t with
            rows := t.rows.set (t.top + t.row) (padded width blank (done ++ [cell]))
            col := done.length + 1 } := by
      rw [putCell, if_pos (by omega), hcol]
      congr 1
      apply List.ext_getElem?
      intro i
      rw [List.getElem?_modify, List.getElem?_set]
      by_cases hi : t.top + t.row = i
      · subst hi
        have hpadded : (padded width blank done).set done.length cell
            = padded width blank (done ++ [cell]) := by
          have hroom : width - done.length = (width - (done.length + 1)) + 1 := by omega
          rw [padded, padded, hroom, List.replicate_succ, List.set_append_right _ _ (Nat.le_refl _),
            Nat.sub_self, List.set_cons_zero, List.length_append, List.length_singleton,
            List.append_assoc]
          rfl
        obtain ⟨_, hget⟩ := List.getElem?_eq_some_iff.1 hrow
        simp [hlt, hget, hpadded]
      · simp [hi]
    have hnext := @ih (done ++ [cell]) (putCell width height blank t cell)
    rw [hput] at hnext
    rw [List.foldl_cons, hput, hnext]
    · have hcells : done ++ [cell] ++ rest = done ++ cell :: rest := by simp
      have hcount : (done ++ [cell]).length + rest.length = done.length + (cell :: rest).length := by
        simp only [List.length_append, List.length_cons, List.length_nil]
        omega
      simp only [hcells, hcount, List.set_set]
    · simp only [List.length_set]
      exact hlt
    · simp only
      rw [List.getElem?_set_self hlt]
    · simp
    · rw [List.length_append, List.length_singleton]
      omega

theorem exec_print {t : Display C} (h : t.WF height)
    (hrow : t.rows[t.top + t.row]? = some (blankRow width blank)) (hcol : t.col = 0)
    {cells : List C} (hfit : cells.length ≤ width) :
    exec width height blank t (.print cells)
      = { t with
          rows := t.rows.set (t.top + t.row) (padded width blank cells)
          col := cells.length } := by
  have hlt := h.row_lt
  have hlength := h.length_rows
  have hput := @foldl_putCell C width height blank cells [] t (by omega) hrow hcol
    (by simpa using hfit)
  rw [List.nil_append, List.length_nil, Nat.zero_add] at hput
  exact hput

def writeRow (clear : Bool) (cells : List C) : List (Command C) :=
  (if clear then [.el2] else []) ++ [.print cells]

/-- **One row.** -/
theorem run_writeRow {t : Display C} (h : t.WF height) (hcol : t.col = 0) {clear : Bool}
    (hblank : clear = false → t.rows[t.top + t.row]? = some (blankRow width blank))
    {cells : List C} (hfit : cells.length ≤ width) :
    run width height blank t (writeRow clear cells)
      = { t with
          rows := t.rows.set (t.top + t.row) (padded width blank cells)
          col := cells.length } := by
  have hlt := h.row_lt
  have hlength := h.length_rows
  cases clear with
  | false => exact exec_print h (hblank rfl) hcol hfit
  | true =>
    have herased : (exec width height blank t .el2).rows[t.top + t.row]?
        = some (blankRow width blank) := List.getElem?_set_self (by omega)
    have hwf : (exec width height blank t .el2).WF height :=
      ⟨List.length_set.trans hlength, hlt⟩
    refine (exec_print hwf herased hcol hfit).trans ?_
    simp only [exec, List.set_set]

variable (width blank) in
/-- A new line below, where the screen may scroll. -/
theorem run_newline {t : Display C} (h : t.WF height) :
    ∃ t', run width height blank t [.cr, .lf] = t' ∧ t'.WF height ∧ t'.col = 0
      ∧ t'.top + t'.row = t.top + t.row + 1
      ∧ t'.rows = if t.top + t.row + 1 < t.rows.length then t.rows
          else t.rows ++ [blankRow width blank] := by
  have hlt := h.row_lt
  have hlength := h.length_rows
  refine ⟨_, rfl, ?_⟩
  simp only [run_cons, run_nil, exec, lineFeed]
  by_cases hbottom : t.row + 1 < height
  · rw [if_pos hbottom, if_pos (by omega)]
    exact ⟨⟨hlength, hbottom⟩, rfl, by simp only; omega, rfl⟩
  · rw [if_neg hbottom, if_neg (by omega)]
    refine ⟨⟨?_, hlt⟩, rfl, by simp only; omega, rfl⟩
    rw [List.length_append, List.length_singleton]
    simp only
    omega

variable (width blank) in
/-- **Rows below the cursor**, each after a line feed, whether or not they scroll. -/
theorem run_appendRows (clear : Bool) (rows : List (List C)) {t : Display C} (h : t.WF height)
    (hblank : clear = false → ∀ i, t.top + t.row < i → ∀ row, t.rows[i]? = some row →
      row = blankRow width blank)
    (hfit : ∀ cells ∈ rows, cells.length ≤ width) :
    ∃ t', run width height blank t (rows.flatMap fun cells => [.cr, .lf] ++ writeRow clear cells)
        = t' ∧ t'.WF height ∧ t'.top + t'.row = t.top + t.row + rows.length
      ∧ t'.rows = t.rows.take (t.top + t.row + 1) ++ rows.map (padded width blank)
        ++ t.rows.drop (t.top + t.row + 1 + rows.length) := by
  induction rows generalizing t with
  | nil =>
    refine ⟨t, rfl, h, rfl, ?_⟩
    simp
  | cons cells rest ih =>
    have hlt := h.row_lt
    have hlength := h.length_rows
    obtain ⟨t₁, hrun₁, hwf₁, hcol₁, hrow₁, hrows₁⟩ := run_newline width blank h
    have hinside : t₁.top + t₁.row < t₁.rows.length := by
      rw [hwf₁.length_rows]
      have := hwf₁.row_lt
      omega
    have hnew : clear = false →
        t₁.rows[t₁.top + t₁.row]? = some (blankRow width blank) := by
      intro hclear
      rw [hrow₁, hrows₁]
      split
      · next hold =>
        rw [List.getElem?_eq_getElem hold]
        exact congrArg some (hblank hclear _ (by omega) _ (List.getElem?_eq_getElem hold))
      · rw [List.getElem?_append_right (by omega)]
        have hzero : t.top + t.row + 1 - t.rows.length = 0 := by omega
        rw [hzero]
        rfl
    have hwrite := run_writeRow hwf₁ hcol₁ hnew (hfit cells List.mem_cons_self)
    generalize hnext : run width height blank t₁ (writeRow clear cells) = t₂ at hwrite
    -- the row after the cursor is the written one, and the others are as before
    have hrow₂ : t₂.top + t₂.row = t.top + t.row + 1 := by
      rw [hwrite]
      exact hrow₁
    have hrows₂ : t₂.rows = t.rows.take (t.top + t.row + 1) ++ [padded width blank cells]
        ++ t.rows.drop (t.top + t.row + 2) := by
      rw [hwrite]
      simp only
      rw [List.set_eq_take_append_cons_drop, if_pos hinside, hrow₁, hrows₁]
      split
      · rw [List.append_assoc, List.singleton_append]
      · rw [List.take_append_of_le_length (by omega), List.drop_of_length_le, List.append_assoc,
          List.drop_of_length_le (by omega)]
        · rfl
        · rw [List.length_append, List.length_singleton]
          omega
    have hwf₂ : t₂.WF height := by
      rw [hwrite]
      exact ⟨List.length_set.trans hwf₁.length_rows, hwf₁.row_lt⟩
    have htake : (t.rows.take (t.top + t.row + 1)).length = t.top + t.row + 1 := by
      rw [List.length_take]
      omega
    have hblank₂ : clear = false → ∀ i, t₂.top + t₂.row < i → ∀ row, t₂.rows[i]? = some row →
        row = blankRow width blank := by
      intro hclear i hi row hread
      rw [hrow₂] at hi
      rw [hrows₂, List.append_assoc, List.getElem?_append_right (by omega), htake,
        List.getElem?_append_right (by rw [List.length_singleton]; omega), List.length_singleton,
        List.getElem?_drop] at hread
      exact hblank hclear _ (by omega) row hread
    obtain ⟨t', hrun', hwf', hrow', hrows'⟩ := ih hwf₂ hblank₂ fun cells hmem =>
      hfit cells (List.mem_cons_of_mem _ hmem)
    refine ⟨t', ?_, hwf', ?_, ?_⟩
    · rw [List.flatMap_cons, run_append, run_append, hrun₁, hnext, hrun']
    · rw [hrow', hrow₂, List.length_cons]
      omega
    · have hdone : (t.rows.take (t.top + t.row + 1) ++ [padded width blank cells]).length
          = t.top + t.row + 1 + 1 := by
        rw [List.length_append, htake, List.length_singleton]
      rw [hrows', hrow₂, hrows₂, List.take_left' hdone, List.drop_append, hdone,
        List.drop_of_length_le (by omega), List.nil_append, List.drop_drop, List.map_cons,
        List.append_assoc, List.append_assoc, List.append_assoc, List.length_cons]
      have hindex : t.top + t.row + 2
            + (t.top + t.row + 1 + 1 + rest.length - (t.top + t.row + 1 + 1))
          = t.top + t.row + 1 + (rest.length + 1) := by omega
      rw [hindex]
      rfl

variable (width blank) in
/-- **Rows from the cursor's own on**, each after a line feed but the first. -/
theorem run_writeRows (clear : Bool) (cells : List C) (rest : List (List C)) {t : Display C}
    (h : t.WF height) (hcol : t.col = 0)
    (hblank : clear = false → ∀ i, t.top + t.row ≤ i → ∀ row, t.rows[i]? = some row →
      row = blankRow width blank)
    (hfit : ∀ row ∈ cells :: rest, row.length ≤ width) :
    ∃ t', run width height blank t
        (writeRow clear cells ++ rest.flatMap fun cells => [.cr, .lf] ++ writeRow clear cells) = t'
      ∧ t'.WF height ∧ t'.top + t'.row = t.top + t.row + rest.length
      ∧ t'.rows = t.rows.take (t.top + t.row) ++ (cells :: rest).map (padded width blank)
        ++ t.rows.drop (t.top + t.row + 1 + rest.length) := by
  have hlt := h.row_lt
  have hlength := h.length_rows
  have hinside : t.top + t.row < t.rows.length := by omega
  have hown : clear = false → t.rows[t.top + t.row]? = some (blankRow width blank) := by
    intro hclear
    have hread := List.getElem?_eq_getElem hinside
    rw [hread, hblank hclear _ (Nat.le_refl _) _ hread]
  have hwrite := run_writeRow h hcol hown (hfit cells List.mem_cons_self)
  generalize hnext : run width height blank t (writeRow clear cells) = t₁ at hwrite
  have hrow₁ : t₁.top + t₁.row = t.top + t.row := by rw [hwrite]
  have hrows₁ : t₁.rows = t.rows.take (t.top + t.row) ++ [padded width blank cells]
      ++ t.rows.drop (t.top + t.row + 1) := by
    rw [hwrite]
    simp only
    rw [List.set_eq_take_append_cons_drop, if_pos hinside, List.append_assoc, List.singleton_append]
  have hwf₁ : t₁.WF height := by
    rw [hwrite]
    exact ⟨List.length_set.trans hlength, hlt⟩
  have hdone : (t.rows.take (t.top + t.row) ++ [padded width blank cells]).length
      = t.top + t.row + 1 := by
    rw [List.length_append, List.length_take, List.length_singleton]
    omega
  have hblank₁ : clear = false → ∀ i, t₁.top + t₁.row < i → ∀ row, t₁.rows[i]? = some row →
      row = blankRow width blank := by
    intro hclear i hi row hread
    rw [hrow₁] at hi
    rw [hrows₁, List.getElem?_append_right (by omega), hdone, List.getElem?_drop] at hread
    exact hblank hclear _ (by omega) row hread
  obtain ⟨t', hrun', hwf', hrow', hrows'⟩ := run_appendRows width blank clear rest hwf₁ hblank₁ fun cells hmem =>
    hfit cells (List.mem_cons_of_mem _ hmem)
  refine ⟨t', ?_, hwf', ?_, ?_⟩
  · rw [run_append, hnext, hrun']
  · rw [hrow', hrow₁]
  · have hindex : t.top + t.row + 1 + (t.top + t.row + 1 + rest.length - (t.top + t.row + 1))
        = t.top + t.row + 1 + rest.length := by omega
    rw [hrows', hrow₁, hrows₁, List.take_left' hdone, List.drop_append, hdone,
      List.drop_of_length_le (by omega), List.nil_append, List.drop_drop, hindex, List.map_cons,
      List.append_assoc (t.rows.take _), List.singleton_append]

def clearRows : Nat → List (Command C)
  | 0 => []
  | 1 => [.cr, .el2]
  | count + 2 => [.cr, .el2, .cud 1] ++ clearRows (count + 1)

variable (width blank) in
/-- **Erased rows** on the screen. -/
theorem run_clearRows (count : Nat) {t : Display C} (h : t.WF height)
    (hfit : t.row + count < height) :
    ∃ t', run width height blank t (clearRows (count + 1)) = t' ∧ t'.WF height ∧ t'.top = t.top
      ∧ t'.row = t.row + count ∧ t'.col = 0
      ∧ t'.rows = t.rows.take (t.top + t.row)
        ++ List.replicate (count + 1) (blankRow width blank)
        ++ t.rows.drop (t.top + t.row + (count + 1)) := by
  induction count generalizing t with
  | zero =>
    have hlength := h.length_rows
    refine ⟨_, rfl, ⟨List.length_set.trans hlength, h.row_lt⟩, rfl, rfl, rfl, ?_⟩
    show t.rows.set (t.top + t.row) _ = _
    rw [List.set_eq_take_append_cons_drop, if_pos (by omega), List.append_assoc]
    rfl
  | succ count ih =>
    have hlength := h.length_rows
    generalize hnext : run width height blank t [.cr, .el2, .cud 1] = t₁
    have hrow₁ : t₁.row = t.row + 1 := by
      rw [← hnext]
      show min (t.row + 1) (height - 1) = t.row + 1
      omega
    have htop₁ : t₁.top = t.top := by rw [← hnext]; rfl
    have hrows₁ : t₁.rows = t.rows.take (t.top + t.row) ++ [blankRow width blank]
        ++ t.rows.drop (t.top + t.row + 1) := by
      rw [← hnext]
      show t.rows.set (t.top + t.row) _ = _
      rw [List.set_eq_take_append_cons_drop, if_pos (by omega), List.append_assoc]
      rfl
    have hwf₁ : t₁.WF height := by
      constructor
      · rw [htop₁, ← hlength, ← hnext]
        exact List.length_set
      · omega
    obtain ⟨t', hrun', hwf', htop', hrow', hcol', hrows'⟩ := ih hwf₁ (by omega)
    have hdone : (t.rows.take (t.top + t.row) ++ [blankRow width blank]).length
        = t.top + t.row + 1 := by
      rw [List.length_append, List.length_take, List.length_singleton]
      omega
    have hcursor : t₁.top + t₁.row = t.top + t.row + 1 := by omega
    refine ⟨t', ?_, hwf', by omega, by omega, hcol', ?_⟩
    · rw [clearRows, run_append, hnext, hrun']
    · have hindex : t.top + t.row + 1
            + (t.top + t.row + 1 + (count + 1) - (t.top + t.row + 1))
          = t.top + t.row + (count + 1 + 1) := by omega
      rw [hrows', hcursor, hrows₁, List.take_left' hdone, List.drop_append, hdone,
        List.drop_of_length_le (by omega), List.nil_append, List.drop_drop, hindex,
        List.append_assoc (t.rows.take _), List.singleton_append, List.replicate_succ (n := count + 1)]

theorem run_erase {t : Display C} (h : t.WF height) :
    run width height blank t [.ed2, .home, .ed3] = start width height blank := by
  have hlength := h.length_rows
  have htop : (t.rows.take t.top).length = t.top := by
    rw [List.length_take]
    omega
  simp only [run_cons, run_nil, exec, start]
  rw [List.drop_left' htop]

theorem wf_start (hheight : 0 < height) : (start width height blank).WF height where
  length_rows := by simp [start]
  row_lt := hheight

end

end ThreeXhaust.Lib.Terminal
