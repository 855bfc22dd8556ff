import ThreeXhaust.Lib.Terminal
import ThreeXhaust.Lib.Run

/-!
# Differential rendering on the main screen

`tui-main-screen.ts`: `doRender` writes a frame's lines to the terminal, either all of them or only
those that changed, with moves relative to where it believes the cursor is. A frame has no image
lines here, so nothing is said of their rows.

* `doRender` — the frame's lines and cursor, what is written for them, and the new state.
* `renderFrames` — frames rendered one after the other on the terminal.
-/

namespace ThreeXhaust.Tui.MainScreen

open Lib.Terminal

/-! ## The source -/

/-- What the string functions and the terminal make of a rendered line. -/
structure LineText (L C : Type) where
  /-- The visual column of `CURSOR_MARKER`, and the line without it. -/
  marker : L → Option (Nat × L)
  /-- `applyLineResets` on a line, which is never empty then. -/
  reset : L → L
  /-- What the line shows, one cell for each column of its visible width. -/
  cells : L → List C

structure RenderState (L : Type) where
  previousLines : List L
  previousWidth : Int
  previousHeight : Int
  cursorRow : Nat
  hardwareCursorRow : Nat
  maxLinesRendered : Nat
  previousViewportTop : Nat

def RenderState.initial {L : Type} : RenderState L where
  previousLines := []
  previousWidth := 0
  previousHeight := 0
  cursorRow := 0
  hardwareCursorRow := 0
  maxLinesRendered := 0
  previousViewportTop := 0

/-- The lines with overlays composited, and the settings that a render reads. -/
structure Frame (L : Type) where
  lines : List L
  clearOnShrink : Bool
  hasOverlayEntries : Bool
  termux : Bool

section
variable {L C : Type} (text : LineText L C) (width height : Nat)

/-- The last marker of the bottom `height` lines, and the lines without it. -/
def extractCursorPosition (lines : List L) : List L × Option (Nat × Nat) :=
  let viewportTop := lines.length - height
  let rows := ((List.range lines.length).drop viewportTop).reverse
  match rows.findSome? fun row => (lines[row]?.bind text.marker).map fun found => (row, found) with
  | some (row, (col, line)) => (lines.set row line, some (row, col))
  | none => (lines, none)

def newLines (frame : Frame L) : List L :=
  (extractCursorPosition text height frame.lines).1.map text.reset

def cursorPos (frame : Frame L) : Option (Nat × Nat) :=
  (extractCursorPosition text height frame.lines).2

def positionHardwareCursor (s : RenderState L) (cursorPos : Option (Nat × Nat)) (totalLines : Nat) :
    RenderState L × List (Command C) :=
  match cursorPos with
  | none => (s, [])
  | some (row, col) =>
    if totalLines = 0 then (s, [])
    else
      let targetRow := min row (totalLines - 1)
      ({ s with hardwareCursorRow := targetRow },
        moves ((targetRow : Int) - s.hardwareCursorRow) ++ [.cha (col + 1)])

/-- The loop that writes lines, with a line feed before each but the first. -/
def writeLines (clear : Bool) : List L → List (Command C)
  | [] => []
  | line :: rest =>
    writeRow clear (text.cells line)
      ++ rest.flatMap fun line => [.cr, .lf] ++ writeRow clear (text.cells line)

def fullRender (clear : Bool) (s : RenderState L) (newLines : List L)
    (cursorPos : Option (Nat × Nat)) : RenderState L × List (Command C) :=
  let output := (if clear then [.ed2, .home, .ed3] else []) ++ writeLines text false newLines
  let cursorRow := newLines.length - 1
  let bufferLength := max height newLines.length
  let s := { s with
    cursorRow
    hardwareCursorRow := cursorRow
    maxLinesRendered := if clear then newLines.length else max s.maxLinesRendered newLines.length
    previousViewportTop := bufferLength - height }
  let (s, moved) := positionHardwareCursor s cursorPos newLines.length
  ({ s with previousLines := newLines, previousWidth := width, previousHeight := height },
    output ++ moved)

variable [DecidableEq L] in
/-- A step of the loop over the lines. A line that is not there differs from every line, as no line
is empty. -/
def noteChange (previousLines newLines : List L) (changed : Option (Nat × Nat)) (i : Nat) :
    Option (Nat × Nat) :=
  if previousLines[i]? ≠ newLines[i]? then some ((changed.map Prod.fst).getD i, i) else changed

variable [DecidableEq L] in
/-- `firstChanged` and `lastChanged`. -/
def changedRange (previousLines newLines : List L) : Option (Nat × Nat) :=
  let maxLines := max newLines.length previousLines.length
  let changed := (List.range maxLines).foldl (noteChange previousLines newLines) none
  if newLines.length > previousLines.length then
    some ((changed.map Prod.fst).getD previousLines.length, newLines.length - 1)
  else changed

def renderDeleted (s : RenderState L) (prevViewportTop : Nat) (newLines : List L)
    (cursorPos : Option (Nat × Nat)) : RenderState L × List (Command C) :=
  let finish (s : RenderState L) (output : List (Command C)) :=
    let (s, moved) := positionHardwareCursor s cursorPos newLines.length
    ({ s with
        previousLines := newLines
        previousWidth := width
        previousHeight := height
        previousViewportTop := prevViewportTop }, output ++ moved)
  if s.previousLines.length > newLines.length then
    let targetRow := newLines.length - 1
    let extraLines := s.previousLines.length - newLines.length
    if targetRow < prevViewportTop then fullRender text width height true s newLines cursorPos
    else if extraLines > height then fullRender text width height true s newLines cursorPos
    else
      let clearStartOffset := if newLines.length = 0 then 0 else 1
      let moveBack := extraLines - 1 + clearStartOffset
      finish { s with cursorRow := targetRow, hardwareCursorRow := targetRow }
        (moves ((targetRow : Int) - s.hardwareCursorRow) ++ [.cr]
          ++ (if clearStartOffset > 0 then [.cud clearStartOffset] else [])
          ++ clearRows extraLines
          ++ (if moveBack > 0 then [.cuu moveBack] else []))
  else finish s []

/-- The lines from the first to the last changed one are written; `none` where one of them is too
wide for the terminal. -/
def renderChanged (s : RenderState L) (prevViewportTop : Nat) (newLines : List L)
    (cursorPos : Option (Nat × Nat)) (firstChanged lastChanged : Nat) :
    Option (RenderState L × List (Command C)) :=
  let appendStart := decide (newLines.length > s.previousLines.length
    ∧ firstChanged = s.previousLines.length ∧ firstChanged > 0)
  let moveTargetRow := if appendStart then firstChanged - 1 else firstChanged
  -- rows that are not on the screen yet are scrolled in
  let scroll := moveTargetRow - (prevViewportTop + height - 1)
  let currentScreenRow :=
    max 0 (min ((height : Int) - 1) ((s.hardwareCursorRow : Int) - prevViewportTop))
  let moveToBottom := (height : Int) - 1 - currentScreenRow
  let scrolled := if scroll > 0 then
      (if moveToBottom > 0 then [.cud moveToBottom.toNat] else [])
        ++ (List.replicate scroll [.cr, .lf]).flatten
    else []
  let viewportTop := prevViewportTop + scroll
  let hardwareCursorRow := if scroll > 0 then moveTargetRow else s.hardwareCursorRow
  let lineDiff := ((moveTargetRow : Int) - viewportTop) - ((hardwareCursorRow : Int) - viewportTop)
  let renderEnd := min lastChanged (newLines.length - 1)
  let rendered := (newLines.drop firstChanged).take (renderEnd + 1 - firstChanged)
  if rendered.any fun line => decide ((text.cells line).length > width) then none
  else
    let shrunk := s.previousLines.length > newLines.length
    let extraLines := s.previousLines.length - newLines.length
    let cleared := if shrunk then
        (if renderEnd < newLines.length - 1 then [.cud (newLines.length - 1 - renderEnd)] else [])
          ++ (List.replicate extraLines [.cr, .lf, .el2]).flatten ++ [.cuu extraLines]
      else []
    let finalCursorRow := if shrunk ∧ renderEnd < newLines.length - 1 then newLines.length - 1
      else renderEnd
    let s := { s with
      cursorRow := newLines.length - 1
      hardwareCursorRow := finalCursorRow
      maxLinesRendered := max s.maxLinesRendered newLines.length
      previousViewportTop := max viewportTop (finalCursorRow + 1 - height) }
    let (s, moved) := positionHardwareCursor s cursorPos newLines.length
    some ({ s with previousLines := newLines, previousWidth := width, previousHeight := height },
      scrolled ++ moves lineDiff ++ (if appendStart then [.cr, .lf] else [.cr])
        ++ writeLines text true rendered ++ cleared ++ moved)

variable [DecidableEq L]

def doRender (s : RenderState L) (frame : Frame L) : Option (RenderState L × List (Command C)) :=
  let widthChanged := decide (s.previousWidth ≠ 0 ∧ s.previousWidth ≠ width)
  let heightChanged := decide (s.previousHeight ≠ 0 ∧ s.previousHeight ≠ height)
  let previousBufferLength :=
    if s.previousHeight > 0 then s.previousViewportTop + s.previousHeight.toNat else height
  let prevViewportTop :=
    if heightChanged then previousBufferLength - height else s.previousViewportTop
  let lines := newLines text height frame
  let position := cursorPos text height frame
  if s.previousLines.length = 0 ∧ !widthChanged ∧ !heightChanged then
    some (fullRender text width height false s lines position)
  else if widthChanged then some (fullRender text width height true s lines position)
  else if heightChanged ∧ !frame.termux then
    some (fullRender text width height true s lines position)
  else if frame.clearOnShrink ∧ lines.length < s.maxLinesRendered ∧ !frame.hasOverlayEntries then
    some (fullRender text width height true s lines position)
  else
    match changedRange s.previousLines lines with
    | none =>
      let (s, moved) := positionHardwareCursor s position lines.length
      some ({ s with previousViewportTop := prevViewportTop, previousHeight := height }, moved)
    | some (firstChanged, lastChanged) =>
      if firstChanged ≥ lines.length then
        some (renderDeleted text width height s prevViewportTop lines position)
      else if firstChanged < prevViewportTop then
        some (fullRender text width height true s lines position)
      else renderChanged text width height s prevViewportTop lines position firstChanged lastChanged

/-! ## Frames on a terminal -/

variable (blank : C)

/-- A frame is rendered, and the terminal does what is written to it. -/
def renderFrame (state : RenderState L × Display C) (frame : Frame L) :
    Option (RenderState L × Display C) := do
  let (s, output) ← doRender text width height state.1 frame
  some (s, run width height blank state.2 output)

def renderFrames (state : RenderState L × Display C) (frames : List (Frame L)) :
    Option (RenderState L × Display C) :=
  frames.foldlM (renderFrame text width height blank) state

omit [DecidableEq L] in
/-- The first render is on a blank terminal, with the cursor at the top left. -/
def begin : RenderState L × Display C := (.initial, start width height blank)

end

end ThreeXhaust.Tui.MainScreen
