import Mathlib.Data.List.Infix

/-!
# Wrapping a line of the editor

`wordWrapLine` of `tui/src/components/editor.ts`, over the segments it gets. What a grapheme is, how
wide a text is and which characters are white space or CJK is given by Unicode and is a parameter
here.
-/

namespace ThreeXhaust.Tui.WordWrap

/-- UTF-16 units. -/
abbrev Text := List UInt16

structure Unicode where
  visibleWidth : Text → Nat
  isWhitespaceChar : Text → Bool
  /-- `cjkBreakRegex.test` -/
  cjkBreak : Text → Bool
  /-- `graphemeSegmenter.segment`, in order. -/
  graphemes : Text → List Text

structure SegmentData where
  segment : Text
  index : Nat
deriving DecidableEq

structure TextChunk where
  text : Text
  startIndex : Nat
  endIndex : Nat
deriving DecidableEq

def slice (text : Text) (start stop : Nat) : Text := (text.take stop).drop start

@[grind =]
def indexed : Nat → List Text → List SegmentData
  | _, [] => []
  | index, piece :: rest => ⟨piece, index⟩ :: indexed (index + piece.length) rest

/-! ## Paste markers -/

def ascii (text : String) : Text := text.toList.map fun c => UInt16.ofNat c.toNat

def isDigit (unit : UInt16) : Bool := 48 ≤ unit && unit ≤ 57

def digits? (text : Text) : Option (Text × Text) :=
  if text.takeWhile isDigit = [] then none
  else some (text.takeWhile isDigit, text.dropWhile isDigit)

/-- `( (\+\d+ lines|\d+ chars))?\]` at the head of a text, and what is behind it. -/
def markerTail? (text : Text) : Option Text :=
  let plain := text.dropPrefix? (ascii "]")
  let lines := (text.dropPrefix? (ascii " +")).bind fun rest =>
    (digits? rest).bind fun found => found.2.dropPrefix? (ascii " lines]")
  let chars := (text.dropPrefix? (ascii " ")).bind fun rest =>
    (digits? rest).bind fun found => found.2.dropPrefix? (ascii " chars]")
  plain.or (lines.or chars)

/-- `\[paste #(\d+)( (\+\d+ lines|\d+ chars))?\]` at the head of a text: the digits of the id, and
what is behind the marker. -/
def pasteMarker? (text : Text) : Option (Text × Text) :=
  (text.dropPrefix? (ascii "[paste #")).bind fun rest =>
    (digits? rest).bind fun found => (markerTail? found.2).map (found.1, ·)

def isPasteMarker (segment : Text) : Bool :=
  10 ≤ segment.length && (pasteMarker? segment).any (·.2 = [])

/-! ## `wordWrapLine` -/

/-- The variables of the loop; `wrapOppIndex` is -1 where there is none. -/
structure Wrap where
  chunks : List TextChunk
  currentWidth : Int
  chunkStart : Nat
  wrapOppIndex : Option Nat
  wrapOppWidth : Int

namespace Wrap

def push (line : Text) (stop : Nat) (s : Wrap) : Wrap :=
  { s with chunks := s.chunks ++ [⟨slice line s.chunkStart stop, s.chunkStart, stop⟩]
           chunkStart := stop }

/-- Room for a segment of width `gWidth` at `charIndex`. -/
def overflow (line : Text) (maxWidth : Nat) (gWidth : Int) (charIndex : Nat) (s : Wrap) : Wrap :=
  if s.currentWidth + gWidth > maxWidth then
    match s.wrapOppIndex with
    | some wrapOppIndex =>
      if s.currentWidth - s.wrapOppWidth + gWidth ≤ maxWidth then
        { s.push line wrapOppIndex with
          currentWidth := s.currentWidth - s.wrapOppWidth
          wrapOppIndex := none }
      else if s.chunkStart < charIndex then
        { s.push line charIndex with currentWidth := 0, wrapOppIndex := none }
      else { s with wrapOppIndex := none }
    | none =>
      if s.chunkStart < charIndex then
        { s.push line charIndex with currentWidth := 0, wrapOppIndex := none }
      else { s with wrapOppIndex := none }
  else s

/-- The pieces of a segment wider than a row: all but the last are chunks, the last one opens the
current chunk. -/
def rewrapped (u : Unicode) (charIndex : Nat) (subChunks : List TextChunk) (s : Wrap) :
    Option Wrap := do
  let last ← subChunks.getLast?
  some {
    chunks := s.chunks ++ subChunks.dropLast.map fun sc =>
      ⟨sc.text, charIndex + sc.startIndex, charIndex + sc.endIndex⟩
    currentWidth := u.visibleWidth last.text
    chunkStart := charIndex + last.startIndex
    wrapOppIndex := none
    wrapOppWidth := s.wrapOppWidth }

def isOpportunity (u : Unicode) (seg next : SegmentData) : Bool :=
  let isWs := !isPasteMarker seg.segment && u.isWhitespaceChar seg.segment
  if isWs && (isPasteMarker next.segment || !u.isWhitespaceChar next.segment) then true
  else if !isWs && !u.isWhitespaceChar next.segment then
    (!isPasteMarker seg.segment && u.cjkBreak seg.segment)
      || (!isPasteMarker next.segment && u.cjkBreak next.segment)
  else false

def advance (u : Unicode) (gWidth : Int) (seg : SegmentData) (next : Option SegmentData)
    (s : Wrap) : Wrap :=
  let s := { s with currentWidth := s.currentWidth + gWidth }
  match next with
  | some next =>
    if isOpportunity u seg next then
      { s with wrapOppIndex := some next.index, wrapOppWidth := s.currentWidth }
    else s
  | none => s

def step (u : Unicode) (line : Text) (maxWidth : Nat)
    (rewrap : Text → Option (List TextChunk)) (seg : SegmentData) (next : Option SegmentData)
    (s : Wrap) : Option Wrap :=
  let gWidth := u.visibleWidth seg.segment
  let s := s.overflow line maxWidth gWidth seg.index
  if gWidth > maxWidth then do s.rewrapped u seg.index (← rewrap seg.segment)
  else some (s.advance u gWidth seg next)

end Wrap

@[grind =]
def wrapLoop (u : Unicode) (line : Text) (maxWidth : Nat)
    (rewrap : Text → Option (List TextChunk)) : Wrap → List SegmentData → Option Wrap
  | s, [] => some s
  | s, seg :: rest => do
    wrapLoop u line maxWidth rewrap (← s.step u line maxWidth rewrap seg rest.head?) rest

/-- `fuel` bounds the depth of the recursion into wide segments. -/
@[grind =]
def wordWrapLine (u : Unicode) : Nat → Text → Nat → Option (List SegmentData) →
    Option (List TextChunk)
  | 0, _, _, _ => none
  | fuel + 1, line, maxWidth, preSegmented =>
    if line = [] ∨ maxWidth = 0 then some [⟨[], 0, 0⟩]
    else if u.visibleWidth line ≤ maxWidth then some [⟨line, 0, line.length⟩]
    else do
      let segments := preSegmented.getD (indexed 0 (u.graphemes line))
      let s ← wrapLoop u line maxWidth (wordWrapLine u fuel · maxWidth none) ⟨[], 0, 0, none, 0⟩
        segments
      some (s.push line line.length).chunks

end ThreeXhaust.Tui.WordWrap
