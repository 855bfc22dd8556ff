import ThreeXhaust.Lib.Utf8Cut
import ThreeXhaust.Lib.Utf8Stream

/-!
# The line scanner

`LineScanner` gets a file in pieces, finds the lines `[startLine, endLine)` of it and measures their
decoded text, without holding the file. The first three bytes are held back until it is known
whether they are a byte-order mark.
-/

namespace ThreeXhaust.Durable

open Utf8Stream (Decoder)

/-- What a scan says about the selected lines. -/
structure LineScan where
  newlines : Nat
  start : Nat
  «end» : Nat
  firstLineEnd : Nat
  lastLineStart : Nat
  selectedBytes : Nat
  firstLineBytes : Nat
deriving DecidableEq

/-- `startsWithBom` -/
def startsWithBom (firstBytes : Bytes) : Bool :=
  firstBytes[0]? = some 0xEF && firstBytes[1]? = some 0xBB && firstBytes[2]? = some 0xBF

/-- `decodedBytes` -/
def decodedBytes (text : List Char) : Nat := (utf8Chars text).length

/-- `rangeDecoder()` -/
def rangeDecoder : Decoder := none

/-- The results of `indexOf(NEWLINE)`, each search behind the one before. -/
abbrev newlineIndexes (chunk : Bytes) : List Nat := newlines chunk

structure LineScanner where
  startLine : Nat
  /-- `none` is `Infinity`. -/
  endLine : Option Nat
  position : Nat
  newlines : Nat
  lineStart : Nat
  start : Option Nat
  «end» : Option Nat
  firstLineEnd : Option Nat
  lastLineStart : Option Nat
  selectedBytes : Nat
  firstLineBytes : Nat
  selection : Option Decoder
  firstLine : Option Decoder
  head : Option Bytes
  bom : Bool

/-- `Number.MAX_SAFE_INTEGER` -/
def maxSafeInteger : Nat := 2 ^ 53 - 1

namespace LineScanner

/-- `line === endLine - 1` -/
def isLast (s : LineScanner) (line : Nat) : Bool :=
  s.endLine.any fun endLine => (line : Int) = endLine - 1

/-- The decoder and the size after `decode(bytes, { stream: true })`. -/
def stream (decoder : Option Decoder) (size : Nat) (bytes : Bytes) : Option Decoder × Nat :=
  match decoder with
  | some decoder =>
    let (decoder, text) := Utf8Stream.run decoder bytes
    (some decoder, size + decodedBytes text)
  | none => (none, size)

/-- The size after `decode()`. -/
def close (decoder : Option Decoder) (size : Nat) : Nat :=
  match decoder with
  | some decoder => size + decodedBytes (Utf8Stream.flush decoder)
  | none => size

def begin (s : LineScanner) (start : Nat) : LineScanner :=
  { s with
    start := some start
    lastLineStart := if s.isLast s.startLine then some start else s.lastLineStart
    selection := some rangeDecoder
    firstLine := some rangeDecoder }

def endFirstLine (s : LineScanner) (position : Nat) : LineScanner :=
  { s with
    firstLineEnd := some position
    firstLineBytes := close s.firstLine s.firstLineBytes
    firstLine := none }

def endSelection (s : LineScanner) (position : Nat) : LineScanner :=
  { s with
    «end» := some position
    selectedBytes := close s.selection s.selectedBytes
    selection := none }

/-- Feed `chunk[from, to)`, which starts at file offset `base`, to the decoders of the ranges still
open. -/
def feed (s : LineScanner) (chunk : Bytes) (base start stop : Nat) : LineScanner :=
  -- decoding the whole file drops a leading byte-order mark
  let start := if s.bom && base + start < 3 then min stop (3 - base) else start
  if stop ≤ start then s
  else
    let bytes := (chunk.drop start).take (stop - start)
    let (selection, selectedBytes) := stream s.selection s.selectedBytes bytes
    let (firstLine, firstLineBytes) := stream s.firstLine s.firstLineBytes bytes
    { s with selection, selectedBytes, firstLine, firstLineBytes }

/-- One round of the loop: the newline at `index` ends the line. -/
def newline (chunk : Bytes) (base : Nat) : LineScanner × Nat → Nat → LineScanner × Nat
  | (s, start), index =>
    let s := s.feed chunk base start index
    let line := s.newlines
    let position := base + index
    let s := if line = s.startLine then s.endFirstLine position else s
    let s := if s.isLast line then s.endSelection position else s
    let s := s.feed chunk base index (index + 1)
    let s := { s with newlines := s.newlines + 1, lineStart := position + 1 }
    let s := if s.newlines = s.startLine then s.begin s.lineStart else s
    let s := if s.isLast s.newlines then { s with lastLineStart := some s.lineStart } else s
    (s, index + 1)

def process (s : LineScanner) (chunk : Bytes) : LineScanner :=
  let base := s.position
  let (s, start) := (newlineIndexes chunk).foldl (newline chunk base) (s, 0)
  let s := s.feed chunk base start chunk.length
  { s with position := s.position + chunk.length }

def releaseHead (s : LineScanner) : LineScanner :=
  let head := s.head.getD []
  { s with head := none, bom := startsWithBom head }.process head

def push (s : LineScanner) (chunk : Bytes) : LineScanner :=
  match s.head with
  | some head =>
    let take := min (3 - head.length) chunk.length
    let head := head ++ chunk.take take
    let s := { s with head := some head }
    if head.length < 3 then s
    else s.releaseHead.process (chunk.drop take)
  | none => s.process chunk

def finish (s : LineScanner) : LineScan :=
  let s := if s.head.isSome then s.releaseHead else s
  let size := s.position
  match s.start with
  | none => ⟨s.newlines, size, size, size, size, 0, 0⟩
  | some start =>
    let s := if s.firstLineEnd.isNone then s.endFirstLine size else s
    let s := if s.end.isNone then s.endSelection size else s
    { newlines := s.newlines
      start
      «end» := s.end.getD size
      firstLineEnd := s.firstLineEnd.getD size
      -- a selection that reaches past the last line ends with the last line
      lastLineStart := s.lastLineStart.getD s.lineStart
      selectedBytes := s.selectedBytes
      firstLineBytes := s.firstLineBytes }

/-- The fields before the constructor looks at its arguments. -/
def fresh (startLine : Nat) (endLine : Option Nat) : LineScanner :=
  { startLine, endLine, position := 0, newlines := 0, lineStart := 0, start := none, «end» := none,
    firstLineEnd := none, lastLineStart := none, selectedBytes := 0, firstLineBytes := 0,
    selection := none, firstLine := none, head := some [], bom := false }

/-- The arguments the constructor takes. -/
def validRange (startLine : Nat) (endLine : Option Nat) : Bool :=
  decide (startLine ≤ maxSafeInteger)
    && endLine.all fun endLine => decide (startLine < endLine ∧ endLine ≤ maxSafeInteger)

/-- The constructor; `none` is its `RangeError`. -/
def new (startLine : Nat) (endLine : Option Nat) : Option LineScanner :=
  if validRange startLine endLine then
    let s := fresh startLine endLine
    some (if startLine = 0 then s.begin 0 else s)
  else none

/-- The scan of a file that comes in these pieces. -/
def scan (startLine : Nat) (endLine : Option Nat) (chunks : List Bytes) : Option LineScan :=
  (new startLine endLine).map fun s => (chunks.foldl push s).finish

end LineScanner

/-! ## The port to Rust -/

namespace LineScanner.Port

/-- A subtraction of unsigned integers, which must not run below zero. -/
def checkedSub (a b : Nat) : Option Nat := if b ≤ a then some (a - b) else none

def isLastLine (s : LineScanner) (line : Nat) : Bool := s.endLine.any fun «end» => line + 1 = «end»

def begin (s : LineScanner) (start : Nat) : LineScanner :=
  let s := { s with start := some start }
  let s := if isLastLine s s.startLine then { s with lastLineStart := some start } else s
  { s with selection := some rangeDecoder, firstLine := some rangeDecoder }

def new (startLine : Nat) (endLine : Option Nat) : LineScanner :=
  let s := fresh startLine endLine
  if startLine = 0 then begin s 0 else s

def feed (s : LineScanner) (chunk : Bytes) (base start stop : Nat) : Option LineScanner := do
  let start ←
    if s.bom && base + start < 3 then (checkedSub 3 base).map (min stop) else pure start
  if stop ≤ start then return s
  let bytes := (chunk.take stop).drop start
  let (selection, selectedBytes) := stream s.selection s.selectedBytes bytes
  let s := { s with selection, selectedBytes }
  let (firstLine, firstLineBytes) := stream s.firstLine s.firstLineBytes bytes
  return { s with firstLine, firstLineBytes }

def newline (chunk : Bytes) (base : Nat) :
    LineScanner × Nat → Nat → Option (LineScanner × Nat)
  | (s, start), newline => do
    let s ← feed s chunk base start newline
    let line := s.newlines
    let position := base + newline
    let s := if line = s.startLine then s.endFirstLine position else s
    let s := if isLastLine s line then s.endSelection position else s
    let s ← feed s chunk base newline (newline + 1)
    let s := { s with newlines := s.newlines + 1, lineStart := position + 1 }
    let s := if s.newlines = s.startLine then begin s s.lineStart else s
    let s := if isLastLine s s.newlines then { s with lastLineStart := some s.lineStart } else s
    return (s, newline + 1)

def process (s : LineScanner) (chunk : Bytes) : Option LineScanner := do
  let base := s.position
  let (s, start) ← (newlineIndexes chunk).foldlM (newline chunk base) (s, 0)
  let s ← feed s chunk base start chunk.length
  return { s with position := s.position + chunk.length }

def releaseHead (s : LineScanner) : Option LineScanner :=
  let head := s.head.getD []
  process { s with head := none, bom := startsWithBom head } head

def push (s : LineScanner) (chunk : Bytes) : Option LineScanner :=
  match s.head with
  | some head => do
    let take := min (← checkedSub 3 head.length) chunk.length
    let head := head ++ chunk.take take
    let s := { s with head := some head }
    if head.length < 3 then return s
    process (← releaseHead s) (chunk.drop take)
  | none => process s chunk

def finish (s : LineScanner) : Option LineScan := do
  let s ← if s.head.isSome then releaseHead s else pure s
  let size := s.position
  let some start := s.start | return ⟨s.newlines, size, size, size, size, 0, 0⟩
  let s := if s.firstLineEnd.isNone then s.endFirstLine size else s
  let s := if s.end.isNone then s.endSelection size else s
  return ⟨s.newlines, start, s.end.getD size, s.firstLineEnd.getD size,
    s.lastLineStart.getD s.lineStart, s.selectedBytes, s.firstLineBytes⟩

def scan (startLine : Nat) (endLine : Option Nat) (chunks : List Bytes) : Option LineScan := do
  finish (← chunks.foldlM push (new startLine endLine))

end LineScanner.Port

end ThreeXhaust.Durable
