import ThreeXhaust.Lib.Utf8Cut

/-!
# Bounded output

`OutputBuffer` keeps a head or tail window of a stream of text chunks. Head retention stops storing
once the window is full; tail retention drops stored text that the window no longer needs, and
accepts counts in place of text that its producer left out (`OutputSkip`).

Texts are lists of characters; the source encodes them and works on the bytes. A cut inside a
character would decode to another text, so it is none here.
-/

namespace ThreeXhaust.Chord.Output

inductive Retain where
  | head
  | tail
deriving DecidableEq

structure OutputLimits where
  maxBytes : Nat
  maxLines : Nat
  retain : Retain

structure BoundedOutput where
  text : List Char
  droppedBytes : Int
  droppedLines : Int
deriving DecidableEq

/-- An exact slice of the input within the limits, and what it left out. -/
structure OutputSlice where
  text : List Char
  bytes : Nat
  droppedBytes : Int
  droppedLines : Int

structure OutputSkip where
  bytes : Nat
  newlines : Nat
  endsWithNewline : Bool
deriving DecidableEq

/-! ## Sanitizing -/

/-- `[low-high]*` in front of a text: what follows it. -/
def skipRange (low high : Nat) (cs : List Char) : List Char :=
  cs.dropWhile fun c => low ≤ c.toNat && c.toNat ≤ high

/-- `[low-high]` in front of a text: what follows it. -/
def oneOf (low high : Nat) : List Char → Option (List Char)
  | [] => none
  | c :: cs => if low ≤ c.toNat && c.toNat ≤ high then some cs else none

/-- The rest of an OSC, DCS, APC, PM or SOS string, up to BEL or ST. -/
def stringSequence : List Char → Option (List Char)
  | [] => none
  | c :: cs =>
    if c ∈ [']', 'P', 'X', '^', '_'] then
      match cs.dropWhile fun c => c.toNat ≠ 0x07 && c.toNat ≠ 0x1b with
      | [] => none
      | stop :: rest =>
        if stop.toNat = 0x07 then some rest
        else
          match rest with
          | '\\' :: rest => some rest
          | _ => none
    else none

/-- `ESCAPE_SEQUENCE` behind its escape character: what follows the sequence. -/
def escapeSequence (cs : List Char) : Option (List Char) :=
  match stringSequence cs with
  | some rest => some rest
  | none =>
    let csi := match cs with
      | '[' :: cs => oneOf 0x40 0x7e (skipRange 0x20 0x2f (skipRange 0x30 0x3f cs))
      | _ => none
    match csi with
    | some rest => some rest
    | none => oneOf 0x30 0x7e (skipRange 0x20 0x2f cs)

/-- `text.replace(ESCAPE_SEQUENCE, "")`, in at most `fuel` matches. -/
@[grind =] def removeEscapes : Nat → List Char → List Char
  | 0, cs => cs
  | _ + 1, [] => []
  | fuel + 1, c :: cs =>
    if c.toNat = 0x1b then
      match escapeSequence cs with
      | some rest => removeEscapes fuel rest
      | none => c :: removeEscapes fuel cs
    else c :: removeEscapes fuel cs

def isInvalidOutput (c : Char) : Bool :=
  let n := c.toNat
  n ≤ 0x08 || 0x0b ≤ n && n ≤ 0x1f || 0xfff9 ≤ n && n ≤ 0xfffb

/-- Remove escape sequences and control characters; tabs and newlines stay. -/
def sanitizeOutput (text : List Char) : List Char :=
  (removeEscapes text.length text).filter fun c => !isInvalidOutput c

/-! ## Ranges of bytes -/

/-- `bytes.indexOf(NEWLINE, start)` -/
def indexOf (bytes : Bytes) (start : Nat) : Option Nat := (newlines bytes).find? (start ≤ ·)

/-- `bytes.lastIndexOf(NEWLINE, last)` -/
def lastIndexOf (bytes : Bytes) (last : Nat) : Option Nat := (below bytes (last + 1)).head?

@[grind =] def characterEnd (bytes : Bytes) : Nat → Nat
  | 0 => 0
  | n + 1 => if isContinuation (bytes.getD (n + 1) 0) then characterEnd bytes n else n + 1

def characterStart (bytes : Bytes) (index : Nat) : Nat :=
  index + ((bytes.drop index).takeWhile isContinuation).length

def lineCount (bytes : Bytes) : Nat :=
  if bytes = [] then 0 else bytes.count 10 + if bytes.getLast? = some 10 then 0 else 1

/-- The loop of `headRange` over the newlines. -/
def headEnd (bytes : Bytes) (maxLines : Nat) : Nat :=
  match (newlines bytes)[maxLines - 1]? with
  | some index => index + 1
  | none => bytes.length

def headRange (bytes : Bytes) (limits : OutputLimits) : Nat × Nat :=
  if limits.maxLines = 0 ∨ limits.maxBytes = 0 then (0, 0)
  else
    let stop := headEnd bytes limits.maxLines
    if stop > limits.maxBytes then
      match lastIndexOf bytes (limits.maxBytes - 1) with
      | some newline => (0, newline + 1)
      | none => (0, characterEnd bytes limits.maxBytes)
    else (0, stop)

/-- The loop of `tailRange`: from newline to newline towards the front, counting lines. -/
@[grind =] def lineStart (bytes : Bytes) (maxLines : Nat) : Nat → Option Nat → Nat → Nat
  | _, none, _ => 0
  | 0, some _, _ => 0
  | fuel + 1, some index, lines =>
    if lines = maxLines then index + 1
    else
      lineStart bytes maxLines fuel
        (if index = 0 then none else lastIndexOf bytes (index - 1)) (lines + 1)

/-- Where the last lines start. A trailing newline ends the last line rather than starting another. -/
def tailLines (bytes : Bytes) (maxLines : Nat) : Nat :=
  let last : Int := if bytes.getLast? = some 10 then bytes.length - 2 else bytes.length - 1
  lineStart bytes maxLines bytes.length (if last < 0 then none else lastIndexOf bytes last.toNat) 1

/-- The first line starting inside the byte window, or a cut of the last line when it alone is too
long. -/
def byteStart (bytes : Bytes) (maxBytes : Nat) : Nat :=
  let start := bytes.length - maxBytes
  match indexOf bytes (start - 1) with
  | some newline =>
    if newline + 1 < bytes.length then newline + 1 else characterStart bytes start
  | none => characterStart bytes start

def tailRange (bytes : Bytes) (limits : OutputLimits) : Nat × Nat :=
  if limits.maxLines = 0 ∨ limits.maxBytes = 0 then (bytes.length, bytes.length)
  else
    let start := tailLines bytes limits.maxLines
    if bytes.length - start > limits.maxBytes then (byteStart bytes limits.maxBytes, bytes.length)
    else (start, bytes.length)

def slice (text : List Char) (start stop : Nat) : Option (List Char) :=
  (splitAtByte stop text).bind fun (front, _) => (splitAtByte start front).map Prod.snd

def boundOutput (text : List Char) (limits : OutputLimits) : Option OutputSlice :=
  let bytes := utf8Chars text
  let (start, stop) := match limits.retain with
    | .head => headRange bytes limits
    | .tail => tailRange bytes limits
  let kept := (bytes.take stop).drop start
  (if kept.length = bytes.length then some text else slice text start stop).map fun shown => {
    text := shown
    bytes := kept.length
    droppedBytes := bytes.length - kept.length
    droppedLines := lineCount bytes - lineCount kept }

/-- The loop of `tailMargin` over the newlines, from the back. -/
@[grind =] def marginLine (bytes : Bytes) (maxLines : Nat) : Nat → Option Nat → Nat → Nat
  | _, none, _ => 0
  | 0, some _, _ => 0
  | fuel + 1, some index, newlines =>
    if newlines + 1 > maxLines then index
    else
      marginLine bytes maxLines fuel
        (if index = 0 then none else lastIndexOf bytes (index - 1)) (newlines + 1)

/-- The shortest suffix of a text with more than `maxBytes` bytes or more than `maxLines` newlines,
or all of it. -/
def tailMargin (text : List Char) (limits : OutputLimits) : Option (List Char) :=
  let bytes := utf8Chars text
  let byteStart := if bytes.length > limits.maxBytes
    then characterEnd bytes (bytes.length - limits.maxBytes - 1) else 0
  let lineStart := marginLine bytes limits.maxLines bytes.length
    (if bytes.length = 0 then none else lastIndexOf bytes (bytes.length - 1)) 0
  let start := max byteStart lineStart
  if start = 0 then some text else slice text start bytes.length

def lines (newlines : Nat) (terminated : Bool) : Nat := newlines + if terminated then 0 else 1

/-! ## The buffer -/

structure Chunk where
  text : List Char
  bytes : Nat
  newlines : Nat

def Chunk.of (text : List Char) : Chunk := ⟨text, (utf8Chars text).length, text.count '\n'⟩

/-- Bounded running output of one stream, fed with texts; its decoder of byte chunks stays empty. -/
structure OutputBuffer where
  limits : OutputLimits
  chunks : List Chunk
  storedBytes : Nat
  storedNewlines : Nat
  full : Bool
  totalBytes : Nat
  totalNewlines : Nat
  endsWithNewline : Bool

def endsWithNewline (text : List Char) : Bool := text.getLast? = some '\n'

@[grind =] def dropLeading (limits : OutputLimits) : List Chunk → Nat → Nat → List Chunk × Nat × Nat
  | first :: second :: rest, bytes, newlines =>
    let bytesAfter := bytes - first.bytes
    let newlinesAfter := newlines - first.newlines
    if bytesAfter ≤ limits.maxBytes + 1 ∧ newlinesAfter ≤ limits.maxLines + 1 then
      (first :: second :: rest, bytes, newlines)
    else dropLeading limits (second :: rest) bytesAfter newlinesAfter
  | chunks, bytes, newlines => (chunks, bytes, newlines)

namespace OutputBuffer

def new (limits : OutputLimits) : OutputBuffer := ⟨limits, [], 0, 0, false, 0, 0, true⟩

def stored (b : OutputBuffer) : List Char := (b.chunks.map Chunk.text).flatten

def accept (b : OutputBuffer) (text : List Char) : OutputBuffer :=
  if text = [] then b
  else
    let chunk := Chunk.of text
    let b := { b with
      totalBytes := b.totalBytes + chunk.bytes
      totalNewlines := b.totalNewlines + chunk.newlines
      endsWithNewline := Output.endsWithNewline text }
    if b.full then b
    else
      let b := { b with
        chunks := b.chunks ++ [chunk]
        storedBytes := b.storedBytes + chunk.bytes
        storedNewlines := b.storedNewlines + chunk.newlines }
      match b.limits.retain with
      | .head => { b with full :=
          b.storedBytes > b.limits.maxBytes || b.storedNewlines ≥ b.limits.maxLines }
      | .tail =>
        let (chunks, bytes, newlines) :=
          dropLeading b.limits b.chunks b.storedBytes b.storedNewlines
        { b with chunks, storedBytes := bytes, storedNewlines := newlines }

/-- `#skip`: count omitted output. -/
def skip (b : OutputBuffer) (skipped : OutputSkip) : OutputBuffer :=
  if skipped.bytes = 0 then b
  else { b with
    totalBytes := b.totalBytes + skipped.bytes
    totalNewlines := b.totalNewlines + skipped.newlines
    endsWithNewline := skipped.endsWithNewline
    chunks := []
    storedBytes := 0
    storedNewlines := 0 }

/-- `push`: none where it throws, for skipped output without tail retention. -/
def push (b : OutputBuffer) (text : List Char) : Option OutputSkip → Option OutputBuffer
  | none => some (b.accept text)
  | some skipped => if b.limits.retain ≠ .tail then none else some ((b.skip skipped).accept text)

/-- `snapshot`: the retained output, and the buffer as taking it leaves it. -/
def snapshot (b : OutputBuffer) : Option (BoundedOutput × OutputBuffer) := do
  let kept ← boundOutput b.stored b.limits
  let storedLines := lines b.storedNewlines (b.stored = [] || Output.endsWithNewline b.stored)
  let keptLines : Int := storedLines - kept.droppedLines
  let text ← if b.limits.retain = .tail then tailMargin b.stored b.limits else some b.stored
  let bytes := if b.limits.retain = .tail then (utf8Chars text).length else b.storedBytes
  let chunks := if text = [] then [] else [⟨text, bytes, text.count '\n'⟩]
  let trimmed := if b.limits.retain = .tail ∨ b.chunks.length > 1 then
      { b with
        chunks := chunks
        storedBytes := bytes
        storedNewlines := (chunks.head?.map Chunk.newlines).getD 0 }
    else b
  some ({
    text := sanitizeOutput kept.text
    droppedBytes := b.totalBytes - kept.bytes
    droppedLines := lines b.totalNewlines b.endsWithNewline - keptLines }, trimmed)

end OutputBuffer

end ThreeXhaust.Chord.Output
