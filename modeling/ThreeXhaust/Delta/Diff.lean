import ThreeXhaust.Delta.Apply

/-!
# Differences of revisions

`chord/src/delta/diff.ts`: a compact batch that takes one revision to another. Containers are
compared by identity first, so the values carry it. An array is compared by its order, by position,
by the elements the revisions share and by elements that look alike; each finds pairs of elements
that stay, and the regions between them are compared in turn. A batch that grows too long is given
up for a replacement.

The loops that the source does not bound by a counter have a bound here, and nothing is returned
where it is reached; `diffRevisions_some` says that it never is.
-/

namespace ThreeXhaust.Delta

open Utf16

section Diff

variable {τ : Type} [DecidableEq τ]

/-! ## Equality -/

/-- `===`: containers are compared by identity. -/
def Value.same : Value τ → Value τ → Bool
  | .null, .null => true
  | .bool a, .bool b => a = b
  | .num a, .num b => a = b
  | .str a, .str b => a = b
  | .arr a _, .arr b _ => a = b
  | .obj a _, .obj b _ => a = b
  | _, _ => false

mutual

def equalJson : Value τ → Value τ → Bool
  | .arr tag items, right =>
    (Value.arr tag items).same right || match right with
      | .arr _ others => items.length = others.length && equalItems items others
      | _ => false
  | .obj tag fields, right =>
    (Value.obj tag fields).same right || match right with
      | .obj _ others => fields.length = others.length && equalFields fields others
      | _ => false
  | left, right => left.same right

@[grind =] def equalItems : List (Value τ) → List (Value τ) → Bool
  | item :: items, other :: others => equalJson item other && equalItems items others
  | _, _ => true

@[grind =] def equalFields : List (Text × Value τ) → List (Text × Value τ) → Bool
  | [], _ => true
  | (key, value) :: fields, others =>
    (match getField others key with
      | some other => equalJson value other
      | none => false) && equalFields fields others

end

def sameValue (left right : Value τ) : Bool := left.same right || equalJson left right

/-! ## Batches -/

def maxDeltaOperations : Nat := 4096

/-- The operations so far, and whether the batch is one of `overflowedBatches`. -/
structure Batch (τ : Type) where
  ops : List (Op (Value τ))
  overflowed : Bool

/-- `emitOperation`. -/
def Batch.emit (batch : Batch τ) (op : Op (Value τ)) : Batch τ :=
  if batch.overflowed then batch
  else if batch.ops.length ≥ maxDeltaOperations then { batch with overflowed := true }
  else { batch with ops := batch.ops ++ [op] }

def emitSet (path : Path) (value : Value τ) (batch : Batch τ) : Batch τ :=
  if path = [] then batch.emit (.r value) else batch.emit (.s path value)

/-! ## Strings -/

def indexOf (text head : Text) (start : Nat) : Option Nat :=
  (List.range (text.length + 1)).find? fun k => start ≤ k && head.isPrefixOf (text.drop k)

/-- The places where `head` occurs, at most `candidates` of them. -/
@[grind =] def tryHead (tail b head : Text) : Nat → Nat → Option Nat
  | 0, _ => none
  | candidates + 1, start =>
    match indexOf tail head start with
    | none => none
    | some k =>
      if tail.length - k ≤ b.length && tail.drop k = b.take (tail.length - k) then
        some (tail.length - k)
      else tryHead tail b head candidates (k + 1)

/-- The longest suffix of `a` that is a prefix of `b`, where it is found. -/
def overlap (a b : Text) (scan probe maxCandidates : Nat) : Nat :=
  if a.length = 0 ∨ b.length = 0 ∨ scan = 0 then 0
  else
    let tail := if a.length > scan then a.drop (a.length - scan) else a
    match tryHead tail b (b.take (min probe b.length)) maxCandidates 0 with
    | some n => n
    | none =>
      if min probe b.length = 1 then 0
      else (tryHead tail b (b.take 1) maxCandidates 0).getD 0

def emitString (before after : Text) (path : Path) (batch : Batch τ) : Batch τ :=
  if before = after then batch
  else if after.length > before.length ∧ after.take before.length = before then
    batch.emit (.a path (after.drop before.length))
  else
    let shared := overlap before after 65536 64 8
    if shared = 0 then batch.emit (.s path (.str after))
    else
      let batch := batch.emit (.t path (before.length - shared))
      if after.length > shared then batch.emit (.a path (after.drop shared)) else batch

/-! ## Pairs of elements -/

structure Position (τ : Type) where
  value : Value τ
  indices : List Nat
  used : Nat

@[grind =] def addPosition (value : Value τ) (index : Nat) : List (Position τ) → List (Position τ)
  | [] => [⟨value, [index], 0⟩]
  | entry :: positions =>
    if entry.value.same value then
      { entry with indices := entry.indices ++ [index] } :: positions
    else entry :: addPosition value index positions

/-- The positions of the elements, the first of which is at `start`. -/
def positionsOf (items : List (Value τ)) (start : Nat) : List (Position τ) :=
  (items.zipIdx start).foldl (fun positions item => addPosition item.1 item.2 positions) []

@[grind =] def takePosition (value : Value τ) : List (Position τ) → Option (Nat × List (Position τ))
  | [] => none
  | entry :: positions =>
    if entry.value.same value then
      (entry.indices[entry.used]?).map fun index =>
        (index, { entry with used := entry.used + 1 } :: positions)
    else (takePosition value positions).map fun taken => (taken.1, entry :: taken.2)

@[grind =] def takePositions (positions : List (Position τ)) : List (Value τ) → Option (List Nat)
  | [] => some []
  | value :: values => do
    let (index, positions) ← takePosition value positions
    let indices ← takePositions positions values
    some (index :: indices)

/-- The order in which the elements of `before` are those of `after`. -/
def permutation (before after : List (Value τ)) : Option (List Nat) :=
  if before.length ≠ after.length then none else takePositions (positionsOf before 0) after

/-- An element of an array, where it has one. -/
def itemAt (items : List (Value τ)) (index : Nat) : Value τ := (items[index]?).getD .null

def slice (items : List (Value τ)) (start stop : Nat) : List (Value τ) :=
  (items.drop start).take (stop - start)

structure Region where
  beforeStart : Nat
  beforeEnd : Nat
  afterStart : Nat
  afterEnd : Nat

/-- A pair of elements, by their indices. -/
abbrev ArrayMatch := Nat × Nat

/-- The first index from `start` on with the property, or `stop`. -/
def findFrom (p : Nat → Bool) (start stop : Nat) : Nat :=
  ((List.range' start (stop - start)).find? p).getD stop

/-- The elements of the shorter side, each found in the longer one behind the one before. -/
@[grind =] def subsequence (same : Nat → Nat → Bool) (stop : Nat) : List Nat → Nat → Option (List ArrayMatch)
  | [], _ => some []
  | short :: shorts, start =>
    let long := findFrom (same short) start stop
    if long = stop then none
    else (subsequence same stop shorts (long + 1)).map ((short, long) :: ·)

def identitySubsequence (before after : List (Value τ)) (region : Region) :
    Option (List ArrayMatch) :=
  let beforeCount := region.beforeEnd - region.beforeStart
  let afterCount := region.afterEnd - region.afterStart
  if afterCount < beforeCount then
    (subsequence (fun a b => (itemAt before b).same (itemAt after a)) region.beforeEnd
      (List.range' region.afterStart afterCount) region.beforeStart).map (·.map Prod.swap)
  else if beforeCount < afterCount then
    subsequence (fun b a => (itemAt before b).same (itemAt after a)) region.afterEnd
      (List.range' region.beforeStart beforeCount) region.afterStart
  else none

@[grind =] def lowerBoundLoop (values : List Nat) (value : Nat) : Nat → Nat → Nat → Nat
  | 0, low, _ => low
  | rounds + 1, low, high =>
    if low < high then
      if values.getD ((low + high) / 2) 0 < value then
        lowerBoundLoop values value rounds ((low + high) / 2 + 1) high
      else lowerBoundLoop values value rounds low ((low + high) / 2)
    else low

def lowerBound (values : List Nat) (value : Nat) : Nat :=
  lowerBoundLoop values value values.length 0 values.length

def getPositions (value : Value τ) (positions : List (Position τ)) : Option (List Nat) :=
  (positions.find? fun entry => entry.value.same value).map (·.indices)

/-- The loop of `greedyIdentityAnchors`; `floor` is one above the last position taken. -/
@[grind =] def greedyAnchors (positions : List (Position τ)) (after : List (Value τ)) :
    List Nat → Nat → List ArrayMatch
  | [], _ => []
  | index :: indices, floor =>
    match getPositions (itemAt after index) positions with
    | none => greedyAnchors positions after indices floor
    | some candidates =>
      match candidates[lowerBound candidates floor]? with
      | none => greedyAnchors positions after indices floor
      | some place => (place, index) :: greedyAnchors positions after indices (place + 1)

structure MatchCandidate where
  before : Nat
  after : Nat
  previous : Option Nat

/-- The state of the loop that looks for the longest run of anchors. -/
structure Anchors where
  candidates : List MatchCandidate
  tails : List Nat
  tailValues : List Nat

/-- `values[index] = value`, where the array may grow by one. -/
def setOrPush (values : List Nat) (index value : Nat) : List Nat :=
  if index < values.length then values.set index value else values ++ [value]

def Anchors.add (anchors : Anchors) (after before : Nat) : Anchors :=
  let place := lowerBound anchors.tailValues before
  { candidates := anchors.candidates
      ++ [⟨before, after, if place = 0 then none else anchors.tails[place - 1]?⟩]
    tails := setOrPush anchors.tails place anchors.candidates.length
    tailValues := setOrPush anchors.tailValues place before }

def Anchors.addAll (anchors : Anchors) (after : Nat) (positions : List Nat) : Anchors :=
  positions.reverse.foldl (fun anchors before => anchors.add after before) anchors

/-- The chain of a candidate, from its end: every predecessor is an earlier candidate, so there are
at most as many rounds as candidates. -/
@[grind =] def chain (candidates : List MatchCandidate) : Nat → Option Nat → List ArrayMatch
  | 0, _ => []
  | rounds + 1, index =>
    match index.bind fun i => candidates[i]? with
    | none => []
    | some candidate =>
      (candidate.before, candidate.after) :: chain candidates rounds candidate.previous

def maxIdentityCandidates : Nat := 200000

def identityAnchors (before after : List (Value τ)) (region : Region) : List ArrayMatch :=
  let positions := positionsOf (slice before region.beforeStart region.beforeEnd) region.beforeStart
  let indices := List.range' region.afterStart (region.afterEnd - region.afterStart)
  let found := fun index => (getPositions (itemAt after index) positions).getD []
  let candidateCount := (indices.map fun index => (found index).length).sum
  if candidateCount > maxIdentityCandidates then greedyAnchors positions after indices 0
  else if candidateCount = 0 then []
  else
    let anchors : Anchors :=
      indices.foldl (fun anchors index => Anchors.addAll anchors index (found index)) ⟨[], [], []⟩
    (chain anchors.candidates anchors.candidates.length anchors.tails.getLast?).reverse

/-- A row of the table of lengths, above the row `below`. -/
@[grind =] def lcsRow (equal : Value τ → Value τ → Bool) (left : Value τ) : List (Value τ) → List Nat → List Nat
  | [], _ => [0]
  | right :: after, below =>
    let rest := lcsRow equal left after below.tail
    (if equal left right then below.tail.headD 0 + 1 else max (below.headD 0) (rest.headD 0)) :: rest

@[grind =] def lcsTable (equal : Value τ → Value τ → Bool) (after : List (Value τ)) :
    List (Value τ) → List (List Nat)
  | [] => [List.replicate (after.length + 1) 0]
  | left :: before =>
    let rows := lcsTable equal after before
    lcsRow equal left after (rows.headD []) :: rows

def lcsCell (table : List (List Nat)) (left right : Nat) : Nat := (table.getD left []).getD right 0

@[grind =] def lcsWalk (equal : Value τ → Value τ → Bool) (before after : List (Value τ))
    (table : List (List Nat)) : Nat → Nat → Nat → List ArrayMatch
  | 0, _, _ => []
  | rounds + 1, left, right =>
    if left < before.length ∧ right < after.length then
      if equal (itemAt before left) (itemAt after right)
          ∧ lcsCell table left right = lcsCell table (left + 1) (right + 1) + 1 then
        (left, right) :: lcsWalk equal before after table rounds (left + 1) (right + 1)
      else if lcsCell table (left + 1) right ≥ lcsCell table left (right + 1) then
        lcsWalk equal before after table rounds (left + 1) right
      else lcsWalk equal before after table rounds left (right + 1)
    else []

def lcsMatches (before after : List (Value τ)) (equal : Value τ → Value τ → Bool)
    (maxCells : Nat) : Option (List ArrayMatch) :=
  if before.length = 0 ∨ after.length = 0 then some []
  else if before.length * after.length > maxCells then none
  else some (lcsWalk equal before after (lcsTable equal after before)
    (before.length + after.length) 0 0)

/-- Whether two values that differ look like one value before and after. -/
def semanticallyAligned (left right : Value τ) : Bool :=
  sameValue left right || match left, right with
    | .arr _ items, .arr _ others =>
      items.length = others.length
        && (items.zip others).any fun pair => pair.1.isObj && pair.1.same pair.2
    | .obj _ fields, .obj _ others =>
      fields.any fun field => field.2.isObj && match getField others field.1 with
        | some other => field.2.same other
        | none => false
    | _, _ => false

def maxSemanticCells : Nat := 65536

/-! ## Arrays -/

@[grind =] def commonPrefix : List (Value τ) → List (Value τ) → Nat
  | left :: lefts, right :: rights =>
    if sameValue left right then commonPrefix lefts rights + 1 else 0
  | _, _ => 0

def trimRegion (before after : List (Value τ)) (region : Region) : Region :=
  let front := commonPrefix (slice before region.beforeStart region.beforeEnd)
    (slice after region.afterStart region.afterEnd)
  let start : Region :=
    { region with
      beforeStart := region.beforeStart + front
      afterStart := region.afterStart + front }
  let back := commonPrefix (slice before start.beforeStart start.beforeEnd).reverse
    (slice after start.afterStart start.afterEnd).reverse
  { start with beforeEnd := start.beforeEnd - back, afterEnd := start.afterEnd - back }

def positionalMatches (before after : List (Value τ)) (region : Region) : List ArrayMatch :=
  ((List.range (region.beforeEnd - region.beforeStart)).filter fun offset =>
      sameValue (itemAt before (region.beforeStart + offset))
        (itemAt after (region.afterStart + offset))).map fun offset =>
    (region.beforeStart + offset, region.afterStart + offset)

def regionMatches (before after : List (Value τ)) (region : Region) : List ArrayMatch :=
  let beforeCount := region.beforeEnd - region.beforeStart
  let afterCount := region.afterEnd - region.afterStart
  let positional := if beforeCount = afterCount then positionalMatches before after region else []
  if positional ≠ [] then positional
  else
    let found := (identitySubsequence before after region).getD []
    if found ≠ [] then found
    else
      let identity := identityAnchors before after region
      if identity ≠ [] then identity
      else
        ((lcsMatches (slice before region.beforeStart region.beforeEnd)
            (slice after region.afterStart region.afterEnd) semanticallyAligned
            maxSemanticCells).getD []).map fun pair =>
          (region.beforeStart + pair.1, region.afterStart + pair.2)

/-- A function that compares two values and emits what takes one to the other. -/
abbrev Differ (τ : Type) := Value τ → Value τ → Path → Batch τ → Option (Batch τ)

/-- A function that compares a region of two arrays, of which the first element is at an index. -/
abbrev RegionDiffer (τ : Type) := Region → Nat → Batch τ → Option (Batch τ)

@[grind =] def processArrayMatches (diffValue : Differ τ) (diffRegion : RegionDiffer τ)
    (before after : List (Value τ)) (path : Path) :
    List ArrayMatch → Region → Nat → Batch τ → Option (Batch τ)
  | [], region, output, batch =>
    if batch.overflowed then some batch else diffRegion region output batch
  | pair :: pairs, region, output, batch =>
    if batch.overflowed then some batch
    else do
      let batch ← diffRegion { region with beforeEnd := pair.1, afterEnd := pair.2 } output batch
      let output := output + (pair.2 - region.afterStart)
      let batch ←
        if sameValue (itemAt before pair.1) (itemAt after pair.2) then some batch
        else diffValue (itemAt before pair.1) (itemAt after pair.2) (path ++ [.index output]) batch
      processArrayMatches diffValue diffRegion before after path pairs
        { region with beforeStart := pair.1 + 1, afterStart := pair.2 + 1 } (output + 1) batch

def emitRegion (diffValue : Differ τ) (before after : List (Value τ)) (path : Path)
    (region : Region) (output : Nat) (batch : Batch τ) : Option (Batch τ) :=
  if region.beforeEnd - region.beforeStart = 1 ∧ region.afterEnd - region.afterStart = 1 then
    diffValue (itemAt before region.beforeStart) (itemAt after region.afterStart)
      (path ++ [.index output]) batch
  else
    some (batch.emit (.p path output (region.beforeEnd - region.beforeStart)
      (slice after region.afterStart region.afterEnd)))

@[grind =] def diffArrayRegion (diffValue : Differ τ) (before after : List (Value τ)) (path : Path) :
    Nat → RegionDiffer τ
  | 0, _, _, _ => none
  | rounds + 1, whole, output, batch =>
    if batch.overflowed then some batch
    else
      let region := trimRegion before after whole
      let output := output + (region.beforeStart - whole.beforeStart)
      let beforeCount := region.beforeEnd - region.beforeStart
      let afterCount := region.afterEnd - region.afterStart
      if beforeCount = 0 ∧ afterCount = 0 then some batch
      else if beforeCount = 0 ∨ afterCount = 0 then
        some (batch.emit (.p path output beforeCount
          (slice after region.afterStart region.afterEnd)))
      else
        let pairs := regionMatches before after region
        if pairs ≠ [] then
          processArrayMatches diffValue (diffArrayRegion diffValue before after path rounds) before
            after path pairs region output batch
        else emitRegion diffValue before after path region output batch

def diffArray (diffValue : Differ τ) (before after : List (Value τ)) (path : Path)
    (batch : Batch τ) : Option (Batch τ) :=
  let order :=
    if before.length = after.length ∧ before.length > 1
        ∧ sameValue (itemAt before 0) (itemAt after 0) = false
        ∧ sameValue (itemAt before (before.length - 1)) (itemAt after (after.length - 1)) = false
    then permutation before after else none
  match order with
  | some order => some (batch.emit (.m path order))
  | none =>
    diffArrayRegion diffValue before after path (before.length + after.length + 1)
      ⟨0, before.length, 0, after.length⟩ 0 batch

/-! ## Objects and values -/

/-- The keys of `after`, in turn. -/
@[grind =] def diffKeys (diffValue : Differ τ) (before : List (Text × Value τ)) (path : Path) :
    List (Text × Value τ) → Batch τ → Option (Batch τ)
  | [], batch => some batch
  | (key, value) :: fields, batch =>
    if batch.overflowed then some batch
    else do
      let batch ← match getField before key with
        | some old => diffValue old value (path ++ [.key key]) batch
        | none => some (emitSet (path ++ [.key key]) value batch)
      diffKeys diffValue before path fields batch

@[grind =] def deleteKeys (after : List (Text × Value τ)) (path : Path) :
    List (Text × Value τ) → Batch τ → Batch τ
  | [], batch => batch
  | (key, _) :: fields, batch =>
    if batch.overflowed then batch
    else
      deleteKeys after path fields
        (if (getField after key).isSome then batch else batch.emit (.d (path ++ [.key key])))

/-- `diffObject`; a key that reaches the prototype chain cannot be part of a path. -/
def diffObject (diffValue : Differ τ) (tag tag' : τ) (before after : List (Text × Value τ))
    (path : Path) (batch : Batch τ) : Option (Batch τ) :=
  if (before ++ after).any fun field => field.1 ∈ reservedSegments then
    some (if equalJson (.obj tag before) (.obj tag' after) then batch
      else emitSet path (.obj tag' after) batch)
  else do
    let batch ← diffKeys diffValue before path after batch
    some (deleteKeys after path before batch)

/-- `diffValue`, for values that are nested at most `depth` deep. -/
@[grind =] def diffValue : Nat → Differ τ
  | 0, _, _, _, _ => none
  | depth + 1, before, after, path, batch =>
    if before.same after || batch.overflowed then some batch
    else
      match before, after with
      | .str left, .str right =>
        some (if path = [] then emitSet path (.str right) batch
          else emitString left right path batch)
      | .arr tag items, .arr tag' others =>
        if equalJson (.arr tag items) (.arr tag' others) then some batch
        else diffArray (diffValue depth) items others path batch
      | .obj tag fields, .obj tag' others =>
        diffObject (diffValue depth) tag tag' fields others path batch
      | _, after => some (emitSet path after batch)

mutual

def Value.depth : Value τ → Nat
  | .arr _ items => depthItems items + 1
  | .obj _ fields => depthFields fields + 1
  | _ => 0

@[grind =] def depthItems : List (Value τ) → Nat
  | [] => 0
  | item :: items => max item.depth (depthItems items)

@[grind =] def depthFields : List (Text × Value τ) → Nat
  | [] => 0
  | (_, value) :: fields => max value.depth (depthFields fields)

end

/-! ## Costs -/

mutual

def jsonCost : Value τ → Nat
  | .null => 4
  | .str text => text.length + 2
  | .num n => n.text.length
  | .bool b => if b then 4 else 5
  | .arr _ items => 2 + costItems items + (items.length - 1)
  | .obj _ fields => 2 + costFields fields + (fields.length - 1)

@[grind =] def costItems : List (Value τ) → Nat
  | [] => 0
  | item :: items => jsonCost item + costItems items

@[grind =] def costFields : List (Text × Value τ) → Nat
  | [] => 0
  | (key, value) :: fields => key.length + 3 + jsonCost value + costFields fields

end

/-- `String(n).length`. -/
def numberCost (n : Nat) : Nat := (Json.Decimal.ofNat n).text.length

def segCost : Seg → Nat
  | .key name => name.length + 2
  | .index n => numberCost n

def pathCost (path : Path) : Nat := 2 + (path.map segCost).sum + (path.length - 1)

def operationCost : Op (Value τ) → Nat
  | .r value => 6 + jsonCost value
  | .s path value => 7 + pathCost path + jsonCost value
  | .d path => 6 + pathCost path
  | .a path text => 7 + pathCost path + text.length + 2
  | .t path count => 7 + pathCost path + numberCost count
  | .p path index remove items =>
    10 + pathCost path + numberCost index + numberCost remove
      + (2 + costItems items + (items.length - 1))
  | .m path order => 7 + pathCost path + (2 + (order.map numberCost).sum + (order.length - 1))

/-- `diffRevisions`: a batch that is given up, or that costs more than the revision, is replaced by
the revision. -/
def diffRevisions (before after : Value τ) : Option (List (Op (Value τ))) := do
  let batch ← diffValue (before.depth + 1) before after [] ⟨[], false⟩
  if batch.overflowed then some [.r after]
  else
    match batch.ops with
    | [] => some []
    | .r value :: rest => some (.r value :: rest)
    | ops =>
      let deltaCost := 2 + (ops.map fun op => operationCost op + 1).sum
      if deltaCost < 65536 then some ops
      else if deltaCost ≥ jsonCost after + 6 then some [.r after]
      else some ops

end Diff

end ThreeXhaust.Delta
