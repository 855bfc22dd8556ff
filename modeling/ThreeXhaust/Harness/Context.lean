import ThreeXhaust.Lib.Json.Value
import ThreeXhaust.Lib.Splice

/-!
# The model context of a conversation

`durable/src/harness/context.ts`: the view that a conversation's visible entries derive within bounds,
and the range that is kept of it, which the entries of later commits extend without reading them again.
`Cache` is that range in the scheduler (`#contexts`) with the reads that are under way.

The entries that a storage scan finds are those of the conversation's visible history, `log`, within
the bounds of the scan. `leadWithSystem` compares messages by identity, so a message has one (`ref`); a
read finds the same messages as the one before. Freezing and copying are left out.
-/

namespace ThreeXhaust.Harness.Context

/-! ## Entries -/

inductive StopReason where
  | pending
  | stop
  | length
  | toolUse
  | error
  | aborted
  | deferred
deriving DecidableEq

structure ToolCall where
  id : String
  name : String
deriving DecidableEq

/-- A message by its role; `payload` holds the fields that nothing here looks at. -/
inductive Body where
  | system (payload : Json.Value)
  | user (payload : Json.Value)
  | assistant (stopReason : StopReason) (calls : List ToolCall) (timestamp : Nat) (payload : Json.Value)
  | toolResult (toolCallId : String) (payload : Json.Value)

structure Message where
  ref : Nat
  body : Body

namespace Message

def isSystem (message : Message) : Bool :=
  match message.body with
  | .system _ => true
  | _ => false

def isUser (message : Message) : Bool :=
  match message.body with
  | .user _ => true
  | _ => false

def isAssistant (message : Message) : Bool :=
  match message.body with
  | .assistant _ _ _ _ => true
  | _ => false

end Message

inductive EditAction where
  | omit
  | replace (messages : List Message)

structure ContextEdit where
  target : Nat
  action : EditAction

structure Entry where
  id : Nat
  kind : String
  model : Option (List Message)
  head : Option Nat
  edits : Option (List ContextEdit)

/-- An entry with a `head`. -/
structure HeadMarker where
  entry : Entry
  head : Nat
  marked : entry.head = some head

structure Bounds where
  head : Option HeadMarker
  tail : Nat

structure View where
  head : Option Entry
  entries : List Entry
  contributions : List (List Message)
  messages : List Message

/-- A message, `null` or `undefined`. -/
inductive Baseline where
  | message (message : Message)
  | never
  | undecided

structure Range where
  bounds : Bounds
  entries : List Entry
  view : View
  /-- The targets of the edits in `entries`. -/
  edited : List Nat
  settled : List Message
  opened : List Message
  baseline : Baseline
  current : Bool

/-! ## Deriving a view -/

def isExcluded : StopReason → Bool
  | .aborted | .error | .deferred => true
  | _ => false

def contribute (entry : Entry) (edit : Option ContextEdit) : List Message :=
  let contributed := match edit with
    | some ⟨_, .omit⟩ => []
    | some ⟨_, .replace messages⟩ => messages
    | none => entry.model.getD []
  contributed.filter fun message => match message.body with
    | .assistant stopReason _ _ _ => !isExcluded stopReason
    | _ => true

def missingResult (call : ToolCall) (timestamp : Nat) : Message where
  ref := 0
  body := .toolResult call.id (.obj [("toolName", .str call.name),
    ("content", .arr [.obj [("type", .str "text"),
      ("text", .str "Tool result unavailable: history ends before this call completed.")]]),
    ("isError", .bool true), ("details", .obj [("reason", .str "missing_result")]),
    ("timestamp", .nat timestamp)])

def isResultOf (call : ToolCall) (message : Message) : Bool :=
  match message.body with
  | .toolResult toolCallId _ => toolCallId = call.id
  | _ => false

/-- The results of an assistant's calls, in call order, from the messages up to the next assistant. -/
def callResults (calls : List ToolCall) (timestamp : Nat) (rest : List Message) : List Message :=
  calls.map fun call =>
    ((rest.takeWhile fun message => !message.isAssistant).find? (isResultOf call)).getD
      (missingResult call timestamp)

def orderToolResults : List Message → List Message
  | [] => []
  | message :: rest =>
    match message.body with
    | .toolResult _ _ => orderToolResults rest
    | .assistant _ calls timestamp _ =>
      message :: (callResults calls timestamp rest ++ orderToolResults rest)
    | _ => message :: orderToolResults rest

/-- The head marker followed by the entries that are none. -/
def selectActive (head : Option HeadMarker) (range : List Entry) : List Entry :=
  match head with
  | none => range
  | some marker => marker.entry :: range.filter (·.head.isNone)

/-- Whether an entry's messages, or those of its edits, include a system message. -/
def carriesSystemMessage (entry : Entry) : Bool :=
  (entry.model.any fun messages => messages.any (·.isSystem))
    || entry.edits.any fun edits => edits.any fun edit => match edit.action with
      | .replace messages => messages.any (·.isSystem)
      | .omit => false

def isSystemEntry (entry : Entry) : Bool := entry.kind = "pi.system"

def findBaseline (head : Option HeadMarker) : List Entry → Baseline
  | [] => .undecided
  | entry :: rest =>
    if head.any fun marker => entry.id ≤ marker.entry.id then findBaseline head rest
    else if isSystemEntry entry then
      match entry.model.bind (·.find? (·.isSystem)) with
      | some message => .message message
      | none => .never
    else if head.isNone && carriesSystemMessage entry then .never
    else findBaseline head rest

/-- `baseline !== undefined ? baseline : next`. -/
def Baseline.orElse : Baseline → Baseline → Baseline
  | .undecided, next => next
  | known, _ => known

def Baseline.is : Baseline → Message → Bool
  | .message baseline, other => baseline.ref = other.ref
  | _, _ => false

def leadWithSystem (messages : List Message) (baseline : Baseline) : List Message :=
  match messages.findIdx? (·.isSystem) with
  | none => messages
  | some 0 => messages
  | some index =>
    match messages[index]? with
    | none => messages
    | some system =>
      if !baseline.is system && (messages.take index).any (fun message => !message.isUser) then messages
      else system :: (messages.take index ++ messages.drop (index + 1))

/-- Move the ordered messages before the last assistant message of `opened` to `settled`. -/
def settle (settled opened : List Message) : List Message × List Message :=
  match (Splice.positions (·.isAssistant) opened).getLast? with
  | none => (settled, opened)
  | some 0 => (settled, opened)
  | some last => (settled ++ orderToolResults (opened.take last), opened.drop last)

def editsOf (entries : List Entry) : List ContextEdit := entries.flatMap fun entry => entry.edits.getD []

def editFor (edits : List ContextEdit) (id : Nat) : Option ContextEdit :=
  edits.reverse.find? (·.target = id)

def deriveRange (bounds : Bounds) (entries : List Entry) (current : Bool) : Range :=
  let edits := editsOf entries
  let active := selectActive bounds.head entries
  let contributions := active.map fun entry => contribute entry (editFor edits entry.id)
  let parts := settle [] contributions.flatten
  let baseline := findBaseline bounds.head active
  { bounds := bounds
    entries := entries
    view :=
      { head := bounds.head.map (·.entry)
        entries := active
        contributions := contributions
        messages := leadWithSystem (parts.1 ++ orderToolResults parts.2) baseline }
    edited := edits.map (·.target)
    settled := parts.1
    opened := parts.2
    baseline := baseline
    current := current }

def reopens (edited : List Nat) (entry : Entry) : Bool :=
  entry.edits.isSome || entry.head.isSome || entry.id ∈ edited

def extendRange (previous : Range) (bounds : Bounds) (added : List Entry) (current : Bool) : Range :=
  let entries := previous.entries ++ added
  if added.any (reopens previous.edited) then deriveRange bounds entries current
  else
    let contributions := added.map fun entry => contribute entry none
    let parts := settle previous.settled (previous.opened ++ contributions.flatten)
    let baseline := previous.baseline.orElse (findBaseline bounds.head added)
    { bounds := bounds
      entries := entries
      view :=
        { head := bounds.head.map (·.entry)
          entries := previous.view.entries ++ added
          contributions := previous.view.contributions ++ contributions
          messages := leadWithSystem (parts.1 ++ orderToolResults parts.2) baseline }
      edited := previous.edited
      settled := parts.1
      opened := parts.2
      baseline := baseline
      current := current }

def Entry.marker (entry : Entry) : Option HeadMarker :=
  match h : entry.head with
  | none => none
  | some head => some ⟨entry, head, h⟩

/-- The newest head marker of some entries, or the one before them. -/
def newestMarker (before : Option HeadMarker) (entries : List Entry) : Option HeadMarker :=
  entries.foldl (fun marker entry => entry.marker.or marker) before

def Bounds.markerId (bounds : Bounds) : Option Nat := bounds.head.map (·.entry.id)

def advanceRange (range : Range) (appended : List Entry) : Option Range :=
  match appended.getLast? with
  | none => some range
  | some last =>
    if !range.current then some range
    else
      let bounds : Bounds := ⟨newestMarker range.bounds.head appended, last.id⟩
      if bounds.markerId = range.bounds.markerId then some (extendRange range bounds appended true)
      else
        match bounds.head with
        | none => none
        | some marker =>
          -- an older head is stale
          if range.bounds.head.any fun old => marker.head < old.head then none
          else
            some (deriveRange bounds
              ((range.entries ++ appended).filter fun entry => marker.head ≤ entry.id) true)

/-! ## Reading a context -/

/-- The visible entries within `[least, most]`, oldest first. -/
def scanRange (log : List Entry) (least most : Nat) : List Entry :=
  log.filter fun entry => decide (least ≤ entry.id) && decide (entry.id ≤ most)

/-- The visible range of `bounds`: from the marker's head, or the start, through the tail. -/
def Bounds.least (bounds : Bounds) : Nat :=
  match bounds.head with
  | none => 0
  | some marker => marker.head

def scanBounds (log : List Entry) (bounds : Bounds) : List Entry := scanRange log bounds.least bounds.tail

def deriveContext (log : List Entry) (bounds : Bounds) : View :=
  (deriveRange bounds (scanBounds log bounds) false).view

def boundsAt (log : List Entry) (tail : Nat) : Bounds :=
  ⟨newestMarker none (log.filter fun entry => entry.id ≤ tail), tail⟩

inductive Capture where
  | empty
  | notVisible
  | bounds (bounds : Bounds)

def captureContextBounds (log : List Entry) : Option Nat → Capture
  | none =>
    match log.getLast? with
    | none => .empty
    | some last => .bounds (boundsAt log last.id)
  | some cut => if log.any (·.id = cut) then .bounds (boundsAt log cut) else .notVisible

/-- `readContextFrom` behind the capture of its bounds. -/
def rangeFrom (log : List Entry) (previous : Option Range) (bounds : Bounds) (current : Bool) : Range :=
  match previous with
  | none => deriveRange bounds (scanBounds log bounds) current
  | some previous =>
    if previous.bounds.markerId ≠ bounds.markerId then
      deriveRange bounds (scanBounds log bounds) current
    else if bounds.tail = previous.bounds.tail then previous
    else if bounds.tail < previous.bounds.tail then
      deriveRange bounds (previous.entries.filter fun entry => entry.id ≤ bounds.tail) false
    else
      extendRange previous bounds (scanRange log (previous.bounds.tail + 1) bounds.tail) current

/-- `knownLatestEntryId(...) !== tail`: a commit since the bounds were captured, or nothing known. -/
def Range.checked (range : Range) (log : List Entry) (known : Bool) : Range :=
  if range.current && !(known && (log.getLast?.map (·.id)) = some range.bounds.tail) then
    { range with current := false }
  else range

/-! ## The ranges of a conversation -/

inductive Reading where
  | waiting (cut : Option Nat) (previous : Option Range)
  | scanning (bounds : Bounds) (previous : Option Range) (current : Bool)
  | returned (range : Range)
  | ended

/-- A conversation's history with the range that the scheduler keeps of it. -/
structure Cache where
  log : List Entry
  nextId : Nat
  kept : Option Range
  readings : List Reading

inductive DraftHead where
  | self
  | entry (id : Nat)

structure Draft where
  /-- The ids that the commit mints for other records before this entry. -/
  skipped : Nat
  kind : String
  model : Option (List Message)
  head : Option DraftHead
  edits : Option (List ContextEdit)

def Draft.headAt (draft : Draft) (id : Nat) : Option Nat :=
  draft.head.map fun head => match head with
    | .self => id
    | .entry other => other

def append : Nat → List Draft → List Entry
  | _, [] => []
  | nextId, draft :: drafts =>
    let id := nextId + draft.skipped
    ⟨id, draft.kind, draft.model, draft.headAt id, draft.edits⟩ :: append (id + 1) drafts

def counterAfter : Nat → List Draft → Nat
  | nextId, [] => nextId
  | nextId, draft :: drafts => counterAfter (nextId + draft.skipped + 1) drafts

inductive Input where
  | commit (drafts : List Draft)
  /-- Ids for records of other conversations. -/
  | mint (count : Nat)
  /-- Go on with a conversation that is forked off at a visible entry. -/
  | fork (entryId : Nat)
  | read (cut : Option Nat)
  | capture (index : Nat)
  | scan (index : Nat) (known : Bool)
  | install (index : Nat) (known keeps : Bool)
  | drop

namespace Cache

def init : Cache := ⟨[], 2, none, []⟩

/-- `#advanceContexts` at the publication of a commit. -/
def commit (c : Cache) (drafts : List Draft) : Cache :=
  let appended := append c.nextId drafts
  { c with
    log := c.log ++ appended
    nextId := counterAfter c.nextId drafts
    kept := c.kept.bind fun range => advanceRange range appended }

def keep (c : Cache) (range : Range) : Cache :=
  if c.kept.all fun old => old.bounds.tail ≤ range.bounds.tail then { c with kept := some range } else c

def step (c : Cache) : Input → Cache
  | .commit drafts => c.commit drafts
  | .mint count => { c with nextId := c.nextId + count }
  | .fork entryId =>
    if c.log.any (·.id = entryId) then
      { c with log := c.log.filter fun entry => entry.id ≤ entryId, kept := none, readings := [] }
    else c
  | .read cut => { c with readings := c.readings ++ [.waiting cut c.kept] }
  | .capture index =>
    match c.readings[index]? with
    | some (.waiting cut previous) =>
      { c with
        readings := c.readings.set index
          (match captureContextBounds c.log cut with
            | .bounds bounds => .scanning bounds previous cut.isNone
            | _ => .ended) }
    | _ => c
  | .scan index known =>
    match c.readings[index]? with
    | some (.scanning bounds previous current) =>
      { c with
        readings := c.readings.set index
          (.returned ((rangeFrom c.log previous bounds current).checked c.log known)) }
    | _ => c
  | .install index known keeps =>
    match c.readings[index]? with
    | some (.returned range) =>
      let c := { c with readings := c.readings.set index .ended }
      if keeps then c.keep (range.checked c.log known) else c
    | _ => c
  | .drop => { c with kept := none }

end Cache

end ThreeXhaust.Harness.Context
