import ThreeXhaust.Lib.Run
import ThreeXhaust.Core.Canonical
import ThreeXhaust.Semantic.Contract

/-!
# The turn coordinator

`core/src/coordinator.ts`: the queue of turns of a session, the turn that is active, and one
provider outbox record for each dispatched turn, as an immutable state that every operation
rebuilds. `serializeCoordinatorState` writes it as canonical JSON and
`restoreCoordinatorState` reads it back.

A record may hold a field that is `undefined`, which is not the same as not holding it: `Field`.
-/

namespace ThreeXhaust.Core

open Json Semantic

/-! ## The state -/

/-- An optional property of an object: missing, there with the value `undefined`, or set. -/
inductive Field (α : Type) where
  | absent
  | undefined
  | value (a : α)
deriving DecidableEq

def Field.fields {α : Type} (key : String) (toValue : α → Value) : Field α → List (String × Value)
  | .absent => []
  | .undefined => [(key, .undefined)]
  | .value a => [(key, toValue a)]

inductive ProviderOutboxState where
  | queued
  | dispatching
  | accepted
  | settled
  | indeterminate
deriving DecidableEq

def ProviderOutboxState.text : ProviderOutboxState → String
  | .queued => "queued"
  | .dispatching => "dispatching"
  | .accepted => "accepted"
  | .settled => "settled"
  | .indeterminate => "indeterminate"

def outboxStates : List ProviderOutboxState :=
  [.queued, .dispatching, .accepted, .settled, .indeterminate]

/-- A character of `[A-Za-z0-9._:-]`. -/
def isIdentifierChar (c : Char) : Bool :=
  isAlphanumeric c || c = '.' || c = '_' || c = ':' || c = '-'

/-- `/^[A-Za-z0-9._:-]{3,128}$/u`. -/
def isIdentifier (s : String) : Bool :=
  3 ≤ s.toList.length && s.toList.length ≤ 128 && s.toList.all isIdentifierChar

/-- `/^sha256:[A-Za-z0-9._:-]+$/u`. -/
def isDigest (s : String) : Bool :=
  "sha256:".toList.isPrefixOf s.toList && 7 < s.toList.length
    && (s.toList.drop 7).all isIdentifierChar

/-- An identifier `assertIdentifier` accepts. -/
abbrev Identifier := { s : String // isIdentifier s = true }

/-- A generation `assertGeneration` accepts. -/
abbrev Generation := { n : Nat // 1 ≤ n ∧ isSafeInteger n }

abbrev JsonObject := { v : Value // v.IsJson ∧ ∃ fields, v = .obj fields }

structure CoordinatorTurn where
  turnId : String
  fingerprint : String
  request : SemanticTurnRequest
  recipeCheckpoint : Option JsonObject

structure ProviderOutboxRecord where
  requestId : String
  turnId : String
  generation : Generation
  payloadDigest : String
  state : ProviderOutboxState
  dispatchAttempts : Nat
  providerRequestId : Field String
  responseDigest : Field String
deriving DecidableEq

structure CoordinatorState where
  sessionId : Identifier
  projectId : ProjectId
  generation : Generation
  queue : List CoordinatorTurn
  activeTurn : Option CoordinatorTurn
  seen : List (String × String)
  outbox : List ProviderOutboxRecord

/-! ## The state as an object -/

def checkpointField : Option JsonObject → List (String × Value)
  | none => []
  | some checkpoint => [("recipeCheckpoint", checkpoint.1)]

def CoordinatorTurn.toValue (turn : CoordinatorTurn) : Value :=
  .obj (("turnId", .str turn.turnId) :: ("fingerprint", .str turn.fingerprint)
    :: ("request", turn.request.toValue) :: checkpointField turn.recipeCheckpoint)

def ProviderOutboxRecord.toValue (record : ProviderOutboxRecord) : Value :=
  .obj (("requestId", .str record.requestId) :: ("turnId", .str record.turnId)
    :: ("generation", .nat record.generation.1) :: ("payloadDigest", .str record.payloadDigest)
    :: ("state", .str record.state.text) :: ("dispatchAttempts", .nat record.dispatchAttempts)
    :: (record.providerRequestId.fields "providerRequestId" .str
      ++ record.responseDigest.fields "responseDigest" .str))

def activeTurnField : Option CoordinatorTurn → List (String × Value)
  | none => []
  | some turn => [("activeTurn", turn.toValue)]

def seenValue (seen : List (String × String)) : Value :=
  .obj (seen.map fun entry => (entry.1, .str entry.2))

def CoordinatorState.toValue (state : CoordinatorState) : Value :=
  .obj (("schemaVersion", .nat 1) :: ("sessionId", .str state.sessionId.1)
    :: ("projectId", .str state.projectId.1) :: ("generation", .nat state.generation.1)
    :: ("queue", .arr (state.queue.map (·.toValue)))
    :: ("seen", seenValue state.seen) :: ("outbox", .arr (state.outbox.map (·.toValue)))
    :: activeTurnField state.activeTurn)

/-! ## Operations -/

def ofParsed {α : Type} (parsed : Parsed α) : Except String α :=
  parsed.mapError (·.message)

def assertIdentifier (value label : String) : Except String Identifier :=
  if h : isIdentifier value = true then .ok ⟨value, h⟩ else .error s!"{label} is invalid"

/-- `Number.isSafeInteger(value) && value >= 1`. -/
def assertGeneration (value : Value) : Except String Generation :=
  match value with
  | .num (.finite d) =>
    match d.toNat? with
    | some n =>
      if h : 1 ≤ n ∧ isSafeInteger n then .ok ⟨n, h⟩
      else .error "Coordinator generation is invalid"
    | none => .error "Coordinator generation is invalid"
  | _ => .error "Coordinator generation is invalid"

def createCoordinatorState (sessionId : String) (projectId generation : Value) :
    Except String CoordinatorState := do
  let sessionId ← assertIdentifier sessionId "Session id"
  let generation ← assertGeneration generation
  let projectId ← ofParsed (parseProjectId projectId)
  .ok ⟨sessionId, projectId, generation, [], none, [], []⟩

def updateOutbox (state : CoordinatorState) (requestId : String) (generation : Value)
    (update : ProviderOutboxRecord → Except String ProviderOutboxRecord) :
    Except String CoordinatorState := do
  let generation ← assertGeneration generation
  match state.outbox.findIdx? (·.requestId = requestId) with
  | none => .error "Provider outbox request is unavailable"
  | some index =>
    match state.outbox[index]? with
    | none => .error "Provider outbox request is unavailable"
    | some current =>
      if generation ≠ state.generation ∨ current.generation ≠ generation then
        .error "Provider outbox generation is stale"
      else
        let record ← update current
        .ok { state with outbox := state.outbox.set index record }

section Digests

variable (sha : String → String)

/-- `seen[fingerprint] = turnId` on a copy. -/
def setSeen (seen : List (String × String)) (fingerprint turnId : String) :
    List (String × String) :=
  if seen.any (·.1 = fingerprint) then
    seen.map fun entry => if entry.1 = fingerprint then (fingerprint, turnId) else entry
  else seen ++ [(fingerprint, turnId)]

def lookupSeen (seen : List (String × String)) (fingerprint : String) : Option String :=
  (seen.find? (·.1 = fingerprint)).map Prod.snd

/-- `enqueueTurn`: the state, whether it was enqueued, and the turn id. -/
def enqueueTurn (state : CoordinatorState) (requestInput : Value) :
    Except String (CoordinatorState × Bool × String) := do
  let request ← ofParsed (parseSemanticTurnRequest requestInput)
  let hash ← sha256 sha request.toValue
  let fingerprint := "sha256:" ++ hash
  match (lookupSeen state.seen fingerprint).filter (· ≠ "") with
  | some duplicate => .ok (state, false, duplicate)
  | none =>
    let turnId := "turn_" ++ slice fingerprint 7 39
    .ok ({ state with
        queue := state.queue ++ [⟨turnId, fingerprint, request, none⟩]
        seen := setSeen state.seen fingerprint turnId }, true, turnId)

def startNextTurn (state : CoordinatorState) :
    Except String (CoordinatorState × Option CoordinatorTurn) :=
  match state.activeTurn with
  | some _ => .error "A coordinator turn is already active"
  | none =>
    match state.queue with
    | [] => .ok (state, none)
    | turn :: queue => .ok ({ state with queue, activeTurn := some turn }, some turn)

/-- `checkpointProviderTurn`: the state and the new outbox record. -/
def checkpointProviderTurn (state : CoordinatorState) (turnId : String)
    (recipeCheckpoint : JsonObject) (payloadDigest : String) :
    Except String (CoordinatorState × ProviderOutboxRecord) :=
  match state.activeTurn with
  | none => .error "Provider checkpoint turn is not active"
  | some active =>
    if active.turnId ≠ turnId then .error "Provider checkpoint turn is not active"
    else if ¬ isDigest payloadDigest then .error "Provider payload digest is invalid"
    else if state.outbox.any (·.turnId = turnId) then
      .error "Provider outbox already exists for the active turn"
    else do
      let requestDigest ← sha256 sha (.obj [("sessionId", .str state.sessionId.1),
        ("turnId", .str turnId), ("generation", .nat state.generation.1),
        ("payloadDigest", .str payloadDigest)])
      let outbox : ProviderOutboxRecord :=
        ⟨"out_" ++ slice requestDigest 0 32, turnId, state.generation, payloadDigest, .queued, 0,
          .absent, .absent⟩
      .ok ({ state with
          activeTurn := some { active with recipeCheckpoint := some recipeCheckpoint }
          outbox := state.outbox ++ [outbox] }, outbox)

end Digests

def markOutboxDispatching (state : CoordinatorState) (requestId : String) (generation : Value) :
    Except String CoordinatorState :=
  updateOutbox state requestId generation fun record =>
    if record.state ≠ .queued then .error "Provider outbox is not queued"
    else .ok { record with state := .dispatching, dispatchAttempts := record.dispatchAttempts + 1 }

def markOutboxAccepted (state : CoordinatorState) (requestId : String) (generation : Value)
    (providerRequestId : String) : Except String CoordinatorState := do
  let _ ← assertIdentifier providerRequestId "Provider request id"
  updateOutbox state requestId generation fun record =>
    if record.state ≠ .dispatching then .error "Provider outbox is not dispatching"
    else .ok { record with state := .accepted, providerRequestId := .value providerRequestId }

def markOutboxSettled (state : CoordinatorState) (requestId : String) (generation : Value)
    (responseDigest : String) : Except String CoordinatorState :=
  if ¬ isDigest responseDigest then .error "Provider response digest is invalid"
  else
    updateOutbox state requestId generation fun record =>
      if record.state ≠ .accepted then .error "Provider outbox is not accepted"
      else .ok { record with state := .settled, responseDigest := .value responseDigest }

structure FailureEvidence where
  conclusivelyRejected : Bool
  providerIdempotencyProven : Bool
deriving DecidableEq

def handleOutboxFailure (state : CoordinatorState) (requestId : String) (generation : Value)
    (evidence : FailureEvidence) : Except String CoordinatorState :=
  updateOutbox state requestId generation fun record =>
    if record.state ≠ .dispatching ∧ record.state ≠ .accepted then
      .error "Provider outbox is not in flight"
    else if evidence.conclusivelyRejected || evidence.providerIdempotencyProven then
      .ok { record with
        state := .queued, providerRequestId := .undefined, responseDigest := .undefined }
    else .ok { record with state := .indeterminate }

def replaceCoordinatorGeneration (state : CoordinatorState) : Except String CoordinatorState := do
  let generation ← assertGeneration (.nat (state.generation.1 + 1))
  .ok { state with
    generation
    outbox := state.outbox.map fun record =>
      if record.state = .dispatching ∨ record.state = .accepted then
        { record with state := .indeterminate }
      else if record.state = .queued then { record with generation }
      else record }

def completeActiveTurn (state : CoordinatorState) : Except String CoordinatorState :=
  match state.activeTurn with
  | none => .error "No coordinator turn is active"
  | some active =>
    if state.outbox.any fun record => record.turnId = active.turnId && record.state ≠ .settled then
      .error "Provider outbox must settle before completing the active turn"
    else .ok { state with activeTurn := none }

/-! ## Checkpoints -/

def serializeCoordinatorState (state : CoordinatorState) : Except String String :=
  canonicalJson state.toValue

/-- `{ ...turn, request: parseSemanticTurnRequest(turn.request) }`. -/
def restoreTurn (turn : Value) : Except String Value :=
  match turn with
  | .null => .error "Cannot read properties of null (reading 'request')"
  | .obj fields => do
    let request ← ofParsed (parseSemanticTurnRequest (turn.get "request"))
    .ok (.obj (setField fields "request" request.toValue))
  -- no other value has a request to parse
  | _ => (ofParsed (parseSemanticTurnRequest .undefined)).map (·.toValue)

def restoreQueue (queue : Value) : Except String Value :=
  match queue with
  | .arr turns => (turns.mapM restoreTurn).map .arr
  | _ => .ok (.arr [])

/-- The field `activeTurn` of the restored object, when there is one. -/
def restoreActiveTurn (activeTurn : Value) : Except String (List (String × Value)) :=
  if activeTurn.truthy then (restoreTurn activeTurn).map fun turn => [("activeTurn", turn)]
  else .ok []

/-- `Object.entries` of an object or an array. -/
def entries : Value → List (String × Value)
  | .obj fields => fields
  | .arr items => items.zipIdx.map fun (item, i) => (toString i, item)
  | _ => []

def restoreEntry (entry : String × Value) : Except String (String × Value) :=
  match entry.2 with
  | .str turnId => .ok (entry.1, .str turnId)
  | _ => .error "Coordinator duplicate index is invalid"

def restoreSeen (seen : Value) : Except String Value :=
  ((entries seen).mapM restoreEntry).map .obj

def restoreRecord (record : Value) : Except String Value :=
  match record, record.get "requestId", record.get "turnId", record.get "state" with
  | .null, _, _, _ => .error "Cannot read properties of null (reading 'requestId')"
  | _, .str _, .str _, .str state =>
    if outboxStates.any (·.text = state) then .ok record
    else .error "Coordinator outbox checkpoint is invalid"
  | _, _, _, _ => .error "Coordinator outbox checkpoint is invalid"

def restoreOutbox (outbox : Value) : Except String Value :=
  match outbox with
  | .arr records => (records.mapM restoreRecord).map .arr
  | _ => .ok (.arr [])

/-- `candidate.generation ?? 0`. -/
def generationOrZero : Value → Value
  | .undefined => .nat 0
  | .null => .nat 0
  | value => value

/-- The object `restoreCoordinatorState` returns. -/
def restoreCoordinatorState (serialized : String) : Except String Value :=
  match parse serialized with
  | none => .error "Unexpected token in JSON"
  | some .null => .error "Cannot read properties of null (reading 'schemaVersion')"
  | some candidate =>
    match (candidate.get "schemaVersion").isNat 1, candidate.get "sessionId" with
    | true, .str sessionId => do
      let projectId ← ofParsed (parseProjectId (candidate.get "projectId"))
      let restored ← createCoordinatorState sessionId (.str projectId.1)
        (generationOrZero (candidate.get "generation"))
      let queue ← restoreQueue (candidate.get "queue")
      let activeTurn ← restoreActiveTurn (candidate.get "activeTurn")
      let seen ← restoreSeen (candidate.get "seen")
      let outbox ← restoreOutbox (candidate.get "outbox")
      .ok (.obj (("schemaVersion", .nat 1) :: ("sessionId", .str restored.sessionId.1)
        :: ("projectId", .str restored.projectId.1)
        :: ("generation", .nat restored.generation.1)
        :: ("queue", queue) :: ("seen", seen) :: ("outbox", outbox) :: activeTurn))
    | _, _ => .error "Coordinator checkpoint version is unsupported"

/-! ## Runs -/

inductive CoordinatorCall where
  | enqueueTurn (request : Value)
  | startNextTurn
  | checkpointProviderTurn (turnId : String) (recipeCheckpoint : JsonObject)
      (payloadDigest : String)
  | markOutboxDispatching (requestId : String) (generation : Number)
  | markOutboxAccepted (requestId : String) (generation : Number) (providerRequestId : String)
  | markOutboxSettled (requestId : String) (generation : Number) (responseDigest : String)
  | handleOutboxFailure (requestId : String) (generation : Number) (evidence : FailureEvidence)
  | replaceCoordinatorGeneration
  | completeActiveTurn

inductive CoordinatorReply where
  | enqueued (enqueued : Bool) (turnId : String)
  | started (turn : Option CoordinatorTurn)
  | checkpointed (outbox : ProviderOutboxRecord)
  | done

def doneWith (result : Except String CoordinatorState) :
    Except String (CoordinatorState × CoordinatorReply) :=
  result.map (·, .done)

/-- One call: the next state and its reply, or what it throws. -/
def CoordinatorCall.exec (sha : String → String) (state : CoordinatorState) :
    CoordinatorCall → Except String (CoordinatorState × CoordinatorReply)
  | .enqueueTurn request =>
    (Core.enqueueTurn sha state request).map fun (state, enqueued, turnId) =>
      (state, .enqueued enqueued turnId)
  | .startNextTurn => (Core.startNextTurn state).map fun (state, turn) => (state, .started turn)
  | .checkpointProviderTurn turnId recipeCheckpoint payloadDigest =>
    (Core.checkpointProviderTurn sha state turnId recipeCheckpoint payloadDigest).map
      fun (state, outbox) => (state, .checkpointed outbox)
  | .markOutboxDispatching requestId generation =>
    doneWith (Core.markOutboxDispatching state requestId (.num generation))
  | .markOutboxAccepted requestId generation providerRequestId =>
    doneWith (Core.markOutboxAccepted state requestId (.num generation) providerRequestId)
  | .markOutboxSettled requestId generation responseDigest =>
    doneWith (Core.markOutboxSettled state requestId (.num generation) responseDigest)
  | .handleOutboxFailure requestId generation evidence =>
    doneWith (Core.handleOutboxFailure state requestId (.num generation) evidence)
  | .replaceCoordinatorGeneration => doneWith (Core.replaceCoordinatorGeneration state)
  | .completeActiveTurn => doneWith (Core.completeActiveTurn state)

/-- The state after a call: one that throws returns no new state. -/
def CoordinatorCall.step (sha : String → String) (state : CoordinatorState)
    (call : CoordinatorCall) : CoordinatorState :=
  match call.exec sha state with
  | .ok (state', _) => state'
  | .error _ => state

end ThreeXhaust.Core
