import ThreeXhaust.Lib.Run
import ThreeXhaust.Tui.Schema
import Mathlib.Data.List.MinMax

/-!
# `TuiOperationStore`

The calls that read or change the request queue, from `tui-operation-queue.ts`,
`tui-operation-leases.ts`, `tui-operation-effects.ts` and `tui-operation-execution.ts`. Every
call runs in one `BEGIN IMMEDIATE` transaction, so calls of any number of processes are one
sequence of atomic steps: `TuiCall.exec`. A call that throws inside its transaction leaves
the database as it was; a row that cannot be mapped back makes `claim` and `recallNewest`
throw after their commit.

A `now` is the time value of the call's `Date`, which is the given text or the clock.
-/

namespace ThreeXhaust.Tui

open Json

/-! ## Execution events -/

/-- `TuiOperationExecutionStore.graph`: the stored snapshot, checked against its events. -/
def Database.graph (db : Database) (requestId : String) (sequence : Nat)
    (snapshot : Option String) : Except String ExecutionGraph :=
  match snapshot with
  | none => .error "TUI execution projection is unavailable"
  | some snapshot =>
    if ¬ isSafeInteger sequence ∨ sequence < 1 then
      .error "TUI execution projection is unavailable"
    else if (db.eventsOf requestId).length ≠ sequence
        ∨ ((db.eventsOf requestId).map (·.sequence)).foldl max 0 ≠ sequence then
      .error "TUI execution event sequence is not contiguous"
    else do
      let graph ← parseExecutionGraphJson snapshot
      match graph.nodes with
      | root :: _ =>
        if graph.runId ≠ requestId ∨ root.id ≠ requestId ∨ root.kind ≠ .root
            ∨ root.parentNodeId ≠ none then
          .error "persisted TUI execution root is invalid"
        else .ok graph
      | [] => .error "persisted TUI execution root is invalid"

/-- The row a lease fence selects: running under this owner and epoch. -/
def TuiRequestRow.heldBy (row : TuiRequestRow) (requestId ownerId : String) (leaseEpoch : Nat) :
    Bool :=
  row.requestId = requestId && row.status = .running && row.ownerId = some ownerId
    && row.leaseEpoch = leaseEpoch

/-- `TuiOperationExecutionStore.append`. -/
def Database.append (db : Database) (requestId ownerId : String) (leaseEpoch sequence : Nat)
    (graph : ExecutionGraph) (event : ExecutionEvent) (now : String) :
    Except String (ExecutionGraph × Database) := do
  if ¬ isSafeInteger (sequence + 1) then
    .error "TUI execution event sequence is exhausted"
  else
    let nextGraph ← applyExecutionEvent graph event
    let db ← db.insertEvent ⟨requestId, sequence + 1, event.toValue.stringify, now⟩
    let db ← db.updateOne
      (fun r => r.heldBy requestId ownerId leaseEpoch && r.executionSequence = sequence)
      (fun r => { r with
        executionSequence := sequence + 1
        executionSnapshot := some nextGraph.toValue.stringify
        updatedAt := now })
      "TUI request lease changed before recording execution event"
    .ok (nextGraph, db)

def Database.initializeRoot (db : Database) (requestId objective ownerId : String)
    (leaseEpoch : Nat) (now : String) : Except String Database :=
  (db.append requestId ownerId leaseEpoch 0 (createExecutionGraph requestId)
    (.started requestId none .root objective) now).map (·.2)

def unfinishedEvent (status nodeId : String) : ExecutionEvent :=
  .completed nodeId false Duration.zero s!"{status}: unfinished"

/-- One round of the loop in `completeRoot`: the root itself is left for the end. -/
def Database.closeNode (requestId ownerId : String) (leaseEpoch : Nat) (status now : String)
    (state : ExecutionGraph × Nat × Database) (nodeId : String) :
    Except String (ExecutionGraph × Nat × Database) :=
  if nodeId = requestId then .ok state
  else do
    let (graph, db) ← state.2.2.append requestId ownerId leaseEpoch state.2.1 state.1
      (unfinishedEvent status nodeId) now
    .ok (graph, state.2.1 + 1, db)

/-- `completeRoot`: close the open nodes, last started first, and then the root. -/
def Database.completeRoot (db : Database) (requestId ownerId : String) (leaseEpoch sequence : Nat)
    (snapshot : Option String) (status : String) (now : String) : Except String Database := do
  let graph ← db.graph requestId sequence snapshot
  let (graph, nextSequence, db) ←
    graph.activeNodeIds.reverse.foldlM (Database.closeNode requestId ownerId leaseEpoch status now)
      (graph, sequence, db)
  let (_, db) ← db.append requestId ownerId leaseEpoch nextSequence graph
    (.completed requestId (status = "completed") Duration.zero status) now
  .ok db

def isRootLifecycle (requestId : String) : ExecutionEvent → Bool
  | .completed nodeId _ _ _ => nodeId = requestId
  | .started _ _ kind _ => kind = .root

def recordExecutionEvent (db : Database) (requestId : String) (lease : TuiRequestLease)
    (now : Option Int) (event : Value) : Except String Database := do
  let now ← isoTimestamp now
  let row ← runningTuiRequestRow db requestId
  assertActiveTuiRequestLease row lease now
  let persistedEvent ← parseExecutionEvent event
  if isRootLifecycle requestId persistedEvent then
    .error "TUI execution root lifecycle is controlled by its request"
  else
    let graph ← db.graph requestId row.executionSequence row.executionSnapshot
    let (_, db) ← db.append requestId lease.ownerId lease.leaseEpoch row.executionSequence graph
      persistedEvent now
    .ok db

/-! ## Recovery and completion -/

def TuiRequestRow.interrupted (row : TuiRequestRow) (projectPath now : String) : Bool :=
  row.canonicalPath = projectPath && row.status = .running && row.leaseExpired now

/-- The loop body of `recoverExpired`: an effect may have happened, so the request fails. -/
def Database.failIndeterminate (now : String) (db : Database) (row : TuiRequestRow) :
    Except String Database :=
  match row.ownerId with
  | none => .error "TUI request lease owner is unavailable"
  | some ownerId => do
    let db ← db.completeRoot row.requestId ownerId row.leaseEpoch row.executionSequence
      row.executionSnapshot "indeterminate" now
    db.updateOne (·.heldBy row.requestId ownerId row.leaseEpoch)
      (fun r => { r with status := .failed, outcome := some "indeterminate", updatedAt := now })
      "TUI request lease changed during recovery"

def TuiRequestRow.requeued (now : String) (row : TuiRequestRow) : TuiRequestRow :=
  { row with
    status := .queued, ownerId := none, leaseExpiresAt := none, outcome := none, updatedAt := now }

def Database.recoverExpired (db : Database) (projectPath now : String) :
    Except String Database := do
  let db ← (db.queue.filter fun r => r.interrupted projectPath now && r.effectId.isSome).foldlM
    (Database.failIndeterminate now) db
  let queue := Table.update (fun r => r.interrupted projectPath now && r.effectId.isNone)
    (TuiRequestRow.requeued now) db.queue
  .ok { db with queue }

def recoverInterrupted (db : Database) (projectPath : String) (now : Option Int) :
    Except String Database := do
  let timestamp ← isoTimestamp now
  db.recoverExpired projectPath timestamp

inductive TuiRequestCompletionStatus where
  | completed
  | failed
  | canceled
deriving DecidableEq

def TuiRequestCompletionStatus.text : TuiRequestCompletionStatus → String
  | .completed => "completed"
  | .failed => "failed"
  | .canceled => "canceled"

def TuiRequestCompletionStatus.persisted : TuiRequestCompletionStatus → FinishedState
  | .completed => .completed
  | .failed => .failed
  | .canceled => .failed

def FinishedState.status : FinishedState → RequestStatus
  | .completed => .completed
  | .failed => .failed

def complete (db : Database) (requestId : String) (status : TuiRequestCompletionStatus)
    (lease : TuiRequestLease) (now : Option Int) : Except String Database := do
  requireTuiRequestLease lease
  let now ← isoTimestamp now
  let row ← runningTuiRequestRow db requestId
  assertActiveTuiRequestLease row lease now
  match row.ownerId with
  | none => .error "TUI request lease owner is unavailable"
  | some ownerId =>
    let db ← db.completeRoot requestId ownerId row.leaseEpoch row.executionSequence
      row.executionSnapshot status.persisted.text now
    db.updateOne (fun r => r.heldBy requestId ownerId row.leaseEpoch && r.leaseAfter now)
      (fun r => { r with
        status := status.persisted.status, outcome := some status.text, updatedAt := now })
      "TUI request lease changed before completion"

def recordEffect (db : Database) (requestId : String) (lease : TuiRequestLease)
    (effectId : String) (now : Option Int) : Except String Database := do
  if effectId = "" then .error "TUI request effect ID is required"
  else
    let now ← isoTimestamp now
    let row ← runningTuiRequestRow db requestId
    assertActiveTuiRequestLease row lease now
    match row.effectId with
    | some existing =>
      if existing ≠ effectId then .error "TUI request effect ID is immutable" else .ok db
    | none =>
      db.updateOne (fun r => r.heldBy requestId lease.ownerId lease.leaseEpoch
          && r.leaseAfter now && r.effectId.isNone)
        (fun r => { r with effectId := some effectId, updatedAt := now })
        "TUI request effect could not be bound"

/-! ## Leases -/

structure ClaimTuiRequestOptions where
  ownerId : String
  requestId : Option String
  leaseMs : Option Int
deriving DecidableEq

def defaultLeaseMs : Int := 60000
def legacyOwnerId : String := "legacy"

def checkedLeaseMs (leaseMs : Int) (message : String) : Except String Nat :=
  if leaseMs < 0 ∨ ¬ isSafeInteger leaseMs.toNat then .error message else .ok leaseMs.toNat

/-- The queued row a claim takes: the named one, or the first by position. -/
def Database.nextQueued (db : Database) (projectPath : String) (requestId : Option String) :
    Option TuiRequestRow :=
  (db.queue.filter fun r => r.canonicalPath = projectPath && r.status = .queued
    && (match truthy requestId with
        | none => true
        | some id => r.requestId = id)).argmin (·.position)

/-- The start of the graph on the first claim; a reclaimed row has to have a sound one. -/
def Database.openGraph (db : Database) (row : TuiRequestRow) (ownerId : String)
    (leaseEpoch : Nat) (now : String) : Except String Database :=
  if row.executionSequence = 0 then
    match row.executionSnapshot with
    | some _ => .error "TUI execution snapshot has no event sequence"
    | none => db.initializeRoot row.requestId row.objective ownerId leaseEpoch now
  else (db.graph row.requestId row.executionSequence row.executionSnapshot).map fun _ => db

/-- The transaction of `claim`: the row it took and its new epoch. -/
def claimTransaction (db : Database) (projectPath : String)
    (options : Option ClaimTuiRequestOptions) (time : Option Int) :
    Except String (Option (TuiRequestRow × Nat) × Database) := do
  let ownerId := (options.map (·.ownerId)).getD legacyOwnerId
  if isBlank ownerId then .error "TUI request lease owner is required"
  else
    let now ← isoTimestamp time
    let leaseMs ← checkedLeaseMs
      (match options with
        | none => 0
        | some options => options.leaseMs.getD defaultLeaseMs)
      "TUI request lease duration must be a non-negative integer"
    let leaseExpiresAt ← leaseExpiry time leaseMs
    let db ← db.recoverExpired projectPath now
    if db.queue.any fun r => r.canonicalPath = projectPath && r.status = .running
        && r.leaseAfter now then
      .ok (none, db)
    else
      match db.nextQueued projectPath (options.bind (·.requestId)) with
      | none => .ok (none, db)
      | some row =>
        let leaseEpoch := row.leaseEpoch + 1
        let db ← db.updateOne (fun r => r.requestId = row.requestId && r.status = .queued)
          (fun r => { r with
            status := .running, ownerId := some ownerId, leaseEpoch := leaseEpoch,
            leaseExpiresAt := some leaseExpiresAt, outcome := none, updatedAt := now })
          "TUI request was claimed by another runtime"
        let db ← db.openGraph row ownerId leaseEpoch now
        .ok (some (row, leaseEpoch), db)

def renewLease (db : Database) (requestId : String) (lease : TuiRequestLease)
    (time : Option Int) (leaseMs : Int) : Except String Database := do
  let now ← isoTimestamp time
  if leaseMs ≤ 0 then .error "TUI request lease duration must be a positive integer"
  else
    let leaseMs ← checkedLeaseMs leaseMs "TUI request lease duration must be a positive integer"
    let leaseExpiresAt ← leaseExpiry time leaseMs
    let row ← runningTuiRequestRow db requestId
    assertActiveTuiRequestLease row lease now
    db.updateOne (fun r => r.heldBy requestId lease.ownerId lease.leaseEpoch && r.leaseAfter now)
      (fun r => { r with
        leaseExpiresAt := r.leaseExpiresAt.map fun expiry =>
          if expiry < leaseExpiresAt then leaseExpiresAt else expiry
        updatedAt := now })
      "TUI request lease fence changed before renewal"

/-! ## The queue -/

structure EnqueueTuiRequestInput where
  requestId : String
  projectPath : String
  fingerprint : String
  objective : String
  images : List TuiRequestImage
  binding : Option TuiDispatchBinding
  promotion : Option TuiPromotionSource
deriving DecidableEq

/-- The row that makes an enqueue a duplicate: by promotion, or by fingerprint while active. -/
def Database.existing (db : Database) (input : EnqueueTuiRequestInput) : Option TuiRequestRow :=
  db.queue.find? fun r => r.canonicalPath = input.projectPath
    && (match input.promotion with
        | some source => r.promotionKind = some source.kind.text
            && r.promotionId = some source.sourceId
        | none => r.fingerprint = input.fingerprint && r.isActive)

/-- `COALESCE(MAX(position), 0) + 1` over the project. -/
def Database.nextPosition (db : Database) (projectPath : String) : Nat :=
  ((db.queue.filter (·.canonicalPath = projectPath)).map (·.position)).foldl max 0 + 1

def newRow (input : EnqueueTuiRequestInput) (position : Nat) (now : String) : TuiRequestRow where
  requestId := input.requestId
  canonicalPath := input.projectPath
  position := position
  fingerprint := input.fingerprint
  objective := input.objective
  imagesJson := if input.images = [] then none else some (imagesValue input.images).stringify
  bindingVersion := input.binding.map fun _ => 1
  conversationGeneration := input.binding.map (·.conversationGeneration)
  sessionId := input.binding.bind (·.sessionId)
  provider := input.binding.map (·.provider)
  model := input.binding.map (·.model)
  accountId := input.binding.bind (·.accountId)
  thinkingLevel := input.binding.bind (·.thinkingLevel)
  promotionKind := input.promotion.map (·.kind.text)
  promotionId := input.promotion.map (·.sourceId)
  promotionJson := input.promotion.map (·.toValue.stringify)
  status := .queued
  createdAt := now
  updatedAt := now
  ownerId := none
  leaseEpoch := 0
  leaseExpiresAt := none
  effectId := none
  outcome := none
  executionSequence := 0
  executionSnapshot := none

/-- The transaction of `enqueue`; `none` when a row is already there. -/
def enqueueTransaction (db : Database) (input : EnqueueTuiRequestInput) (time : Option Int) :
    Except String (Option TuiRequestRow × Database) := do
  let _ ← parseImagePayloads (imagesValue input.images)
  let now ← isoTimestamp time
  match db.existing input with
  | some _ => .ok (none, db)
  | none =>
    let row := newRow input (db.nextPosition input.projectPath) now
    let db ← db.insertRow row
    .ok (some row, db)

/-- The queued row `recallNewest` takes: the last by position. -/
def Database.newestQueued (db : Database) (projectPath : String) : Option TuiRequestRow :=
  (db.queue.filter fun r => r.canonicalPath = projectPath && r.status = .queued).argmax
    (·.position)

def recallTransaction (db : Database) (projectPath : String) (now : Option Int) :
    Except String (Option TuiRequestRow × Database) := do
  let recalledAt ← isoTimestamp now
  match db.newestQueued projectPath with
  | none => .ok (none, db)
  | some row =>
    let db ← db.updateOne (fun r => r.requestId = row.requestId && r.status = .queued)
      (fun r => { r with status := .failed, outcome := some "recalled", updatedAt := recalledAt })
      "TUI pending request changed before recall"
    .ok (some row, db)

/-! ## Calls -/

inductive TuiCall where
  | enqueue (input : EnqueueTuiRequestInput) (now : Option Int)
  | claim (projectPath : String) (options : Option ClaimTuiRequestOptions) (now : Option Int)
  | renewLease (requestId : String) (lease : TuiRequestLease) (now : Option Int) (leaseMs : Int)
  | recordExecutionEvent (requestId : String) (lease : TuiRequestLease) (now : Option Int)
      (event : Value)
  | recordEffect (requestId : String) (lease : TuiRequestLease) (effectId : String)
      (now : Option Int)
  | complete (requestId : String) (status : TuiRequestCompletionStatus) (lease : TuiRequestLease)
      (now : Option Int)
  | recoverInterrupted (projectPath : String) (now : Option Int)
  | recallNewest (projectPath : String) (now : Option Int)

inductive TuiReply where
  | enqueued (request : TuiRequest) (inserted : Bool)
  | claimed (claim : Option (TuiRequest × TuiRequestLease))
  | done
  | recalled (request : Option TuiRequest)

def commit {α : Type} (db : Database) : Except String (α × Database) → Database × Except String α
  | .ok (a, db') => (db', .ok a)
  | .error message => (db, .error message)

/-- A transaction that only changes the database. -/
def commitDone (db : Database) (t : Except String Database) : Database × Except String TuiReply :=
  commit db (t.map fun db' => (TuiReply.done, db'))

/-- The reply of `claim`, built from the row as it was selected, after the commit. -/
def claimReply (options : Option ClaimTuiRequestOptions) :
    Option (TuiRequestRow × Nat) → Except String TuiReply
  | none => .ok (.claimed none)
  | some (row, leaseEpoch) => do
    let request ← mapTuiRequest { row with status := .running }
    .ok (.claimed (some (request, ⟨(options.map (·.ownerId)).getD legacyOwnerId, leaseEpoch⟩)))

def enqueueReply (db : Database) (input : EnqueueTuiRequestInput) :
    Option TuiRequestRow → Except String TuiReply
  | some row =>
    .ok (.enqueued ⟨input.requestId, input.projectPath, input.objective, input.images,
      row.position, .queued, row.createdAt, input.binding, input.promotion⟩ true)
  | none =>
    match db.existing input with
    | none => .error "TUI request is unavailable"
    | some row => (mapTuiRequest row).map (.enqueued · false)

def recallReply : Option TuiRequestRow → Except String TuiReply
  | none => .ok (.recalled none)
  | some row => (mapTuiRequest row).map (.recalled ∘ some)

def TuiCall.exec (db : Database) : TuiCall → Database × Except String TuiReply
  | .enqueue input now =>
    let (db', result) := commit db (enqueueTransaction db input now)
    (db', result.bind (enqueueReply db input))
  | .claim projectPath options now =>
    let (db', result) := commit db (claimTransaction db projectPath options now)
    (db', result.bind (claimReply options))
  | .renewLease requestId lease now leaseMs =>
    commitDone db (Tui.renewLease db requestId lease now leaseMs)
  | .recordExecutionEvent requestId lease now event =>
    commitDone db (Tui.recordExecutionEvent db requestId lease now event)
  | .recordEffect requestId lease effectId now =>
    commitDone db (Tui.recordEffect db requestId lease effectId now)
  | .complete requestId status lease now =>
    commitDone db (Tui.complete db requestId status lease now)
  | .recoverInterrupted projectPath now =>
    commitDone db (Tui.recoverInterrupted db projectPath now)
  | .recallNewest projectPath now =>
    let (db', result) := commit db (recallTransaction db projectPath now)
    (db', result.bind recallReply)

def TuiCall.step (db : Database) (call : TuiCall) : Database := (call.exec db).1

/-- The databases any sequence of calls reaches, all of whose steps satisfy `guard`. -/
abbrev ReachableWith (guard : Database → TuiCall → Prop) : Database → Prop :=
  Run.Reachable TuiCall.step guard Database.empty

/-- The databases any sequence of calls reaches. -/
abbrev Reachable : Database → Prop := ReachableWith Run.always

end ThreeXhaust.Tui
