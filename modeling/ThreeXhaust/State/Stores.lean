import ThreeXhaust.Lib.Run
import ThreeXhaust.Lib.Table
import ThreeXhaust.Lib.Except
import Mathlib.Data.String.Basic

/-!
# The durable state of coding runs

`state-schema.ts`, `state-run-store.ts`, `state-resume-store.ts` and `state-journal-store.ts`:
the tables behind one coding run, with the keys and references an insert meets, and the calls
on them. Every call is one statement or one `BEGIN IMMEDIATE` transaction, so the calls of any
number of processes are one sequence of atomic steps, and a call that throws leaves the
database as it was.

A `now` is the text of the clock at the call. Where several joined rows share the newest
`updated_at`, SQLite may return any of them: the `pick` of a claim says which.
-/

namespace ThreeXhaust.State

inductive ChatStatus where
  | idle
  | queued
  | running
  | paused
  | failed
  | completed
deriving DecidableEq

inductive QueueStatus where
  | queued
  | running
  | failed
  | completed
  | indeterminate
deriving DecidableEq

inductive OutboxState where
  | queued
  | dispatching
  | accepted
  | settled
  | indeterminate
deriving DecidableEq

def OutboxState.text : OutboxState → String
  | .queued => "queued"
  | .dispatching => "dispatching"
  | .accepted => "accepted"
  | .settled => "settled"
  | .indeterminate => "indeterminate"

structure ProjectRow where
  projectId : String
  canonicalPath : String
  createdAt : String
deriving DecidableEq

structure ChatRow where
  sessionId : String
  projectId : String
  status : ChatStatus
  createdAt : String
  updatedAt : String
deriving DecidableEq

structure RequestRow where
  requestId : String
  sessionId : String
  position : Nat
  fingerprint : String
  payload : String
  status : QueueStatus
  createdAt : String
deriving DecidableEq

structure CheckpointRow where
  sessionId : String
  generation : Int
  payload : String
  updatedAt : String
deriving DecidableEq

structure OutboxRow where
  requestId : String
  generation : Int
  state : OutboxState
  payloadDigest : String
  providerRequestId : Option String
  updatedAt : String
deriving DecidableEq

structure ObservationRow where
  observationId : String
  sessionId : String
  payload : String
  createdAt : String
deriving DecidableEq

structure ObservationSessionRow where
  sessionId : String
  observationId : String
  createdAt : String
deriving DecidableEq

inductive PatchState where
  | proposed
  | approved
  | applied
  | conflict
  | rejected
deriving DecidableEq

structure PatchRow where
  patchId : String
  sessionId : String
  baseRevision : String
  state : PatchState
  payload : String
  createdAt : String
  updatedAt : String
deriving DecidableEq

structure Database where
  projects : List ProjectRow
  chats : List ChatRow
  requestQueue : List RequestRow
  checkpoints : List CheckpointRow
  providerOutbox : List OutboxRow
  observations : List ObservationRow
  observationSessions : List ObservationSessionRow
  patchJournal : List PatchRow
deriving DecidableEq

def Database.empty : Database := ⟨[], [], [], [], [], [], [], []⟩

def Database.outbox? (db : Database) (requestId : String) : Option OutboxRow :=
  db.providerOutbox.find? (·.requestId = requestId)

def Database.hasChat (db : Database) (sessionId : String) : Bool :=
  db.chats.any (·.sessionId = sessionId)

/-! ## Runs: `StateRunStore` -/

structure BeginRunInput where
  projectId : String
  projectPath : String
  sessionId : String
  requestId : String
  fingerprint : String
  payload : String
  checkpoint : String
  generation : Int
deriving DecidableEq

/-- `INSERT OR IGNORE INTO projects`: ignored on either of its two keys. -/
def Database.insertProject (db : Database) (projectId projectPath now : String) : Database :=
  if db.projects.any fun p => p.projectId = projectId || p.canonicalPath = projectPath then db
  else { db with projects := db.projects ++ [⟨projectId, projectPath, now⟩] }

def begin (db : Database) (input : BeginRunInput) (now : String) : Except String Database :=
  let db := db.insertProject input.projectId input.projectPath now
  if db.hasChat input.sessionId then .error "UNIQUE constraint failed: chats.session_id"
  else if ¬ db.projects.any (·.projectId = input.projectId) then
    .error "FOREIGN KEY constraint failed"
  else if db.requestQueue.any (·.requestId = input.requestId) then
    .error "UNIQUE constraint failed: request_queue.request_id"
  else if db.requestQueue.any fun r =>
      r.sessionId = input.sessionId && r.fingerprint = input.fingerprint then
    .error "UNIQUE constraint failed: request_queue.session_id, request_queue.fingerprint"
  else if db.checkpoints.any (·.sessionId = input.sessionId) then
    .error "UNIQUE constraint failed: checkpoints.session_id"
  else if db.providerOutbox.any (·.requestId = input.requestId) then
    .error "UNIQUE constraint failed: provider_outbox.request_id"
  else
    .ok { db with
      chats := db.chats ++ [⟨input.sessionId, input.projectId, .running, now, now⟩]
      requestQueue := db.requestQueue ++
        [⟨input.requestId, input.sessionId, 1, input.fingerprint, input.payload, .running, now⟩]
      checkpoints := db.checkpoints ++
        [⟨input.sessionId, input.generation, input.checkpoint, now⟩]
      providerOutbox := db.providerOutbox ++
        [⟨input.requestId, input.generation, .queued, input.fingerprint, none, now⟩] }

def recoverInterrupted (db : Database) : Database :=
  { db with
    requestQueue := Table.update (·.status = .running) ({ · with status := .queued })
      db.requestQueue
    providerOutbox := Table.update (fun r => r.state = .dispatching || r.state = .accepted)
      ({ · with state := .indeterminate }) db.providerOutbox
    chats := Table.update (·.status = .running) ({ · with status := .paused }) db.chats }

inductive RunStatus where
  | completed
  | failed
deriving DecidableEq

def RunStatus.queue : RunStatus → QueueStatus
  | .completed => .completed
  | .failed => .failed

def RunStatus.chat : RunStatus → ChatStatus
  | .completed => .completed
  | .failed => .failed

def complete (db : Database) (sessionId requestId : String) (status : RunStatus) (now : String) :
    Database :=
  { db with
    requestQueue := Table.update (·.requestId = requestId) ({ · with status := status.queue })
      db.requestQueue
    chats := Table.update (·.sessionId = sessionId)
      ({ · with status := status.chat, updatedAt := now }) db.chats }

/-! ## Dispatches and checkpoints: `StateResumeStore` -/

/-- An update of the outbox that has to change exactly one row. -/
def Database.updateOutbox (db : Database) (p : OutboxRow → Bool) (f : OutboxRow → OutboxRow)
    (message : String) : Except String Database :=
  if db.providerOutbox.countP p ≠ 1 then .error message
  else .ok { db with providerOutbox := Table.update p f db.providerOutbox }

/-- Why a dispatch was refused. -/
def dispatchRefusal (db : Database) (requestId : String) (generation : Int) : String :=
  match db.outbox? requestId with
  | none => "Provider outbox request is unavailable"
  | some row =>
    if row.generation ≠ generation then "Provider outbox generation is stale"
    else
      let state := row.state.text
      s!"Provider outbox is {state}; automatic dispatch is blocked"

def markDispatching (db : Database) (requestId : String) (generation : Int) (now : String) :
    Except String Database :=
  db.updateOutbox
    (fun r => r.requestId = requestId && r.generation = generation && r.state = .queued)
    ({ · with state := .dispatching, updatedAt := now })
    (dispatchRefusal db requestId generation)

def settle (db : Database) (requestId : String) (providerRequestId : Option String)
    (now : String) : Except String Database :=
  db.updateOutbox (fun r => r.requestId = requestId && r.state = .dispatching)
    ({ · with state := .settled, providerRequestId := providerRequestId, updatedAt := now })
    "Provider outbox could not be settled from dispatching"

/-- `writeCheckpoint`: a session without a checkpoint is passed over. -/
def Database.writeCheckpoint (db : Database) (sessionId : String) (generation : Int)
    (checkpoint now : String) : Database :=
  { db with
    checkpoints := Table.update (·.sessionId = sessionId)
      ({ · with generation := generation, payload := checkpoint, updatedAt := now })
      db.checkpoints }

def settleAndCheckpoint (db : Database) (requestId sessionId : String) (generation : Int)
    (providerRequestId : Option String) (checkpoint now : String) : Except String Database := do
  let db ← db.updateOutbox
    (fun r => r.requestId = requestId && r.generation = generation && r.state = .dispatching)
    ({ · with state := .settled, providerRequestId := providerRequestId, updatedAt := now })
    "Provider outbox could not be settled from dispatching"
  .ok (db.writeCheckpoint sessionId generation checkpoint now)

def prepareDispatch (db : Database) (requestId sessionId : String) (generation : Int)
    (payloadDigest checkpoint now : String) : Except String Database := do
  let db ← db.updateOutbox (fun r => r.requestId = requestId && r.state = .settled)
    ({ · with
      generation := generation, state := .queued, payloadDigest := payloadDigest,
      providerRequestId := none, updatedAt := now })
    "Provider outbox is not safely settled for the next dispatch"
  let db := db.writeCheckpoint sessionId generation checkpoint now
  .ok { db with
    requestQueue := Table.update (·.requestId = requestId) ({ · with status := .running })
      db.requestQueue
    chats := Table.update (·.sessionId = sessionId)
      ({ · with status := .running, updatedAt := now }) db.chats }

def updateCheckpoint (db : Database) (sessionId : String) (generation : Int)
    (checkpoint now : String) : Except String Database :=
  if db.checkpoints.countP (·.sessionId = sessionId) ≠ 1 then
    .error "Durable checkpoint is unavailable"
  else .ok (db.writeCheckpoint sessionId generation checkpoint now)

/-! ## Resuming -/

structure ResumeCheckpoint where
  sessionId : String
  projectPath : String
  payload : String
  requestId : String
  requestPayload : String
  fingerprint : String
  generation : Int
  outboxState : OutboxState
  updatedAt : String
deriving DecidableEq

def ChatStatus.resumable (status : ChatStatus) : Bool :=
  status = .paused || status = .queued || status = .failed

/-- A filter that is left out when its argument is missing or empty. -/
def matchesFilter (filter : Option String) (value : String) : Bool :=
  match filter with
  | none => true
  | some text => text = "" || value = text

/-- The rows of the five-way join of `find`. -/
def Database.resumable (db : Database) (sessionId projectPath : Option String) :
    List ResumeCheckpoint :=
  db.checkpoints.flatMap fun checkpoint =>
    (db.chats.filter fun chat => chat.sessionId = checkpoint.sessionId
        && chat.status.resumable && matchesFilter sessionId chat.sessionId).flatMap fun chat =>
    (db.projects.filter fun project => project.projectId = chat.projectId
        && matchesFilter projectPath project.canonicalPath).flatMap fun project =>
    (db.requestQueue.filter fun request => request.sessionId = chat.sessionId
        && request.status ≠ .indeterminate).flatMap fun request =>
    (db.providerOutbox.filter (·.requestId = request.requestId)).map fun outbox =>
      ⟨chat.sessionId, project.canonicalPath, checkpoint.payload, request.requestId,
        request.payload, request.fingerprint, checkpoint.generation, outbox.state,
        checkpoint.updatedAt⟩

def find (db : Database) (sessionId projectPath : Option String) (pick : Nat) :
    Option ResumeCheckpoint :=
  let rows := db.resumable sessionId projectPath
  let newest := rows.filter fun row => rows.all (·.updatedAt ≤ row.updatedAt)
  newest[pick % newest.length]?

def assertSafe (checkpoint : ResumeCheckpoint) : Except String Unit :=
  if checkpoint.outboxState = .indeterminate then
    .error "Provider receipt is indeterminate; automatic resend is blocked. Inspect the provider before retrying."
  else if checkpoint.outboxState ≠ .queued ∧ checkpoint.outboxState ≠ .settled then
    let state := checkpoint.outboxState.text
    .error s!"Provider outbox is {state}; resume is not safe"
  else .ok ()

def claimCheckpoint (db : Database) (checkpoint : ResumeCheckpoint) (now : String) :
    Except String Database :=
  if db.chats.countP (fun c => c.sessionId = checkpoint.sessionId && c.status.resumable) ≠ 1 then
    .error "Durable checkpoint was claimed by another runtime"
  else
    .ok { db with
      chats := Table.update
        (fun c => c.sessionId = checkpoint.sessionId && c.status.resumable)
        ({ · with status := .running, updatedAt := now }) db.chats
      requestQueue := Table.update (·.requestId = checkpoint.requestId)
        ({ · with status := .running }) db.requestQueue }

def retireIndeterminate (db : Database) (checkpoint : ResumeCheckpoint) (now : String) :
    Except String Database :=
  if db.requestQueue.countP (fun r => r.requestId = checkpoint.requestId
      && (r.status = .queued || r.status = .running || r.status = .failed)) ≠ 1 then
    .error "Indeterminate provider request could not be retired"
  else if db.chats.countP (fun c => c.sessionId = checkpoint.sessionId && c.status.resumable)
      ≠ 1 then
    .error "Indeterminate provider session could not be retired"
  else
    .ok { db with
      requestQueue := Table.update (fun r => r.requestId = checkpoint.requestId
          && (r.status = .queued || r.status = .running || r.status = .failed))
        ({ · with status := .indeterminate }) db.requestQueue
      chats := Table.update
        (fun c => c.sessionId = checkpoint.sessionId && c.status.resumable)
        ({ · with status := .failed, updatedAt := now }) db.chats }

def claim (db : Database) (sessionId projectPath : Option String) (pick : Nat) (now : String) :
    Except String (Option ResumeCheckpoint × Database) :=
  match find db sessionId projectPath pick with
  | none => .ok (none, db)
  | some checkpoint => do
    assertSafe checkpoint
    let db ← claimCheckpoint db checkpoint now
    .ok (some checkpoint, db)

inductive ExplicitResumeClaim where
  | checkpoint (checkpoint : ResumeCheckpoint)
  | restart (checkpoint : ResumeCheckpoint)
deriving DecidableEq

def claimExplicit (db : Database) (sessionId projectPath : Option String) (pick : Nat)
    (now : String) : Except String (Option ExplicitResumeClaim × Database) :=
  match find db sessionId projectPath pick with
  | none => .ok (none, db)
  | some checkpoint =>
    if checkpoint.outboxState = .indeterminate then do
      let db ← retireIndeterminate db checkpoint now
      .ok (some (.restart checkpoint), db)
    else do
      assertSafe checkpoint
      let db ← claimCheckpoint db checkpoint now
      .ok (some (.checkpoint checkpoint), db)

/-! ## Journals: `StateJournalStore` -/

def recordObservation (db : Database) (sessionId observationId payload now : String) :
    Except String Database :=
  if db.observations.any fun o => o.observationId = observationId && o.payload ≠ payload then
    .error "Content-addressed observation payload does not match its existing ID"
  else if ¬ db.hasChat sessionId then .error "FOREIGN KEY constraint failed"
  else
    .ok { db with
      observations :=
        if db.observations.any (·.observationId = observationId) then db.observations
        else db.observations ++ [⟨observationId, sessionId, payload, now⟩]
      observationSessions :=
        if db.observationSessions.any fun o =>
            o.sessionId = sessionId && o.observationId = observationId then
          db.observationSessions
        else db.observationSessions ++ [⟨sessionId, observationId, now⟩] }

/-- `recordPatch`: an upsert on the patch id. -/
def recordPatch (db : Database) (sessionId patchId baseRevision : String) (state : PatchState)
    (payload now : String) : Except String Database :=
  if db.patchJournal.any (·.patchId = patchId) then
    .ok { db with
      patchJournal := Table.update (·.patchId = patchId)
        ({ · with state := state, payload := payload, updatedAt := now }) db.patchJournal }
  else if ¬ db.hasChat sessionId then .error "FOREIGN KEY constraint failed"
  else
    .ok { db with
      patchJournal :=
        db.patchJournal ++ [⟨patchId, sessionId, baseRevision, state, payload, now, now⟩] }

/-! ## Calls -/

inductive StateCall where
  | begin (input : BeginRunInput) (now : String)
  | markDispatching (requestId : String) (generation : Int) (now : String)
  | settle (requestId : String) (providerRequestId : Option String) (now : String)
  | settleAndCheckpoint (requestId sessionId : String) (generation : Int)
      (providerRequestId : Option String) (checkpoint now : String)
  | prepareDispatch (requestId sessionId : String) (generation : Int)
      (payloadDigest checkpoint now : String)
  | updateCheckpoint (sessionId : String) (generation : Int) (checkpoint now : String)
  | recoverInterrupted
  | claim (sessionId projectPath : Option String) (pick : Nat) (now : String)
  | claimExplicit (sessionId projectPath : Option String) (pick : Nat) (now : String)
  | complete (sessionId requestId : String) (status : RunStatus) (now : String)
  | recordObservation (sessionId observationId payload now : String)
  | recordPatch (sessionId patchId baseRevision : String) (state : PatchState)
      (payload now : String)

inductive StateReply where
  | done
  | claimed (checkpoint : Option ResumeCheckpoint)
  | claimedExplicit (claim : Option ExplicitResumeClaim)

def done (db : Database) : StateReply × Database := (.done, db)

def StateCall.transaction (db : Database) : StateCall → Except String (StateReply × Database)
  | .begin input now => (State.begin db input now).map done
  | .markDispatching requestId generation now =>
    (State.markDispatching db requestId generation now).map done
  | .settle requestId providerRequestId now =>
    (State.settle db requestId providerRequestId now).map done
  | .settleAndCheckpoint requestId sessionId generation providerRequestId checkpoint now =>
    (State.settleAndCheckpoint db requestId sessionId generation providerRequestId checkpoint
      now).map done
  | .prepareDispatch requestId sessionId generation payloadDigest checkpoint now =>
    (State.prepareDispatch db requestId sessionId generation payloadDigest checkpoint now).map done
  | .updateCheckpoint sessionId generation checkpoint now =>
    (State.updateCheckpoint db sessionId generation checkpoint now).map done
  | .recoverInterrupted => .ok (done (State.recoverInterrupted db))
  | .claim sessionId projectPath pick now =>
    (State.claim db sessionId projectPath pick now).map fun (c, db') => (.claimed c, db')
  | .claimExplicit sessionId projectPath pick now =>
    (State.claimExplicit db sessionId projectPath pick now).map
      fun (c, db') => (.claimedExplicit c, db')
  | .complete sessionId requestId status now =>
    .ok (done (State.complete db sessionId requestId status now))
  | .recordObservation sessionId observationId payload now =>
    (State.recordObservation db sessionId observationId payload now).map done
  | .recordPatch sessionId patchId baseRevision state payload now =>
    (State.recordPatch db sessionId patchId baseRevision state payload now).map done

def StateCall.succeeds (db : Database) (call : StateCall) : Bool := (call.transaction db).isOk

/-- The database after the call: a transaction that throws is rolled back. -/
def StateCall.step (db : Database) (call : StateCall) : Database :=
  match call.transaction db with
  | .ok (_, db') => db'
  | .error _ => db

end ThreeXhaust.State
