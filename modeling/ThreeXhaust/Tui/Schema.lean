import ThreeXhaust.Lib.Table
import ThreeXhaust.Lib.Except
import ThreeXhaust.Lib.Json.Script
import ThreeXhaust.Tui.Timestamp
import ThreeXhaust.Tui.ImagePayload
import ThreeXhaust.Tui.ExecutionGraph

/-!
# The TUI request tables and their row helpers

`tui-operation-schema.ts`, `tui-operation-types.ts` and `tui-operation-helpers.ts`: the
`tui_request_queue` and `tui_execution_events` tables with the constraints an insert meets,
and the functions that read a row back. A lease epoch handed to a call is a natural number;
any other JavaScript number differs from every stored epoch and is refused like a stale one.
-/

namespace ThreeXhaust.Tui

open Json

inductive RequestStatus where
  | queued
  | running
  | completed
  | failed
deriving DecidableEq

structure TuiDispatchBinding where
  conversationGeneration : Nat
  sessionId : Option String
  provider : String
  model : String
  accountId : Option String
  thinkingLevel : Option String
deriving DecidableEq

inductive PromotionKind where
  | side
  | btw
deriving DecidableEq

def PromotionKind.text : PromotionKind → String
  | .side => "side"
  | .btw => "btw"

structure TuiPromotionSource where
  kind : PromotionKind
  sourceId : String
  question : String
  answer : String
  completedAt : String
deriving DecidableEq

/-- The `TuiPromotionPayload` of version 1. -/
def TuiPromotionSource.toValue (source : TuiPromotionSource) : Value :=
  .obj [("version", .nat 1), ("source", .obj [("kind", .str source.kind.text),
    ("sourceId", .str source.sourceId), ("question", .str source.question),
    ("answer", .str source.answer), ("completedAt", .str source.completedAt)])]

structure TuiRequestRow where
  requestId : String
  canonicalPath : String
  position : Nat
  fingerprint : String
  objective : String
  imagesJson : Option String
  bindingVersion : Option Nat
  conversationGeneration : Option Nat
  sessionId : Option String
  provider : Option String
  model : Option String
  accountId : Option String
  thinkingLevel : Option String
  promotionKind : Option String
  promotionId : Option String
  promotionJson : Option String
  status : RequestStatus
  createdAt : String
  updatedAt : String
  ownerId : Option String
  leaseEpoch : Nat
  leaseExpiresAt : Option String
  effectId : Option String
  outcome : Option String
  executionSequence : Nat
  executionSnapshot : Option String
deriving DecidableEq

structure ExecutionEventRow where
  requestId : String
  sequence : Nat
  eventJson : String
  createdAt : String
deriving DecidableEq

structure Database where
  queue : List TuiRequestRow
  events : List ExecutionEventRow
deriving DecidableEq

def Database.empty : Database := ⟨[], []⟩

/-! ## Statements -/

/-- `SELECT … WHERE request_id = ?`. -/
def Database.row? (db : Database) (requestId : String) : Option TuiRequestRow :=
  db.queue.find? (·.requestId = requestId)

/-- An update that has to change exactly one row. -/
def Database.updateOne (db : Database) (p : TuiRequestRow → Bool)
    (f : TuiRequestRow → TuiRequestRow) (message : String) : Except String Database :=
  if db.queue.countP p ≠ 1 then .error message
  else .ok { db with queue := Table.update p f db.queue }

/-- The active rows of the partial index on `(canonical_path, fingerprint)`. -/
def TuiRequestRow.isActive (row : TuiRequestRow) : Bool :=
  row.status = .queued || row.status = .running

/-- `INSERT INTO tui_request_queue` with its primary key and its two unique indexes. -/
def Database.insertRow (db : Database) (row : TuiRequestRow) : Except String Database :=
  if db.queue.any (·.requestId = row.requestId) then
    .error "UNIQUE constraint failed: tui_request_queue.request_id"
  else if row.isActive && db.queue.any fun r =>
      r.canonicalPath = row.canonicalPath && r.fingerprint = row.fingerprint && r.isActive then
    .error "UNIQUE constraint failed: tui_request_queue.canonical_path, tui_request_queue.fingerprint"
  else if row.promotionId.isSome && db.queue.any fun r =>
      r.canonicalPath = row.canonicalPath && r.promotionKind = row.promotionKind
        && r.promotionId = row.promotionId then
    .error "UNIQUE constraint failed: tui_request_queue.canonical_path, tui_request_queue.promotion_kind, tui_request_queue.promotion_id"
  else .ok { db with queue := db.queue ++ [row] }

/-- `INSERT INTO tui_execution_events` behind its contiguity trigger and primary key. -/
def Database.insertEvent (db : Database) (event : ExecutionEventRow) : Except String Database :=
  if event.sequence ≠ ((db.row? event.requestId).map (·.executionSequence + 1)).getD 0 then
    .error "TUI execution event sequence is not contiguous"
  else if db.events.any fun e => e.requestId = event.requestId && e.sequence = event.sequence then
    .error "UNIQUE constraint failed: tui_execution_events.request_id, tui_execution_events.sequence"
  else .ok { db with events := db.events ++ [event] }

/-- `SELECT … FROM tui_execution_events WHERE request_id = ?`. -/
def Database.eventsOf (db : Database) (requestId : String) : List ExecutionEventRow :=
  db.events.filter (·.requestId = requestId)

/-! ## Reading a row back -/

structure TuiRequest where
  id : String
  projectPath : String
  objective : String
  images : List TuiRequestImage
  position : Nat
  status : RequestStatus
  createdAt : String
  binding : Option TuiDispatchBinding
  promotion : Option TuiPromotionSource
deriving DecidableEq

def parsePromotionSource (source : Value) (kindColumn idColumn : String) :
    Except String TuiPromotionSource :=
  match source with
  | .obj _ | .arr _ =>
    let kind : Option PromotionKind :=
      match source.get "kind" with
      | .str "side" => some .side
      | .str "btw" => some .btw
      | _ => none
    match kind, source.get "sourceId", source.get "question", source.get "answer",
      source.get "completedAt" with
    | some kind, .str sourceId, .str question, .str answer, .str completedAt =>
      if kind.text ≠ kindColumn ∨ sourceId ≠ idColumn then
        .error "Invalid TUI promotion source fields"
      else .ok ⟨kind, sourceId, question, answer, completedAt⟩
    | _, _, _, _, _ => .error "Invalid TUI promotion source fields"
  | _ => .error "Invalid TUI promotion source"

def parsePromotion (row : TuiRequestRow) : Except String (Option TuiPromotionSource) :=
  match row.promotionJson, row.promotionKind, row.promotionId with
  | none, none, none => .ok none
  | some json, some kind, some id =>
    match parse json with
    | none => .error "Unexpected token in JSON"
    | some value =>
      if (value.get "version").isNat 1 then
        (parsePromotionSource (value.get "source") kind id).map some
      else .error "Invalid TUI promotion payload"
  | _, _, _ => .error "TUI promotion fields are incomplete"

def truthy (s : Option String) : Option String := s.filter (· ≠ "")

def rowBinding (row : TuiRequestRow) : Option TuiDispatchBinding :=
  match row.bindingVersion, row.conversationGeneration, row.provider, row.model with
  | some version, some generation, some provider, some model =>
    if version = 1 then
      some ⟨generation, row.sessionId, provider, model, truthy row.accountId,
        truthy row.thinkingLevel⟩
    else none
  | _, _, _, _ => none

def rowImages (row : TuiRequestRow) : Except String (List TuiRequestImage) :=
  match truthy row.imagesJson with
  | none => .ok []
  | some json =>
    match parse json with
    | none => .error "Unexpected token in JSON"
    | some value => parseImagePayloads value

def mapTuiRequest (row : TuiRequestRow) : Except String TuiRequest := do
  let promotion ← parsePromotion row
  let images ← rowImages row
  .ok ⟨row.requestId, row.canonicalPath, row.objective, images, row.position, row.status,
    row.createdAt, rowBinding row, promotion⟩

/-! ## Leases -/

/-- `String.prototype.trim` strips these characters. -/
def isTrimmed (c : Char) : Bool :=
  c.toNat ∈ [0x9, 0xA, 0xB, 0xC, 0xD, 0x20, 0xA0, 0x1680, 0x2028, 0x2029, 0x202F, 0x205F, 0x3000,
    0xFEFF] || (0x2000 ≤ c.toNat && c.toNat ≤ 0x200A)

/-- `!text.trim()`. -/
def isBlank (text : String) : Bool := text.toList.all isTrimmed

structure TuiRequestLease where
  ownerId : String
  leaseEpoch : Nat
deriving DecidableEq

def runningTuiRequestRow (db : Database) (requestId : String) : Except String TuiRequestRow :=
  match db.row? requestId with
  | none => .error "TUI request is not running"
  | some row => if row.status = .running then .ok row else .error "TUI request is not running"

def requireTuiRequestLease (lease : TuiRequestLease) : Except String Unit :=
  if isBlank lease.ownerId then .error "TUI request lease owner is required"
  else if ¬ isSafeInteger lease.leaseEpoch ∨ lease.leaseEpoch < 1 then
    .error "TUI request lease epoch is required"
  else .ok ()

def assertTuiRequestLease (row : TuiRequestRow) (lease : TuiRequestLease) : Except String Unit :=
  if row.ownerId ≠ some lease.ownerId then .error "TUI request lease owner does not match"
  else if row.leaseEpoch ≠ lease.leaseEpoch then .error "TUI request lease epoch is stale"
  else .ok ()

/-- `lease_expires_at > ?`: a row without an expiry satisfies neither this nor its reverse. -/
def TuiRequestRow.leaseAfter (row : TuiRequestRow) (now : String) : Bool :=
  match row.leaseExpiresAt with
  | none => false
  | some expiry => now < expiry

/-- `lease_expires_at IS NULL OR lease_expires_at <= ?`. -/
def TuiRequestRow.leaseExpired (row : TuiRequestRow) (now : String) : Bool :=
  match row.leaseExpiresAt with
  | none => true
  | some expiry => expiry ≤ now

def assertActiveTuiRequestLease (row : TuiRequestRow) (lease : TuiRequestLease) (now : String) :
    Except String Unit := do
  assertTuiRequestLease row lease
  if row.leaseExpired now then .error "TUI request lease has expired" else .ok ()

end ThreeXhaust.Tui
