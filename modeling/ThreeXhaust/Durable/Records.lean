import ThreeXhaust.Delta.Immutable
import ThreeXhaust.Lib.Json.RoundTrip

/-!
# What a session stores

The records of `durable/src/types.ts`, the writes that a commit is made of, and the reads of
`Storage` with what they return. Ids and seqs are numbers that storage mints. A JSON payload that
no code here looks into is one `Json.Value`; the trace carriers, `memos` and the counts of
restarts, which none of it reads, are left out.
-/

namespace ThreeXhaust.Durable

/-! ## Records -/

/-- `ConversationRecord.parent`: history is inherited through this entry, inclusive. -/
structure ForkPoint where
  conversationId : Nat
  entryId : Nat
deriving DecidableEq

structure Owner where
  conversationId : Nat
  taskId : Nat
deriving DecidableEq

structure ConversationRecord where
  id : Nat
  parent : Option ForkPoint
  owner : Option Owner
deriving DecidableEq

structure EntryRecord where
  id : Nat
  conversationId : Nat
  kind : String
  model : Option Json.Value
  data : Option Json.Value
  head : Option Nat
  edits : Option Json.Value
  byTaskId : Option Nat

inductive TaskStatus where
  | pending
  | running
  | waiting
  | sleeping
  | completing
  | terminal
deriving DecidableEq

/-- `body` is the checkpoint with what a task waits for, or the outcome. -/
structure TaskState where
  status : TaskStatus
  body : Json.Value

structure TaskRecord where
  id : Nat
  conversationId : Nat
  kind : String
  version : Nat
  input : Json.Value
  owner : Option Nat
  background : Bool
  abortRequested : Bool
  abandonOnRestart : Bool
  startedAt : Option Nat
  endedAt : Option Nat
  state : TaskState

inductive SubmissionType where
  | input
  | write
  | continue
deriving DecidableEq

inductive SubmissionStatus where
  | queued
  | placed
  | done
  | unanswered
deriving DecidableEq

structure SubmissionRecord where
  id : Nat
  conversationId : Nat
  requestId : Option String
  type : SubmissionType
  status : SubmissionStatus
  entry : Option Nat
  answer : Option Nat
  reason : Option String
  detail : Option Json.Value

inductive Scope where
  | session
  | conversation (conversationId : Nat)
  | task (taskId : Nat)
deriving DecidableEq

/-- Without a key it is the address of a singleton, with one that of a member of a family. -/
structure DocumentAddress where
  kind : String
  scope : Scope
  key : Option String
deriving DecidableEq

inductive History where
  | latest
  | rewindable
deriving DecidableEq

inductive Fork where
  | asOf
  | current
  | initial
deriving DecidableEq

/-- `history` and `fork` are there for a conversation document only. -/
structure DocumentCreate extends DocumentAddress where
  id : Nat
  history : Option History
  fork : Option Fork
deriving DecidableEq

structure DocumentRecord extends DocumentCreate where
  createdAt : Nat
  retiredAt : Option Nat
deriving DecidableEq

/-! ## Document contents -/

abbrev DocumentValue := Delta.Value Nat

abbrev DocumentOp := Delta.Op (Delta.Value Nat)

inductive ContentBody where
  | base (value : DocumentValue)
  | delta (ops : List DocumentOp)

structure DocumentContent where
  version : Nat
  body : ContentBody

/-- `DocumentPoint`. -/
inductive Point where
  | current
  | seq (seq : Nat)
deriving DecidableEq

structure CopySource where
  id : Nat
  point : Point

structure StoredDocument where
  record : DocumentRecord
  version : Nat
  value : DocumentValue
  deltasSinceBase : Nat

inductive StorageWrite where
  | conversation (value : ConversationRecord)
  | entry (value : EntryRecord)
  | task (value : TaskRecord)
  | submission (value : SubmissionRecord)
  | create (record : DocumentCreate) (version : Nat) (value : DocumentValue)
  | copy (record : DocumentCreate) (source : CopySource)
  | change (id : Nat) (content : DocumentContent)
  | retire (id : Nat)

/-! ## Reads -/

inductive StorageError where
  /-- A `StorageRequestError`. -/
  | request (message : String)
  | error (message : String)
  /-- The `TypeError` of a field of `undefined`. -/
  | typeError
  /-- A walk over a chain of forks that has no end. -/
  | diverges
deriving DecidableEq

inductive ScanOrder where
  | ascending
  | descending
deriving DecidableEq

def ScanOrder.name : ScanOrder → String
  | .ascending => "ascending"
  | .descending => "descending"

inductive Field (α : Type) where
  | absent
  | valid (value : α)
  | invalid

/-- A cursor; `after` is valid when it is a safe integer. -/
structure Cursor where
  after : Field Int
  order : Field ScanOrder

structure Page (α : Type) where
  items : List α
  next : Option Cursor

structure EntryQuery where
  conversationId : Nat
  minEntryId : Option Int
  maxEntryId : Option Int
  order : Option ScanOrder

structure DocumentQuery where
  scope : Scope
  point : Point
  kind : Option String

structure ConversationQuery where
  ownerConversationId : Option Nat
  ownerTaskId : Option Nat
  order : Option ScanOrder

structure TaskQuery where
  conversationId : Option Nat
  kind : Option String
  status : Option TaskStatus
  abortRequested : Option Bool
  background : Option Bool
  order : Option ScanOrder

structure SubmissionQuery where
  conversationId : Option Nat
  status : Option SubmissionStatus
  order : Option ScanOrder

structure StoredEntry where
  entry : EntryRecord
  commitSeq : Nat

/-- A call of one of the reads of `Storage`. -/
inductive Read where
  | conversation (id : Nat)
  | scanConversations (query : ConversationQuery) (limit : Nat) (cursor : Option Cursor)
  | entry (id : Nat)
  | visibleEntry (conversationId id : Nat)
  | findLatestHeadMarker (conversationId : Nat) (atOrBefore : Option Int)
  | scanEntries (query : EntryQuery) (limit : Nat) (cursor : Option Cursor)
  | task (id : Nat)
  | scanTasks (query : TaskQuery) (limit : Nat) (cursor : Option Cursor)
  | submission (id : Nat)
  | scanSubmissions (query : SubmissionQuery) (limit : Nat) (cursor : Option Cursor)
  | submissionByRequest (conversationId : Nat) (requestId : String)
  | findDocument (address : DocumentAddress) (point : Point)
  | document (id : Nat) (point : Point)
  | scanDocuments (query : DocumentQuery) (limit : Nat) (cursor : Option Cursor)

def Read.Result : Read → Type
  | .conversation _ => Option ConversationRecord
  | .scanConversations _ _ _ => Page ConversationRecord
  | .entry _ => Option StoredEntry
  | .visibleEntry _ _ => Option StoredEntry
  | .findLatestHeadMarker _ _ => Option EntryRecord
  | .scanEntries _ _ _ => Page EntryRecord
  | .task _ => Option TaskRecord
  | .scanTasks _ _ _ => Page TaskRecord
  | .submission _ => Option SubmissionRecord
  | .scanSubmissions _ _ _ => Page SubmissionRecord
  | .submissionByRequest _ _ => Option SubmissionRecord
  | .findDocument _ _ => Option DocumentRecord
  | .document _ _ => Option StoredDocument
  | .scanDocuments _ _ _ => Page DocumentRecord

end ThreeXhaust.Durable
