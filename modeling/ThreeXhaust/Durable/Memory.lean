import ThreeXhaust.Durable.Records
import ThreeXhaust.Lib.Json.Script
import ThreeXhaust.Lib.Sorted
import Mathlib.Logic.Function.Basic

/-!
# The storage in memory

`MemoryStorage` of `durable/src/storage/memory.ts`, the reference for every other storage, with
`scan.ts`. A `Map` is a function; the lists of ids under a key that is not there are empty, as every
reader takes them. A commit is checked as a whole (`prepareCommit`) before any of it is applied.

A scan reads a list of ids in order and stops one record behind its limit, so what it would throw
behind that record is not thrown (`Walk`). An id in an index always names a stored record; where the
source relies on that, a read here skips an id without one. Cloning and freezing, which keep callers and storage
apart, have no counterpart: a value here cannot be changed.
-/

namespace ThreeXhaust.Durable

open Sorted

/-! ## State -/

inductive TableName where
  | conversation
  | entry
  | task
  | submission
  | document
deriving DecidableEq

def TableName.name : TableName → String
  | .conversation => "conversation"
  | .entry => "entry"
  | .task => "task"
  | .submission => "submission"
  | .document => "document"

structure DocumentRevision extends DocumentContent where
  seq : Nat

structure StoredDocumentState where
  record : DocumentRecord
  revisions : List DocumentRevision

structure DocumentAddressIndex where
  ids : List Nat
  currentId : Option Nat

structure State where
  recordTypes : Nat → Option TableName
  conversations : Nat → Option ConversationRecord
  conversationIds : List Nat
  conversationIdsByOwnerConversation : Nat → List Nat
  conversationIdsByOwnerTask : Nat → List Nat
  entries : Nat → Option EntryRecord
  entryIds : Nat → List Nat
  headEntryIds : Nat → List Nat
  entryCommitSeqs : Nat → Option Nat
  tasks : Nat → Option TaskRecord
  taskIds : List Nat
  taskIdsByStatus : TaskStatus → List Nat
  submissions : Nat → Option SubmissionRecord
  submissionIds : List Nat
  submissionIdsByStatus : SubmissionStatus → List Nat
  submissionIdsByRequest : Nat → String → Option Nat
  documents : Nat → Option StoredDocumentState
  documentAddresses : String → Option DocumentAddressIndex
  documentIdsByScope : String → List Nat

/-- `MemoryStorage`, open. -/
structure Memory where
  state : State
  nextId : Nat
  nextSeq : Nat

def State.empty : State where
  recordTypes := fun _ => none
  conversations := fun _ => none
  conversationIds := []
  conversationIdsByOwnerConversation := fun _ => []
  conversationIdsByOwnerTask := fun _ => []
  entries := fun _ => none
  entryIds := fun _ => []
  headEntryIds := fun _ => []
  entryCommitSeqs := fun _ => none
  tasks := fun _ => none
  taskIds := []
  taskIdsByStatus := fun _ => []
  submissions := fun _ => none
  submissionIds := []
  submissionIdsByStatus := fun _ => []
  submissionIdsByRequest := fun _ _ => none
  documents := fun _ => none
  documentAddresses := fun _ => none
  documentIdsByScope := fun _ => []

def Memory.init : Memory := ⟨.empty, 2, 1⟩

/-! ## Addresses and points -/

def scopeText : Scope → String
  | .session => (Json.Value.arr [.str "session"]).stringify
  | .conversation id => (Json.Value.arr [.str "conversation", .nat id]).stringify
  | .task id => (Json.Value.arr [.str "task", .nat id]).stringify

def addressKey (address : DocumentAddress) : String :=
  (Json.Value.arr [.str address.kind, .str (scopeText address.scope),
    match address.key with
    | none => .arr [.str "singleton"]
    | some key => .arr [.str "family", .str key]]).stringify

def isAliveAt (record : DocumentRecord) : Point → Bool
  | .current => record.retiredAt.isNone
  | .seq seq => record.createdAt ≤ seq && record.retiredAt.all (seq < ·)

def isCurrentOnly (record : DocumentRecord) : Bool :=
  match record.scope with
  | .conversation _ => record.history = some .latest
  | _ => true

/-! ## Scans -/

def scanStart (requested : Option ScanOrder) (cursor : Option Cursor) (fallback : ScanOrder) :
    Except StorageError (ScanOrder × Option Int) :=
  match cursor with
  | none => .ok (requested.getD fallback, none)
  | some ⟨.valid _, .invalid⟩ => .error (.request "Invalid storage cursor")
  | some ⟨.valid after, stored⟩ =>
    let order := match stored with
      | .valid order => order
      | _ => fallback
    match requested with
    | none => .ok (order, some after)
    | some asked =>
      if asked ≠ order then
        .error (.request s!"The cursor continues a {order.name} scan; the query asks for {asked.name}")
      else .ok (order, some after)
  | some _ => .error (.request "Invalid storage cursor")

def cursorId : Option Cursor → Except StorageError (Option Int)
  | none => .ok none
  | some ⟨.absent, _⟩ => .ok none
  | some ⟨.valid after, _⟩ => .ok (some after)
  | some ⟨.invalid, _⟩ => .error (.request "Invalid storage cursor")

/-- The first `limit` of `values`, which go one further when there is more. -/
def page {α : Type} (id : α → Nat) (values : List α) (limit : Nat) (order : ScanOrder) :
    Except StorageError (Page α) :=
  let items := values.take limit
  if values.length ≤ limit then .ok ⟨items, none⟩
  else
    match items.getLast? with
    | none => .error .typeError
    | some last => .ok ⟨items, some ⟨.valid (id last), .valid order⟩⟩

def scanIds (ids : List Nat) : ScanOrder × Option Int → List Nat
  | (.ascending, none) => ids
  | (.ascending, some after) => ids.drop (upperBound ids after)
  | (.descending, none) => ids.reverse
  | (.descending, some after) => (ids.take (lowerBound ids after)).reverse

/-- A scan of records that `keep` filters. -/
def scanRecords {α : Type} (id : α → Nat) (get : Nat → Option α) (keep : α → Bool) (ids : List Nat)
    (start : ScanOrder × Option Int) (limit : Nat) : Except StorageError (Page α) :=
  page id (((scanIds ids start).filterMap get).filter keep |>.take (limit + 1)) limit start.1

namespace State

variable (s : State)

/-! ## The visible entries -/

/-- The conversations that entries are inherited from, nearest first, each with its upper bound, and
what is thrown behind the last of them. -/
structure Walk where
  segments : List (Nat × Option Int)
  ending : Option StorageError

/-- `Math.min` with a bound that may be infinite. -/
def bounded (upper : Option Int) (entryId : Nat) : Int :=
  match upper with
  | none => entryId
  | some upper => min upper entryId

/-- The loop over the chain of forks. A fork has a larger id than its parent, so there are at most as
many rounds as the id says. -/
@[grind =] def walk (minEntryId : Option Int) : Nat → Nat → Option Int → Walk
  | 0, _, _ => ⟨[], some .diverges⟩
  | rounds + 1, currentId, upper =>
    match s.conversations currentId with
    | none => ⟨[(currentId, upper)], some .typeError⟩
    | some conversation =>
      match conversation.parent with
      | none => ⟨[(currentId, upper)], none⟩
      | some parent =>
        if minEntryId.any (bounded upper parent.entryId < ·) then ⟨[(currentId, upper)], none⟩
        else
          let rest := walk minEntryId rounds parent.conversationId
            (some (bounded upper parent.entryId))
          ⟨(currentId, upper) :: rest.segments, rest.ending⟩

def upTo (ids : List Nat) : Option Int → List Nat
  | none => ids
  | some upper => ids.take (upperBound ids upper)

def segmentDown (minEntryId : Option Int) (segment : Nat × Option Int) : List EntryRecord :=
  ((upTo (s.entryIds segment.1) segment.2).reverse.takeWhile
    fun id : Nat => minEntryId.all (· ≤ (id : Int))).filterMap s.entries

def segmentUp (minEntryId : Option Int) (segment : Nat × Option Int) : List EntryRecord :=
  (((s.entryIds segment.1).drop
      (match minEntryId with
        | none => 0
        | some least => lowerBound (s.entryIds segment.1) least)).takeWhile
    fun id : Nat => segment.2.all ((id : Int) ≤ ·)).filterMap s.entries

def chain (conversationId : Nat) (minEntryId maxEntryId : Option Int) : Except StorageError Walk :=
  if (s.conversations conversationId).isNone then
    .error (.request s!"Unknown conversation: {conversationId}")
  else .ok (s.walk minEntryId (conversationId + 1) conversationId maxEntryId)

/-- The first `count` of the generated entries; a shorter walk ends with what it throws. -/
def Walk.pull (walk : Walk) (items : List EntryRecord) (count : Nat) :
    Except StorageError (List EntryRecord) :=
  match walk.ending with
  | some error => if items.length < count then .error error else .ok (items.take count)
  | none => .ok (items.take count)

def visibleEntries (conversationId : Nat) (minEntryId maxEntryId : Option Int) (count : Nat) :
    Except StorageError (List EntryRecord) := do
  let walk ← s.chain conversationId minEntryId maxEntryId
  walk.pull (walk.segments.flatMap (s.segmentDown minEntryId)) count

def visibleEntriesAscending (conversationId : Nat) (minEntryId maxEntryId : Option Int) (count : Nat) :
    Except StorageError (List EntryRecord) := do
  let walk ← s.chain conversationId minEntryId maxEntryId
  -- the chain is walked to its end before the first entry
  match walk.ending with
  | some error => .error error
  | none => .ok ((walk.segments.reverse.flatMap (s.segmentUp minEntryId)).take count)

/-! ## Reads -/

def withSeq (entry : EntryRecord) (id : Nat) : StoredEntry := ⟨entry, (s.entryCommitSeqs id).getD 0⟩

def entry (id : Nat) : Option StoredEntry := (s.entries id).map (s.withSeq · id)

def visibleEntry (conversationId id : Nat) : Except StorageError (Option StoredEntry) := do
  let entries ← s.visibleEntries conversationId (some id) (some id) 1
  .ok (entries.head?.map (s.withSeq · id))

def findLatestHeadMarker (conversationId : Nat) (atOrBefore : Option Int) :
    Except StorageError (Option EntryRecord) := do
  let walk ← s.chain conversationId none atOrBefore
  let newest := walk.segments.findSome? fun segment =>
    (upTo (s.headEntryIds segment.1) segment.2).getLast?
  match newest, walk.ending with
  | some id, _ => .ok (s.entries id)
  | none, some error => .error error
  | none, none => .ok none

def scanBounds (query : EntryQuery) : ScanOrder × Option Int → Option Int × Option Int
  | (.descending, some after) =>
    (query.minEntryId, some (min (query.maxEntryId.getD after) (after - 1)))
  | (.ascending, some after) =>
    (some (max (query.minEntryId.getD after) (after + 1)), query.maxEntryId)
  | (_, none) => (query.minEntryId, query.maxEntryId)

def scanEntries (query : EntryQuery) (limit : Nat) (cursor : Option Cursor) :
    Except StorageError (Page EntryRecord) := do
  let start ← scanStart query.order cursor .descending
  let (minEntryId, maxEntryId) := scanBounds query start
  let visible ← match start.1 with
    | .descending => s.visibleEntries query.conversationId minEntryId maxEntryId (limit + 1)
    | .ascending => s.visibleEntriesAscending query.conversationId minEntryId maxEntryId (limit + 1)
  page (·.id) visible limit start.1

def scanConversations (query : ConversationQuery) (limit : Nat) (cursor : Option Cursor) :
    Except StorageError (Page ConversationRecord) := do
  let ids := match query.ownerTaskId, query.ownerConversationId with
    | some taskId, _ => s.conversationIdsByOwnerTask taskId
    | none, some conversationId => s.conversationIdsByOwnerConversation conversationId
    | none, none => s.conversationIds
  let start ← scanStart query.order cursor .ascending
  scanRecords (·.id) s.conversations
    (fun value => query.ownerConversationId.all fun id =>
      value.owner.any fun owner => owner.conversationId = id) ids start limit

def scanTasks (query : TaskQuery) (limit : Nat) (cursor : Option Cursor) :
    Except StorageError (Page TaskRecord) := do
  let start ← scanStart query.order cursor .ascending
  let ids := match query.status with
    | none => s.taskIds
    | some status => s.taskIdsByStatus status
  scanRecords (·.id) s.tasks
    (fun value => query.conversationId.all (value.conversationId = ·)
      && query.kind.all (value.kind = ·)
      && query.abortRequested.all (value.abortRequested = ·)
      && query.background.all (value.background = ·)) ids start limit

def scanSubmissions (query : SubmissionQuery) (limit : Nat) (cursor : Option Cursor) :
    Except StorageError (Page SubmissionRecord) := do
  let start ← scanStart query.order cursor .ascending
  let ids := match query.status with
    | none => s.submissionIds
    | some status => s.submissionIdsByStatus status
  scanRecords (·.id) s.submissions (fun value => query.conversationId.all (value.conversationId = ·))
    ids start limit

def submissionByRequest (conversationId : Nat) (requestId : String) : Option SubmissionRecord :=
  (s.submissionIdsByRequest conversationId requestId).bind s.submissions

def documentRecord (id : Nat) : Option DocumentRecord := (s.documents id).map (·.record)

def findDocument (address : DocumentAddress) (point : Point) : Option DocumentRecord :=
  match s.documentAddresses (addressKey address) with
  | none => none
  | some index =>
    match point with
    | .current => index.currentId.bind s.documentRecord
    | .seq _ => (index.ids.filterMap s.documentRecord).find? (isAliveAt · point)

/-- `documentDeltaBatches`: the batches in front of the first revision that crosses a version or is a
base, and whether there is one. -/
@[grind =] def deltaBatches (version : Nat) : List DocumentRevision → List (List DocumentOp) × Bool
  | [] => ([], false)
  | revision :: rest =>
    match revision.body with
    | .delta ops =>
      if revision.version = version then
        let (batches, crosses) := deltaBatches version rest
        (ops :: batches, crosses)
      else ([], true)
    | .base _ => ([], true)

@[grind =] def newestBase : List DocumentRevision → Option (Nat × DocumentValue × List DocumentRevision)
  | [] => none
  | revision :: rest =>
    match newestBase rest, revision.body with
    | some found, _ => some found
    | none, .base value => some (revision.version, value, rest)
    | none, .delta _ => none

def materializeDocument (id : Nat) (point : Point) : Except StorageError (Option StoredDocument) :=
  match s.documents id with
  | none => .ok none
  | some stored =>
    if point ≠ .current ∧ isCurrentOnly stored.record then
      .error (.request s!"Document {id} does not retain historical content")
    else if ¬ isAliveAt stored.record point then .ok none
    else
      let revisions := match point with
        | .current => stored.revisions
        | .seq seq => stored.revisions.filter fun revision => revision.seq ≤ seq
      match newestBase revisions with
      | none => .error (.error s!"Document {id} is missing a required base")
      | some (version, base, deltas) =>
        let (batches, crosses) := deltaBatches version deltas
        match Delta.applyImmutableBatches base batches with
        | .error e => .error (.error e.message)
        | .ok value =>
          if crosses then
            .error (.error s!"Document {id} crosses a stored version boundary without a base")
          else .ok (some ⟨stored.record, version, value, deltas.length⟩)

def scanDocuments (query : DocumentQuery) (limit : Nat) (cursor : Option Cursor) :
    Except StorageError (Page DocumentRecord) := do
  let ids := s.documentIdsByScope (scopeText query.scope)
  let after ← cursorId cursor
  scanRecords (·.id) s.documentRecord
    (fun record => query.kind.all (record.kind = ·) && isAliveAt record query.point)
    ids (.ascending, after) limit

def read : (r : Read) → Except StorageError r.Result
  | .conversation id => .ok (s.conversations id)
  | .scanConversations query limit cursor => s.scanConversations query limit cursor
  | .entry id => .ok (s.entry id)
  | .visibleEntry conversationId id => s.visibleEntry conversationId id
  | .findLatestHeadMarker conversationId atOrBefore => s.findLatestHeadMarker conversationId atOrBefore
  | .scanEntries query limit cursor => s.scanEntries query limit cursor
  | .task id => .ok (s.tasks id)
  | .scanTasks query limit cursor => s.scanTasks query limit cursor
  | .submission id => .ok (s.submissions id)
  | .scanSubmissions query limit cursor => s.scanSubmissions query limit cursor
  | .submissionByRequest conversationId requestId =>
    .ok (s.submissionByRequest conversationId requestId)
  | .findDocument address point => .ok (s.findDocument address point)
  | .document id point => s.materializeDocument id point
  | .scanDocuments query limit cursor => s.scanDocuments query limit cursor

end State

/-! ## Checking a commit -/

/-- `Document copy … was rejected`; its cause is left out. -/
def copyRejected (record : DocumentCreate) : StorageError :=
  .error s!"Document copy {record.id} was rejected"

def changedDocumentIds (writes : List StorageWrite) : List Nat :=
  writes.filterMap fun write => match write with
    | .create record _ _ => some record.id
    | .copy record _ => some record.id
    | .change id _ => some id
    | .retire id => some id
    | _ => none

/-- Whether a copy is a copy of the record it names as its source. -/
def copyMatches (stored : DocumentRecord) (record : DocumentCreate) : Bool :=
  match stored.scope, record.scope with
  | .conversation _, .conversation _ =>
    stored.kind = record.kind && stored.key = record.key && stored.history = record.history
      && stored.fork = record.fork
  | _, _ => false

def resolveCopy (s : State) (changed : List Nat) : StorageWrite → Except StorageError StorageWrite
  | .copy record source =>
    if source.id ∈ changed then .error (copyRejected record)
    else
      match s.materializeDocument source.id source.point with
      | .ok (some stored) =>
        if copyMatches stored.record record then .ok (.create record stored.version stored.value)
        else .error (copyRejected record)
      | _ => .error (copyRejected record)
  | write => .ok write

def resolveDocumentCopies (s : State) (writes : List StorageWrite) :
    Except StorageError (List StorageWrite) :=
  writes.mapM (resolveCopy s (changedDocumentIds writes))

def StorageWrite.claims : StorageWrite → Option (TableName × Nat)
  | .conversation value => some (.conversation, value.id)
  | .entry value => some (.entry, value.id)
  | .task value => some (.task, value.id)
  | .submission value => some (.submission, value.id)
  | .create record _ _ => some (.document, record.id)
  | .copy record _ => some (.document, record.id)
  | .change _ _ => none
  | .retire _ => none

def TableName.writtenOnce : TableName → Bool
  | .conversation | .entry | .document => true
  | .task | .submission => false

/-- A record of `table` may be stored under `id`; `earlier` is the table that the batch stored one
in before. -/
def checkId (table : TableName) (id : Nat) (existing earlier : Option TableName) :
    Except StorageError Unit :=
  match existing, earlier with
  | some other, _ =>
    if table.writtenOnce ∨ other ≠ table then
      .error (.error s!"ID {id} already belongs to {other.name}")
    else
      match earlier with
      | some claimed =>
        if claimed ≠ table then .error (.error s!"ID {id} is written as two record types") else .ok ()
      | none => .ok ()
  | none, some claimed =>
    if table.writtenOnce then .error (.error s!"ID {id} is written more than once")
    else if claimed ≠ table then .error (.error s!"ID {id} is written as two record types")
    else .ok ()
  | none, none => .ok ()

@[grind =] def checkGlobalIds (s : State) :
    (Nat → Option TableName) → List StorageWrite → Except StorageError Unit
  | _, [] => .ok ()
  | claimed, write :: writes =>
    match write.claims with
    | none => checkGlobalIds s claimed writes
    | some (table, id) => do
      checkId table id (s.recordTypes id) (claimed id)
      checkGlobalIds s (Function.update claimed id (some table)) writes

/-! ## Document actions -/

structure DocumentAction where
  create : Option DocumentCreate
  content : Option DocumentContent
  retire : Bool

/-- `Map.set` in insertion order. -/
def setAction (actions : List (Nat × DocumentAction)) (id : Nat) (action : DocumentAction) :
    List (Nat × DocumentAction) :=
  if actions.any (·.1 = id) then actions.map fun entry => if entry.1 = id then (id, action) else entry
  else actions ++ [(id, action)]

def actionOf (actions : List (Nat × DocumentAction)) (id : Nat) : DocumentAction :=
  (actions.lookup id).getD ⟨none, none, false⟩

def manyContents (id : Nat) : StorageError :=
  .error s!"Document {id} has more than one content command"

def addAction (actions : List (Nat × DocumentAction)) :
    StorageWrite → Except StorageError (List (Nat × DocumentAction))
  | .create record version value =>
    let action := actionOf actions record.id
    if action.create.isSome ∨ action.content.isSome then .error (manyContents record.id)
    else .ok (setAction actions record.id
      { action with create := some record, content := some ⟨version, .base value⟩ })
  | .change id content =>
    let action := actionOf actions id
    if action.content.isSome then .error (manyContents id)
    else .ok (setAction actions id { action with content := some content })
  | .retire id =>
    let action := actionOf actions id
    if action.retire then .error (.error s!"Document {id} is retired more than once")
    else .ok (setAction actions id { action with retire := true })
  | _ => .ok actions

def prepareDocumentActions (writes : List StorageWrite) :
    Except StorageError (List (Nat × DocumentAction)) :=
  writes.foldlM addAction []

def checkContent (id : Nat) (previous : Option DocumentRevision) :
    Option DocumentContent → Except StorageError Unit
  | some ⟨version, .delta _⟩ =>
    match previous with
    | none => .error (.error s!"Document {id} delta has no base")
    | some revision =>
      if revision.version ≠ version then
        .error (.error s!"Document {id} version transition requires a base")
      else .ok ()
  | _ => .ok ()

/-- The address that an action is about, with the checks on its incarnation. -/
def checkAction (s : State) (id : Nat) (action : DocumentAction) : Except StorageError String :=
  match action.create, s.documents id with
  | none, none => .error (.error s!"Unknown document: {id}")
  | some _, some _ => .error (.error s!"Document {id} already exists")
  | some create, none => do
    checkContent id none action.content
    .ok (addressKey create.toDocumentAddress)
  | none, some existing =>
    if existing.record.retiredAt.isSome then .error (.error s!"Document {id} is retired")
    else do
      checkContent id existing.revisions.getLast? action.content
      .ok (addressKey existing.record.toDocumentAddress)

/-- The number of current incarnations at an address after an action. -/
def liveAfter (s : State) (key : String) (id : Nat) (action : DocumentAction) (live : Option Int) :
    Int :=
  let currentId := (s.documentAddresses key).bind (·.currentId)
  let live := live.getD (if currentId.isNone then 0 else 1)
  let live := if action.retire ∧ currentId = some id then live - 1 else live
  if action.create.isSome ∧ ¬ action.retire then live + 1 else live

@[grind =] def countLive (s : State) : (String → Option Int) → List (Nat × DocumentAction) →
    Except StorageError (String → Option Int)
  | counts, [] => .ok counts
  | counts, (id, action) :: actions => do
    let key ← checkAction s id action
    countLive s (Function.update counts key (some (liveAfter s key id action (counts key)))) actions

def actionKeys (s : State) (actions : List (Nat × DocumentAction)) : List String :=
  actions.filterMap fun entry => (checkAction s entry.1 entry.2).toOption

def checkDocumentActions (s : State) (actions : List (Nat × DocumentAction)) :
    Except StorageError Unit := do
  let counts ← countLive s (fun _ => none) actions
  if (actionKeys s actions).any fun key => (counts key).any (1 < ·) then
    .error (.error "Document address already has a current incarnation")
  else .ok ()

/-! ## Applying a commit -/

namespace Memory

def claim (m : Memory) (table : TableName) (id : Nat) : Memory :=
  { m with
    state := { m.state with recordTypes := Function.update m.state.recordTypes id (some table) }
    nextId := max m.nextId (id + 1) }

def insertMapId {κ : Type} [DecidableEq κ] (index : κ → List Nat) (key : κ) (id : Nat) :
    κ → List Nat :=
  Function.update index key (insertSorted (index key) id)

def putConversation (s : State) (value : ConversationRecord) : State :=
  { s with
    conversations := Function.update s.conversations value.id (some value)
    conversationIds := insertSorted s.conversationIds value.id
    conversationIdsByOwnerConversation := match value.owner with
      | some owner => insertMapId s.conversationIdsByOwnerConversation owner.conversationId value.id
      | none => s.conversationIdsByOwnerConversation
    conversationIdsByOwnerTask := match value.owner with
      | some owner => insertMapId s.conversationIdsByOwnerTask owner.taskId value.id
      | none => s.conversationIdsByOwnerTask }

def putEntry (seq : Nat) (s : State) (value : EntryRecord) : State :=
  { s with
    entries := Function.update s.entries value.id (some value)
    entryCommitSeqs := Function.update s.entryCommitSeqs value.id (some seq)
    entryIds := insertMapId s.entryIds value.conversationId value.id
    headEntryIds :=
      if value.head.isSome then insertMapId s.headEntryIds value.conversationId value.id
      else s.headEntryIds }

/-- The list of ids by status when a record goes from one status, if it was there, to another. -/
def moveStatus {κ : Type} [DecidableEq κ] (index : κ → List Nat) (previous : Option κ) (next : κ)
    (id : Nat) : κ → List Nat :=
  match previous with
  | none => insertMapId index next id
  | some previous =>
    if previous = next then index
    else insertMapId (Function.update index previous (removeSorted (index previous) id)) next id

def putTask (s : State) (value : TaskRecord) : State :=
  let previous := s.tasks value.id
  { s with
    tasks := Function.update s.tasks value.id (some value)
    taskIds := if previous.isNone then insertSorted s.taskIds value.id else s.taskIds
    taskIdsByStatus :=
      moveStatus s.taskIdsByStatus (previous.map (·.state.status)) value.state.status value.id }

def dropRequest (index : Nat → String → Option Nat) (id : Nat) :
    Option SubmissionRecord → Nat → String → Option Nat
  | some ⟨_, conversationId, some requestId, _, _, _, _, _, _⟩ =>
    if index conversationId requestId = some id then
      Function.update index conversationId (Function.update (index conversationId) requestId none)
    else index
  | _ => index

def addRequest (index : Nat → String → Option Nat) (value : SubmissionRecord) :
    Nat → String → Option Nat :=
  match value.requestId with
  | none => index
  | some requestId =>
    Function.update index value.conversationId
      (Function.update (index value.conversationId) requestId (some value.id))

def putSubmission (s : State) (value : SubmissionRecord) : State :=
  let previous := s.submissions value.id
  { s with
    submissions := Function.update s.submissions value.id (some value)
    submissionIds :=
      if previous.isNone then insertSorted s.submissionIds value.id else s.submissionIds
    submissionIdsByStatus :=
      moveStatus s.submissionIdsByStatus (previous.map (·.status)) value.status value.id
    submissionIdsByRequest :=
      addRequest (dropRequest s.submissionIdsByRequest value.id previous) value }

def applyWrite (seq : Nat) (m : Memory) : StorageWrite → Memory
  | .conversation value =>
    { m with state := putConversation m.state value }.claim .conversation value.id
  | .entry value => { m with state := putEntry seq m.state value }.claim .entry value.id
  | .task value => { m with state := putTask m.state value }.claim .task value.id
  | .submission value =>
    { m with state := putSubmission m.state value }.claim .submission value.id
  | _ => m

/-- The incarnation that a commit creates; one that it also retires keeps its content only when its
history stays. -/
def createdDocument (seq : Nat) (create : DocumentCreate) (action : DocumentAction) :
    StoredDocumentState :=
  let record : DocumentRecord := ⟨create, seq, if action.retire then some seq else none⟩
  ⟨record,
    if action.retire ∧ isCurrentOnly record then []
    else (action.content.map fun content => ⟨content, seq⟩).toList⟩

def createDocument (seq : Nat) (s : State) (create : DocumentCreate) (action : DocumentAction) :
    State :=
  let key := addressKey create.toDocumentAddress
  let index := (s.documentAddresses key).getD ⟨[], none⟩
  { s with
    documents := Function.update s.documents create.id (some (createdDocument seq create action))
    documentAddresses := Function.update s.documentAddresses key (some
      ⟨insertSorted index.ids create.id,
        if action.retire then (if index.currentId = some create.id then none else index.currentId)
        else some create.id⟩)
    documentIdsByScope := insertMapId s.documentIdsByScope (scopeText create.scope) create.id }

/-- An incarnation with new content; a base of one that keeps no history replaces what is there. -/
def reviseDocument (seq : Nat) (stored : StoredDocumentState) :
    Option DocumentContent → StoredDocumentState
  | none => stored
  | some content =>
    match content.body with
    | .base _ =>
      if isCurrentOnly stored.record then ⟨stored.record, [⟨content, seq⟩]⟩
      else ⟨stored.record, stored.revisions ++ [⟨content, seq⟩]⟩
    | .delta _ => ⟨stored.record, stored.revisions ++ [⟨content, seq⟩]⟩

def retireDocument (seq : Nat) (stored : StoredDocumentState) : StoredDocumentState :=
  ⟨{ stored.record with retiredAt := some seq },
    if isCurrentOnly stored.record then [] else stored.revisions⟩

def changeDocument (seq : Nat) (s : State) (id : Nat) (stored : StoredDocumentState)
    (action : DocumentAction) : State :=
  let revised := reviseDocument seq stored action.content
  if action.retire then
    let key := addressKey stored.record.toDocumentAddress
    { s with
      documents := Function.update s.documents id (some (retireDocument seq revised))
      documentAddresses := Function.update s.documentAddresses key
        ((s.documentAddresses key).map fun index =>
          if index.currentId = some id then { index with currentId := none } else index) }
  else { s with documents := Function.update s.documents id (some revised) }

def applyDocumentAction (seq : Nat) (m : Memory) (entry : Nat × DocumentAction) : Memory :=
  match entry.2.create, m.state.documents entry.1 with
  | some create, _ =>
    { m with state := createDocument seq m.state create entry.2 }.claim .document create.id
  | none, some stored => { m with state := changeDocument seq m.state entry.1 stored entry.2 }
  | none, none => m

def applyPreparedCommit (m : Memory) (writes : List StorageWrite)
    (actions : List (Nat × DocumentAction)) (seq : Nat) : Memory :=
  { actions.foldl (applyDocumentAction seq) (writes.foldl (applyWrite seq) m) with
    nextSeq := seq + 1 }

/-- `prepareCommit` and its `apply`. -/
def commitAt (m : Memory) (writes : List StorageWrite) (seq : Nat) : Except StorageError Memory := do
  if ¬ Json.isSafeInteger seq ∨ seq < m.nextSeq then
    .error (.error s!"Commit sequence {seq} does not strictly increase")
  else
    let resolved ← resolveDocumentCopies m.state writes
    checkGlobalIds m.state (fun _ => none) resolved
    let actions ← prepareDocumentActions resolved
    checkDocumentActions m.state actions
    .ok (m.applyPreparedCommit resolved actions seq)

def commitBatch (m : Memory) (writes : List StorageWrite) : Except StorageError Memory :=
  m.commitAt writes m.nextSeq

def store (m : Memory) (writes : List StorageWrite) : Memory :=
  match m.commitBatch writes with
  | .ok stored => stored
  | .error _ => m

end Memory

end ThreeXhaust.Durable
