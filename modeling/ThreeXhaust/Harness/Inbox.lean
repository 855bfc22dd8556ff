import ThreeXhaust.Durable.Transaction
import ThreeXhaust.Lib.Assoc
import ThreeXhaust.Lib.Splice

/-!
# The inbox of a conversation

`durable/src/harness/inbox.ts` and the admission, withdrawal and settlement of submissions in
`submissions.ts`, with the parts of `live.ts` and `generation.ts` that start and end a run. Each runs
in a commit of its own (`World.commit`): a callback over the drafts of the documents and the staged
table writes, whose submission changes are resolved when it has returned. A callback that throws, or a
batch that storage refuses, changes nothing but the counter of ids.

The awaits of one callback come one after the other, so it is a program with a state here (`TxM`).
Traces and the presentation in `pi.live` are left out.
-/

namespace ThreeXhaust.Harness

open Durable
open Splice (positions)
open Durable.Transaction (EntryDraft DraftHead noteWrite setTaskWrite applySubmissionChange)

/-! ## Data -/

inductive QueueMode where
  | all
  | oneAtATime
deriving DecidableEq

structure QueueModes where
  steeringMode : QueueMode
  followUpMode : QueueMode

inductive InputMode where
  | steer
  | followUp
deriving DecidableEq

structure InputEntry where
  kind : String
  data : Option Json.Value

inductive InboxItem where
  | user (id : Nat) (mode : InputMode) (content : Json.Value) (entry : Option InputEntry)
  | write (id : Nat) (entry : EntryDraft)

def InboxItem.id : InboxItem → Nat
  | .user id _ _ _ => id
  | .write id _ => id

def InboxItem.isWrite : InboxItem → Bool
  | .user _ _ _ _ => false
  | .write _ _ => true

def InboxItem.hasMode (mode : InputMode) : InboxItem → Bool
  | .user _ other _ _ => other = mode
  | .write _ _ => false

/-- `LiveRun`; `afterRun` is whether the run has answered and waits for its after-run tasks. -/
structure LiveRun where
  taskId : Nat
  inputs : List Nat
  first : Option Nat
  afterRun : Bool

/-- `runFailure` is the `first` of the failed run. -/
structure LiveState where
  run : Option LiveRun
  runFailure : Option (Option Nat)

inductive WhenBusy where
  | steer
  | followUp
  | reject
deriving DecidableEq

inductive SubmissionBody where
  | input (content : Json.Value) (whenBusy : Option WhenBusy) (rejectIdle : Bool)
      (entry : Option InputEntry)
  | write (entry : EntryDraft)
  | continue

structure SubmissionDraft where
  requestId : Option String
  body : SubmissionBody

def SubmissionBody.type : SubmissionBody → SubmissionType
  | .input _ _ _ _ => .input
  | .write _ => .write
  | .continue => .continue

inductive CommitError where
  | error (message : String)
  | typeError (message : String)
  | busy (conversationId : Nat)
  | idle (conversationId : Nat)
  | readAfterWrite
  | storage (error : StorageError)

/-- The open commit: what is staged for the tables, what is stored, and the documents as the callback
has left them so far. -/
structure Tx where
  table : Transaction
  storage : Memory
  inbox : Nat → List InboxItem
  live : Nat → LiveState

abbrev TxM := EStateM CommitError Tx

namespace Tx

/-! ## Operations of a transaction -/

def mintId : TxM Nat := fun tx =>
  .ok tx.storage.nextId
    { tx with storage := { tx.storage with nextId := tx.storage.nextId + 1 } }

/-- A read of a table, which must come before the first write of one. -/
def tableRead (r : Read) : TxM r.Result := fun tx =>
  if tx.table.hasTableWrite then .error .readAfterWrite tx
  else
    match tx.storage.state.read r with
    | .ok value => .ok value tx
    | .error error => .error (.storage error) tx

def requireConversation (id : Nat) : TxM Unit := fun tx =>
  if (tx.storage.state.conversations id).isSome then .ok () tx
  else .error (.error s!"Conversation {id} does not exist") tx

def modifyTable (f : Transaction → Transaction) : TxM Unit := fun tx =>
  .ok () { tx with table := f tx.table }

def appendEntry (conversationId : Nat) (draft : EntryDraft) : TxM Nat := do
  modifyTable noteWrite
  requireConversation conversationId
  let id ← mintId
  modifyTable fun table =>
    { table with writes := table.writes ++ [.entry (draft.record id conversationId table.taskId)] }
  pure id

def createSubmission (create : SubmissionRecord) : TxM Nat := do
  modifyTable noteWrite
  requireConversation create.conversationId
  let id ← mintId
  modifyTable fun table =>
    { table with submissions := Assoc.set table.submissions id { create with id := id } }
  pure id

/-- `settleSubmission` and `placeSubmission`. -/
def changeSubmission (id : Nat) (change : SubmissionChange) : TxM Unit :=
  modifyTable fun table =>
    { table with
      hasTableWrite := true
      submissionChanges := table.submissionChanges ++ [(id, change)] }

/-- The items of `tx.doc(InboxDoc, conversationId)`. -/
def items (conversationId : Nat) : TxM (List InboxItem) := fun tx => .ok (tx.inbox conversationId) tx

def setItems (conversationId : Nat) (items : List InboxItem) : TxM Unit := fun tx =>
  .ok () { tx with inbox := Function.update tx.inbox conversationId items }

def liveDoc (conversationId : Nat) : TxM LiveState := fun tx => .ok (tx.live conversationId) tx

def setLive (conversationId : Nat) (live : LiveState) : TxM Unit := fun tx =>
  .ok () { tx with live := Function.update tx.live conversationId live }

end Tx

open Tx

/-! ## Runs -/

def createGeneration (conversationId : Nat) : TxM Nat := do
  modifyTable noteWrite
  requireConversation conversationId
  let id ← mintId
  modifyTable (setTaskWrite id ⟨.create,
    { id := id
      conversationId := conversationId
      kind := "pi.generation"
      version := 2
      input := .obj []
      owner := none
      background := false
      abortRequested := false
      abandonOnRestart := false
      startedAt := none
      endedAt := none
      state := ⟨.pending, .obj [("phase", .str "prepare"), ("attempt", .nat 1)]⟩ }⟩)
  pure id

def startRun (conversationId : Nat) (inputs : List Nat) (first : Option Nat) (keepFailure : Bool) :
    TxM Unit := do
  let taskId ← createGeneration conversationId
  let live ← liveDoc conversationId
  setLive conversationId
    ⟨some ⟨taskId, inputs, first, false⟩, if keepFailure then live.runFailure else none⟩

inductive RunEnd where
  | done (answer : Nat)
  | unanswered (reason : String) (detail : Option Json.Value)

def RunEnd.settlement : RunEnd → SubmissionChange
  | .done answer => .done answer
  | .unanswered reason detail => .unanswered reason detail

def settleAll (ids : List Nat) (settlement : SubmissionChange) : TxM Unit :=
  ids.forM fun id => changeSubmission id settlement

/-- `endRun` of the task that owns the run. A run that has answered settles nothing more when it ends
without an answer. -/
def endRun (conversationId : Nat) (ending : RunEnd) : TxM Unit := do
  let live ← liveDoc conversationId
  match live.run with
  | none => pure ()
  | some run =>
    match ending with
    | .done _ => do
      settleAll run.inputs ending.settlement
      setLive conversationId ⟨none, live.runFailure⟩
    | .unanswered _ _ =>
      if run.afterRun then setLive conversationId ⟨none, live.runFailure⟩
      else do
        settleAll run.inputs ending.settlement
        setLive conversationId ⟨none, some run.first⟩

/-- `holdRun`: the inputs of a run that answered are done, and the run goes on without them. -/
def holdRun (conversationId answer : Nat) : TxM Unit := do
  let live ← liveDoc conversationId
  match live.run with
  | none => pure ()
  | some run => do
    settleAll run.inputs (.done answer)
    setLive conversationId ⟨some { run with inputs := [], afterRun := true }, live.runFailure⟩

/-! ## Boundaries -/

/-- `Boundary`, without the conversation and the draft of its inbox. -/
structure Boundary where
  modes : QueueModes
  head : Option Nat

inductive BoundaryKind where
  | postTools
  | final
deriving DecidableEq

structure BoundaryResult where
  users : List Nat
  first : Option Nat
  reset : Bool

def prepareBoundary (conversationId : Nat) (modes : QueueModes) : TxM Boundary := do
  let marker : Option EntryRecord ← tableRead (.findLatestHeadMarker conversationId none)
  pure ⟨modes, marker.bind (·.head)⟩

def InboxItem.isReset : InboxItem → Bool
  | .write _ ⟨_, _, _, some .self, _⟩ => true
  | _ => false

def hasQueuedReset (items : List InboxItem) : Bool := items.any (·.isReset)

def isStale (head : Option Nat) (entry : EntryDraft) : Bool :=
  match entry.head, head with
  | some (.entry target), some head => target < head
  | _, _ => false

def isDisplayOnly (entry : EntryDraft) : Bool :=
  entry.model.isNone && entry.head.isNone && entry.edits.isNone

def pick (items : List InboxItem) (mode : InputMode) : QueueMode → List Nat
  | .all => positions (·.hasMode mode) items
  | .oneAtATime => (positions (·.hasMode mode) items).take 1

/-- The indexes of the user items that a boundary selects, in order. -/
def selectUsers (items : List InboxItem) (modes : QueueModes) (final : Bool) : List Nat :=
  (pick items .steer modes.steeringMode
    ++ if final then pick items .followUp modes.followUpMode else []).mergeSort (· ≤ ·)

/-- The head of the boundary and the first entry that it placed. -/
structure Placing where
  head : Option Nat
  first : Option Nat

/-- `draft.head === "self" ? entry.id : draft.head`. -/
def headAfter (head : Option Nat) (draft : EntryDraft) (entry : Nat) : Option Nat :=
  match draft.head with
  | none => head
  | some .self => some entry
  | some (.entry target) => some target

def placeWrite (conversationId : Nat) (items : List InboxItem) (placing : Placing) (index : Nat) :
    TxM Placing :=
  match items[index]? with
  | some (.write id draft) =>
    if isStale placing.head draft then do
      changeSubmission id (.unanswered "stale" none)
      pure placing
    else do
      let entry ← appendEntry conversationId draft
      changeSubmission id (.placed entry)
      pure ⟨headAfter placing.head draft entry, placing.first.or (some entry)⟩
  | _ => throw (.typeError "not a write")

def userMessage (content : Json.Value) (now : Nat) : Json.Value :=
  .arr [.obj [("role", .str "user"), ("content", content), ("timestamp", .nat now)]]

def inputDraft (content : Json.Value) (entry : Option InputEntry) (now : Nat) : EntryDraft :=
  match entry with
  | none => ⟨"pi.user", some (userMessage content now), none, none, none⟩
  | some entry => ⟨entry.kind, some (userMessage content now), entry.data, none, none⟩

def appendInput (conversationId : Nat) (content : Json.Value) (entry : Option InputEntry)
    (now : Nat) : TxM Nat :=
  appendEntry conversationId (inputDraft content entry now)

structure PlacedUsers where
  users : List Nat
  first : Option Nat

def placeUser (conversationId : Nat) (items : List InboxItem) (now : Nat) (placed : PlacedUsers)
    (index : Nat) : TxM PlacedUsers :=
  match items[index]? with
  | some (.user id _ content input) => do
    let entry ← appendInput conversationId content input now
    changeSubmission id (.placed entry)
    pure ⟨placed.users ++ [id], placed.first.or (some entry)⟩
  | _ => throw (.typeError "not an input")

def applyBoundary (conversationId : Nat) (boundary : Boundary) (kind : BoundaryKind) (now : Nat) :
    TxM BoundaryResult := do
  let items ← items conversationId
  let reset := hasQueuedReset items
  let writes := positions (·.isWrite) items
  let users := selectUsers items boundary.modes (kind = .final || reset)
  let placing ← writes.foldlM (placeWrite conversationId items) ⟨boundary.head, none⟩
  let placed ← users.foldlM (placeUser conversationId items now) ⟨[], placing.first⟩
  setItems conversationId (Splice.removeAll items (writes ++ users))
  pure ⟨placed.users, placed.first, reset⟩

/-! ## Admission -/

def checkInputEntry (entry : InputEntry) : TxM Unit :=
  if entry.kind.isEmpty || entry.kind.startsWith "pi." then
    throw (.typeError ("An input entry's kind must be a non-empty string not starting with \"pi.\", got "
      ++ entry.kind))
  else pure ()

def SubmissionBody.check : SubmissionBody → TxM Unit
  | .input _ _ _ (some entry) => checkInputEntry entry
  | _ => pure ()

structure Admission where
  id : Nat
  status : SubmissionStatus

def newSubmission (conversationId : Nat) (requestId : Option String) (type : SubmissionType)
    (status : SubmissionStatus) (entry : Option Nat) (reason : Option String) : SubmissionRecord where
  id := 0
  conversationId := conversationId
  requestId := requestId
  type := type
  status := status
  entry := entry
  answer := none
  reason := reason
  detail := none

def typeName : SubmissionType → String
  | .input => "input"
  | .write => "write"
  | .continue => "continue"

def findRequest (conversationId : Nat) (draft : SubmissionDraft) : TxM (Option Admission) :=
  match draft.requestId with
  | none => pure none
  | some requestId => do
    let existing : Option SubmissionRecord ← tableRead (.submissionByRequest conversationId requestId)
    match existing with
    | none => pure none
    | some existing =>
      if existing.type ≠ draft.body.type then
        throw (.error (s!"Request {requestId} already identifies a submission of type "
          ++ typeName existing.type))
      else
        pure (some ⟨existing.id,
          if existing.status = .unanswered then .done else existing.status⟩)

def writeNow (conversationId : Nat) (requestId : Option String) (entry : EntryDraft) :
    TxM Admission := do
  let id ← appendEntry conversationId entry
  let submission ← createSubmission (newSubmission conversationId requestId .write .done (some id) none)
  pure ⟨submission, .done⟩

def SubmissionBody.item (id : Nat) : SubmissionBody → Option InboxItem
  | .input content whenBusy _ entry =>
    some (.user id (if whenBusy = some .steer then .steer else .followUp) content entry)
  | .write entry => some (.write id entry)
  | .continue => none

def queueSubmission (conversationId : Nat) (draft : SubmissionDraft) : TxM Nat := do
  let id ← createSubmission
    (newSubmission conversationId draft.requestId draft.body.type .queued none none)
  let items ← items conversationId
  setItems conversationId (items ++ (draft.body.item id).toList)
  pure id

def admitContinue (conversationId : Nat) (requestId : Option String) (live : LiveState) (now : Nat)
    (modes : QueueModes) : TxM Admission := do
  if live.run.isSome then throw (.busy conversationId)
  let boundary ← prepareBoundary conversationId modes
  let id ← createSubmission (newSubmission conversationId requestId .continue .placed none none)
  let result ← applyBoundary conversationId boundary .final now
  startRun conversationId (result.users ++ [id]) (live.runFailure.join.or result.first) false
  pure ⟨id, .placed⟩

/-- Behind items that are already queued, an idle conversation runs a boundary. -/
def admitBehind (conversationId : Nat) (draft : SubmissionDraft) (boundary : Boundary) (now : Nat) :
    TxM Admission := do
  let id ← queueSubmission conversationId draft
  let result ← applyBoundary conversationId boundary .final now
  if ¬ result.users.isEmpty then startRun conversationId result.users result.first false
  pure ⟨id,
    match draft.body with
    | .write _ => .done
    | _ => if result.users.getLast? = some id then .placed else .queued⟩

def admitIdle (conversationId : Nat) (requestId : Option String) (boundary : Boundary) (now : Nat) :
    SubmissionBody → TxM Admission
  | .write entry =>
    if isStale boundary.head entry then do
      let id ← createSubmission
        (newSubmission conversationId requestId .write .unanswered none (some "stale"))
      pure ⟨id, .done⟩
    else writeNow conversationId requestId entry
  | .input content _ _ input => do
    let entry ← appendInput conversationId content input now
    let id ← createSubmission (newSubmission conversationId requestId .input .placed (some entry) none)
    startRun conversationId [id] (some entry) false
    pure ⟨id, .placed⟩
  | .continue => throw (.busy conversationId)

def SubmissionBody.refuse (conversationId : Nat) (busy : Bool) : SubmissionBody → TxM Unit
  | .input _ whenBusy rejectIdle _ =>
    if busy && whenBusy = some .reject then throw (.busy conversationId)
    else if !busy && rejectIdle then throw (.idle conversationId)
    else pure ()
  | _ => pure ()

/-- `admitSubmission` behind the lookup of its request and the display-only writes. -/
def admitOther (conversationId : Nat) (draft : SubmissionDraft) (now : Nat) (modes : QueueModes) :
    TxM Admission := do
  let live ← liveDoc conversationId
  let busy := live.run.isSome
  draft.body.refuse conversationId busy
  match draft.body with
  | .continue => admitContinue conversationId draft.requestId live now modes
  | _ =>
    if busy then do
      let id ← queueSubmission conversationId draft
      pure ⟨id, .queued⟩
    else do
      let boundary ← prepareBoundary conversationId modes
      let items ← items conversationId
      if items.isEmpty then admitIdle conversationId draft.requestId boundary now draft.body
      else admitBehind conversationId draft boundary now

def admitSubmission (conversationId : Nat) (draft : SubmissionDraft) (now : Nat)
    (modes : QueueModes) : TxM Admission := do
  draft.body.check
  match ← findRequest conversationId draft with
  | some existing => pure existing
  | none =>
    let items ← items conversationId
    match draft.body with
    | .write entry =>
      if isDisplayOnly entry && !hasQueuedReset items then
        writeNow conversationId draft.requestId entry
      else admitOther conversationId draft now modes
    | _ => admitOther conversationId draft now modes

/-! ## Withdrawal -/

def removeInboxItem (conversationId id : Nat) : TxM Unit := do
  let items ← items conversationId
  let index := items.findIdx (·.id = id)
  if index < items.length then setItems conversationId (items.eraseIdx index)

inductive AbortResult where
  | aborted
  | alreadyPlaced
  | settled
  | notFound
deriving DecidableEq

/-- `Submissions.abort`. -/
def abort (id : Nat) (conversationId : Option Nat) : TxM AbortResult := do
  let record : Option SubmissionRecord ← tableRead (.submission id)
  match record with
  | none => pure .notFound
  | some record =>
    if conversationId.any (record.conversationId ≠ ·) then pure .notFound
    else
      match record.status with
      | .queued => do
        changeSubmission id (.unanswered "aborted" none)
        removeInboxItem record.conversationId id
        pure .aborted
      | .placed => pure .alreadyPlaced
      | _ => pure .settled

/-- The loop of `withdrawQueuedInputs`, from the item before `index` down. -/
def withdrawFrom (reason : String) : Nat → List InboxItem → TxM (List InboxItem)
  | 0, items => pure items
  | index + 1, items =>
    match items[index]? with
    | some (.user id _ _ _) => do
      changeSubmission id (.unanswered reason none)
      withdrawFrom reason index (items.eraseIdx index)
    | _ => withdrawFrom reason index items

def withdrawQueuedInputs (conversationId : Nat) (reason : String) : TxM Unit := do
  let items ← items conversationId
  let kept ← withdrawFrom reason items.length items
  setItems conversationId kept

/-! ## The conversations of a session -/

structure World where
  storage : Memory
  inbox : Nat → List InboxItem
  live : Nat → LiveState

def World.init : World := ⟨.init, fun _ => [], fun _ => ⟨none, none⟩⟩

def resolveChange (storage : Memory) (staged : List (Nat × SubmissionRecord))
    (change : Nat × SubmissionChange) : Except CommitError (List (Nat × SubmissionRecord)) :=
  match (staged.lookup change.1).or (storage.state.submissions change.1) with
  | none => .error (.error s!"Submission {change.1} does not exist")
  | some current =>
    match applySubmissionChange current change.2 with
    | .error message => .error (.error message)
    | .ok none => .ok staged
    | .ok (some next) => .ok (Assoc.set staged change.1 next)

def resolveSubmissions (storage : Memory) (table : Transaction) :
    Except CommitError (List (Nat × SubmissionRecord)) :=
  table.submissionChanges.foldlM (resolveChange storage) table.submissions

def batch (table : Transaction) (submissions : List (Nat × SubmissionRecord)) : List StorageWrite :=
  table.writes ++ submissions.map (fun entry => .submission entry.2) ++ table.taskWrites

namespace World

def start (w : World) (conversationId taskId : Option Nat) : Tx :=
  ⟨.start conversationId taskId, w.storage, w.inbox, w.live⟩

/-- The world of a commit that failed: the ids that it minted are gone. -/
def failed (w : World) (tx : Tx) : World :=
  { w with storage := { w.storage with nextId := tx.storage.nextId } }

def finish (w : World) (tx : Tx) : World :=
  match resolveSubmissions tx.storage tx.table with
  | .error _ => w.failed tx
  | .ok submissions =>
    match tx.storage.commitBatch (batch tx.table submissions) with
    | .error _ => w.failed tx
    | .ok storage => ⟨storage, tx.inbox, tx.live⟩

def commit {α : Type} (w : World) (taskId : Option Nat) (callback : TxM α) : World :=
  match callback (w.start none taskId) with
  | .error _ tx => w.failed tx
  | .ok _ tx => w.finish tx

end World

inductive Follow where
  | join
  | start
  | leave

/-- `live.run.inputs.push(...users)`. -/
def joinRun (conversationId : Nat) (users : List Nat) : TxM Unit := do
  let live ← liveDoc conversationId
  match live.run with
  | none => pure ()
  | some run => setLive conversationId ⟨some { run with inputs := run.inputs ++ users }, live.runFailure⟩

def runBoundary (conversationId : Nat) (kind : BoundaryKind) (now : Nat) (modes : QueueModes)
    (ending : Option RunEnd) (follow : Follow) : TxM Unit := do
  let boundary ← prepareBoundary conversationId modes
  let result ← applyBoundary conversationId boundary kind now
  match ending with
  | none => pure ()
  | some ending => endRun conversationId ending
  match follow with
  | .join => joinRun conversationId result.users
  | .start => if result.users.isEmpty then pure () else startRun conversationId result.users result.first false
  | .leave => pure ()

inductive Command where
  | submit (conversationId : Nat) (draft : SubmissionDraft) (now : Nat) (modes : QueueModes)
  | boundary (conversationId : Nat) (kind : BoundaryKind) (now : Nat) (modes : QueueModes)
      (ending : Option RunEnd) (follow : Follow)
  | abort (id : Nat) (conversationId : Option Nat)
  | withdraw (conversationId : Nat) (reason : String)
  | endRun (conversationId : Nat) (ending : RunEnd)
  | holdRun (conversationId answer : Nat)
  /-- Records of other tables. -/
  | other (writes : List StorageWrite)
  | mint

def isSubmission : StorageWrite → Bool
  | .submission _ => true
  | _ => false

namespace World

def step (w : World) : Option Nat × Command → World
  | (taskId, .submit conversationId draft now modes) =>
    w.commit taskId (admitSubmission conversationId draft now modes)
  | (taskId, .boundary conversationId kind now modes ending follow) =>
    w.commit taskId (runBoundary conversationId kind now modes ending follow)
  | (taskId, .abort id conversationId) => w.commit taskId (Harness.abort id conversationId)
  | (taskId, .withdraw conversationId reason) =>
    w.commit taskId (withdrawQueuedInputs conversationId reason)
  | (taskId, .endRun conversationId ending) => w.commit taskId (Harness.endRun conversationId ending)
  | (taskId, .holdRun conversationId answer) =>
    w.commit taskId (Harness.holdRun conversationId answer)
  | (_, .other writes) =>
    { w with storage := w.storage.store (writes.filter fun write => !isSubmission write) }
  | (_, .mint) => { w with storage := { w.storage with nextId := w.storage.nextId + 1 } }

end World

end ThreeXhaust.Harness
