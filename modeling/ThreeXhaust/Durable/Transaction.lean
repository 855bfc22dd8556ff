import ThreeXhaust.Durable.Memory

/-!
# A transaction of a session

What a `Transaction` of `durable/src/session/transaction.ts` has staged: the writes of the tables, the
newest record of each task, the submissions with the changes that the settlement makes of them, and
the documents. A read after a table write is refused, which is `hasTableWrite`.

The latest entry at an address is the last one of `documents`. The values that a definition computes
are arguments.
-/

namespace ThreeXhaust.Durable

/-! ## Data -/

/-- A document definition, at one call: `initial` is the value for the seed of the call. -/
structure DocDefinition where
  kind : String
  version : Nat
  scope : Scope → Bool
  history : Option History
  fork : Option Fork
  initial : DocumentValue
  migrate : Option (DocumentValue → Nat → DocumentValue)
  checkpointWhen : DocumentValue → List DocumentOp → Nat → Bool

/-- A committed incarnation in the cache of the session; `value` is that of its tracker. -/
structure LoadedDocument where
  addressId : String
  record : DocumentRecord
  storedVersion : Nat
  valueVersion : Nat
  deltasSinceBase : Nat
  value : DocumentValue

inductive DocumentTarget where
  | loaded (document : LoadedDocument)
  | created (record : DocumentCreate) (version : Nat)
  | forkCopy (record : DocumentCreate) (source : CopySource)
  | retireOnly (record : DocumentRecord)

/-- `Prepared`: what a draft makes of its document. -/
structure Prepared where
  value : DocumentValue
  ops : List DocumentOp

structure DocumentEntry where
  addressId : String
  address : DocumentAddress
  definition : Option DocDefinition
  /-- Whether a draft was acquired. -/
  drafted : Bool
  target : Option DocumentTarget
  prepared : Prepared
  retireOnCommit : Bool

/-- The record of a plan: that of a committed incarnation has a `createdAt`. -/
inductive PlanRecord where
  | create (record : DocumentCreate)
  | stored (record : DocumentRecord)

structure DocumentPlan where
  addressId : String
  record : PlanRecord
  retire : Bool
  content : Option StorageWrite
  /-- The cached incarnation that is changed, with the definition and what the draft prepared. -/
  change : Option (LoadedDocument × DocDefinition × Prepared)

inductive TaskWriteKind where
  | create
  | replace
deriving DecidableEq

structure TaskWrite where
  kind : TaskWriteKind
  record : TaskRecord

inductive SubmissionChange where
  | done (answer : Nat)
  | unanswered (reason : String) (detail : Option Json.Value)
  | placed (entry : Nat)

structure Transaction where
  /-- The conversation and the task that the commit is bound to. -/
  conversationId : Option Nat
  taskId : Option Nat
  hasTableWrite : Bool
  writes : List StorageWrite
  createdConversationIds : List Nat
  forkSourceConversationIds : List Nat
  forkSourceDocumentIds : List Nat
  tasksById : List (Nat × Option TaskWrite)
  submissions : List (Nat × SubmissionRecord)
  submissionChanges : List (Nat × SubmissionChange)
  plans : List DocumentPlan
  documents : List DocumentEntry

def Transaction.start (conversationId taskId : Option Nat) : Transaction where
  conversationId := conversationId
  taskId := taskId
  hasTableWrite := false
  writes := []
  createdConversationIds := []
  forkSourceConversationIds := []
  forkSourceDocumentIds := []
  tasksById := []
  submissions := []
  submissionChanges := []
  plans := []
  documents := []

/-! ## Staging -/

namespace Transaction

def noteWrite (tx : Transaction) : Transaction := { tx with hasTableWrite := true }

/-! ## Tasks -/

def setTaskWrite (id : Nat) (write : TaskWrite) (tx : Transaction) : Transaction :=
  { tx with
    tasksById :=
      if tx.tasksById.any (·.1 = id) then
        tx.tasksById.map fun task => if task.1 = id then (id, some write) else task
      else tx.tasksById ++ [(id, some write)] }

/-! ## Entries and submissions -/

inductive DraftHead where
  | self
  | entry (id : Nat)

structure EntryDraft where
  kind : String
  model : Option Json.Value
  data : Option Json.Value
  head : Option DraftHead
  edits : Option Json.Value

def EntryDraft.record (draft : EntryDraft) (id conversationId : Nat) (byTaskId : Option Nat) :
    EntryRecord where
  id := id
  conversationId := conversationId
  kind := draft.kind
  model := draft.model
  data := draft.data
  head := draft.head.map fun head => match head with
    | .self => id
    | .entry other => other
  edits := draft.edits
  byTaskId := byTaskId

/-- The record after one change; a settled record stays. -/
def applySubmissionChange (current : SubmissionRecord) :
    SubmissionChange → Except String (Option SubmissionRecord)
  | change =>
    if current.status = .done ∨ current.status = .unanswered then .ok none
    else
      match change with
      | .placed entry =>
        if current.status ≠ .queued then .error s!"Submission {current.id} is not queued"
        else .ok (some { current with
          status := if current.type = .input then .placed else .done
          entry := some entry })
      | .done answer =>
        if current.status ≠ .placed then
          .error s!"Submission {current.id} is not a placed input or continue"
        else .ok (some { current with status := .done, answer := some answer })
      | .unanswered reason detail =>
        .ok (some { current with status := .unanswered, reason := some reason, detail := detail })

def taskWrites (tx : Transaction) : List StorageWrite :=
  tx.tasksById.filterMap fun task => task.2.map fun write => .task write.record

end Transaction

end ThreeXhaust.Durable
