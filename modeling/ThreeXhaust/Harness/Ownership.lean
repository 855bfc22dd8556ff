import ThreeXhaust.Lib.Assoc
import ThreeXhaust.Lib.Forest

/-!
# The ownership index of the task scheduler

`TaskScheduler` of `durable/src/harness/scheduler.ts` keeps the ownership tree around live work in
memory. A task hangs from its owner task or else from its conversation, a conversation from its
owner task, if any. `live`, `settled` and `edges` say what is known of the way up; `below` is the
same tree downward, listing only nodes that are live tasks or have nodes listed below them.

A map of sets whose sets are never empty is a list of pairs. The counters, metrics and candidate
sets that a publication also updates (`#intent`, `#runnable`, `#waiters` and so on) are not part of
the index.
-/

namespace ThreeXhaust.Harness

abbrev TaskId := Nat

abbrev ConversationId := Nat

/-! ## Records -/

inductive OutcomeStatus where
  | completed
  | failed
  | aborted
  | orphaned
  | faulted
deriving DecidableEq

inductive JoinPolicy where
  | failFast
  | allSettled
deriving DecidableEq

inductive AbortReason where
  | restart
deriving DecidableEq

/-- `TaskState` without checkpoints and results. -/
inductive TaskState where
  | pending
  | running
  | waiting (on : List TaskId) (policy : JoinPolicy)
  | sleeping (until_ : Nat)
  | completing (outcome : OutcomeStatus)
  | terminal (outcome : OutcomeStatus)
deriving DecidableEq

def TaskState.isTerminal : TaskState → Bool
  | .terminal _ => true
  | _ => false

structure TaskNode where
  conversationId : ConversationId
  owner : Option TaskId
  background : Bool
deriving DecidableEq

structure TaskRecord extends TaskNode where
  id : TaskId
  abortRequested : Bool
  abortReason : Option AbortReason
  state : TaskState
deriving DecidableEq

inductive Node where
  | task (id : TaskId)
  | conversation (id : ConversationId)
deriving DecidableEq

/-- Storage mints the ids of tasks and conversations from one counter. -/
def Node.id : Node → Nat
  | .task id => id
  | .conversation id => id

def parentNode (node : TaskNode) : Node :=
  match node.owner with
  | some owner => .task owner
  | none => .conversation node.conversationId

structure Overlay where
  tasks : List (TaskId × TaskRecord)
  edges : List (ConversationId × Option TaskId)

def Overlay.empty : Overlay :=
  { tasks := [], edges := [] }

/-! ## The index -/

/-- What is known of the way up: live tasks, ended tasks, and the owners of conversations (`none`
inside for an ownerless one). -/
structure Known where
  live : List (TaskId × TaskRecord)
  settled : List (TaskId × TaskNode)
  edges : List (ConversationId × Option TaskId)

structure Index extends Known where
  /-- Pairs of a node and a node listed below it. -/
  below : List (Node × Node)
  roots : List ConversationId
  unloaded : List TaskId
  dropQueue : List Node
  /-- A node once for each job that has it pinned. -/
  pins : List Node

def Index.empty : Index :=
  { live := [], settled := [], edges := [], below := [], roots := [], unloaded := [],
    dropQueue := [], pins := [] }

def addTo {α : Type} [DecidableEq α] (set : List α) (value : α) : List α :=
  if value ∈ set then set else set ++ [value]

namespace Known

variable (s : Known)

def node (id : TaskId) : Option TaskNode :=
  match s.live.lookup id with
  | some record => some record.toTaskNode
  | none => s.settled.lookup id

/-- The parent of a node as far as it is known: `some none` for an ownerless conversation. -/
def parent : Node → Option (Option Node)
  | .task id => (s.node id).map fun node => some (parentNode node)
  | .conversation id => (s.edges.lookup id).map fun owner => owner.map .task

def isLive : Node → Bool
  | .task id => (s.live.lookup id).isSome
  | .conversation _ => false

def edge (overlay : Overlay) (id : ConversationId) : Option (Option TaskId) :=
  match overlay.edges.lookup id with
  | some owner => some owner
  | none => s.edges.lookup id

end Known

namespace Index

variable (s : Index)

def hasBelow (node : Node) : Bool :=
  s.below.any (·.1 = node)

def needed (node : Node) : Bool :=
  s.isLive node || s.hasBelow node

def known : Node → Bool
  | .task id => (s.node id).isSome && id ∉ s.unloaded
  | .conversation id =>
    match s.edges.lookup id with
    | some none => true
    | some (some owner) => (s.node owner).isSome && owner ∉ s.unloaded
    | none => false

/-- `#dropIfUnneeded`; the sweep it schedules is a step of its own. -/
def dropIfUnneeded (node : Node) : Index :=
  if s.isLive node then s
  else if s.hasBelow node then s
  else { s with dropQueue := addTo s.dropQueue node }

/-- `addTo` on `#below`. -/
def listUnder (parent node : Node) : Index :=
  { s with below := s.below ++ [(parent, node)] }

/-- `deleteFrom` on `#below`. -/
def unlistFrom (parent node : Node) : Index :=
  { s with below := s.below.filter (· ≠ (parent, node)) }

/-- The turn of `#relist` at an ownerless conversation. -/
def relistRoot : Node → Index
  | .task _ => s
  | .conversation root =>
    if s.needed (.conversation root) then { s with roots := addTo s.roots root }
    else { s with roots := s.roots.filter (· ≠ root) }

/-- The loop of `#relist`, with `fuel` for its turns. -/
def relistLoop : Nat → Index → Node → Index
  | 0, s, _ => s
  | fuel + 1, s, node =>
    match s.parent node with
    | none => s
    | some none => s.relistRoot node
    | some (some parent) =>
      if decide ((parent, node) ∈ s.below) = s.needed node then s
      else if s.needed node then
        -- on with its parent only when it is the first below it
        if s.hasBelow parent then s.listUnder parent node
        else relistLoop fuel (s.listUnder parent node) parent
      else
        -- on with its parent only when it was the last below it
        if (s.unlistFrom parent node).hasBelow parent then s.unlistFrom parent node
        else relistLoop fuel ((s.unlistFrom parent node).dropIfUnneeded parent) parent

/-- `#relist`. An owner is minted before what it owns, so the way up from a node is no longer than
its id. -/
def relist (node : Node) : Index :=
  relistLoop (node.id + 1) s node

def setEdge (conversationId : ConversationId) (owner : Option TaskId) : Index :=
  let s := { s with edges := Assoc.set s.edges conversationId owner }
  (s.relist (.conversation conversationId)).dropIfUnneeded (.conversation conversationId)

def settle (id : TaskId) (node : TaskNode) : Index :=
  let s := { s with settled := Assoc.set s.settled id node, unloaded := addTo s.unloaded id }
  (s.relist (.task id)).dropIfUnneeded (.task id)

/-- `#track` for a record that is terminal. -/
def trackEnd (record : TaskRecord) : Index :=
  let s := { s with
    live := Assoc.erase s.live record.id
    settled := Assoc.set s.settled record.id record.toTaskNode }
  (s.relist (.task record.id)).dropIfUnneeded (.task record.id)

def trackNew (record : TaskRecord) : Index :=
  let s := { s with live := Assoc.set s.live record.id record }
  let s := if s.known (parentNode record.toTaskNode) then s
    else { s with unloaded := addTo s.unloaded record.id }
  s.relist (.task record.id)

def track (previous : Option TaskRecord) (record : TaskRecord) : Index :=
  if record.state.isTerminal then s.trackEnd record
  else match previous with
    | none => s.trackNew record
    | some _ => { s with live := Assoc.set s.live record.id record }

def pin (node : Node) : Index :=
  { s with pins := node :: s.pins }

/-- The end of a job that pinned `node`. -/
def unpin (node : Node) : Index :=
  let s := { s with pins := s.pins.erase node }
  if node ∈ s.pins then s else s.dropIfUnneeded node

def forget : Node → Index
  | .conversation id =>
    { s with edges := Assoc.erase s.edges id, roots := s.roots.filter (· ≠ id) }
  | .task id =>
    if s.isLive (.task id) then s
    else { s with settled := Assoc.erase s.settled id, unloaded := s.unloaded.filter (· ≠ id) }

/-- What `#sweep` does with one node of the queue. -/
def drop (node : Node) : Index :=
  if s.hasBelow node || node ∈ s.pins then s else s.forget node

def sweep : Index :=
  { s.dropQueue.foldl drop s with dropQueue := [] }

/-! ## Walks down -/

/-- The loop of `#links` for one new task, from `child` below `parent` up. -/
def linkUp (overlay : Overlay) : Nat → List (Node × Node) → Node → Node → List (Node × Node)
  | 0, links, _, _ => links
  | fuel + 1, links, child, parent =>
    if (parent, child) ∈ links then links
    else
      let links := links ++ [(parent, child)]
      match parent with
      | .task id =>
        if s.isLive parent || (overlay.tasks.lookup id).isSome then links
        else match s.settled.lookup id with
          | none => links
          | some fields =>
            if (parentNode fields, parent) ∈ s.below then links
            else linkUp overlay fuel links parent (parentNode fields)
      | .conversation id =>
        match s.edge overlay id with
        | some (some owner) =>
          if (.task owner, parent) ∈ s.below then links
          else linkUp overlay fuel links parent (.task owner)
        | _ => links

def links (overlay : Overlay) : List (Node × Node) :=
  overlay.tasks.foldl
    (fun links entry =>
      if s.isLive (.task entry.1) || (s.settled.lookup entry.1).isSome then links
      else s.linkUp overlay (entry.1 + 1) links (.task entry.1) (parentNode entry.2.toTaskNode))
    []

def record (overlay : Overlay) (id : TaskId) : Option TaskRecord :=
  match overlay.tasks.lookup id with
  | some record => some record
  | none => s.live.lookup id

def fields (overlay : Overlay) (id : TaskId) : Option TaskNode :=
  match s.record overlay id with
  | some record => some record.toTaskNode
  | none => s.settled.lookup id

def enters (overlay : Overlay) (crossBackground : Bool) (enter : TaskId → Bool) : Node → Bool
  | .conversation _ => true
  | .task id =>
    match s.fields overlay id with
    | none => false
    | some node => (crossBackground || !node.background) && enter id

/-- What a walk down yields for a task: `live` is there when its record is not terminal. -/
structure Yield where
  id : TaskId
  node : TaskNode
  live : Option TaskRecord

def yield (overlay : Overlay) : Node → Option Yield
  | .conversation _ => none
  | .task id =>
    (s.fields overlay id).map fun node =>
      { id, node, live := (s.record overlay id).filter fun record => !record.state.isTerminal }

/-- `#walkDown`, with `fuel` for the turns of its loop; `none` when it does not last. -/
def walkDown (overlay : Overlay) (crossBackground : Bool) (enter : TaskId → Bool) (fuel : Nat)
    (start : Node) : Option (List Yield) :=
  (Forest.walk (s.below ++ s.links overlay) (s.enters overlay crossBackground enter) fuel
    [start]).map fun nodes => nodes.filterMap (s.yield overlay)

end Index

/-! ## Chain loads -/

/-- What is committed and published: the tables as a job on the line reads them. -/
structure Records where
  tasks : List (TaskId × TaskRecord)
  conversations : List (ConversationId × Option TaskId)

/-- A `#loadChain` underway. -/
structure Load where
  overlay : Overlay
  passed : List TaskId
  /-- The node it is at. -/
  up : Option Node
  /-- Whether it waits for a read of that node's record. -/
  reading : Bool

inductive Turn where
  | walks (load : Load)
  | reads
  | ends

def Load.turn (s : Index) (load : Load) : Turn :=
  match load.up with
  | none => .ends
  | some (.task id) =>
    match s.node id with
    | none => if (load.overlay.tasks.lookup id).isSome then .ends else .reads
    | some node =>
      if id ∉ s.unloaded then .ends
      else .walks { load with passed := load.passed ++ [id], up := some (parentNode node) }
  | some (.conversation id) =>
    match s.edge load.overlay id with
    | none => .reads
    | some owner => .walks { load with up := owner.map .task }

def Load.install (records : Records) (s : Index) (load : Load) : Index × Option Load :=
  match load.up with
  | none => (s, none)
  | some (.task id) =>
    match records.tasks.lookup id with
    | none => (s, none)
    | some record =>
      let node := record.toTaskNode
      let s := if record.state.isTerminal then (s.settle id node).pin (.task id) else s
      (s, some { load with
        passed := load.passed ++ [id], up := some (parentNode node), reading := false })
  | some (.conversation id) =>
    let owner := (records.conversations.lookup id).getD none
    ((s.setEdge id owner).pin (.conversation id),
      some { load with up := owner.map .task, reading := false })

/-- The end of a load: the tasks it passed have a loaded chain. -/
def Load.finish (s : Index) (load : Load) : Index :=
  { s with unloaded := s.unloaded.filter (· ∉ load.passed) }

/-! ## Publications -/

/-- A change of a publication; of the other tables the index reads nothing. -/
inductive Change where
  | conversation (id : ConversationId) (owner : Option TaskId)
  | task (record : TaskRecord)

/-- What `#observe` does first for a new conversation. -/
def Index.observeConversation (s : Index) : Change → Index
  | .conversation id owner => if (s.edges.lookup id).isSome then s else s.setEdge id owner
  | .task _ => s

def Index.observeTask (s : Index) : Change → Index
  | .conversation _ _ => s
  | .task record => s.track (s.live.lookup record.id) record

/-- `#observe` up to its sweep: edges first, so that the tasks a commit creates in a new
conversation hang from it. -/
def Index.observe (s : Index) (changes : List Change) : Index :=
  changes.foldl observeTask (changes.foldl observeConversation s)

def Records.applyChange (records : Records) : Change → Records
  | .conversation id owner =>
    { records with conversations := Assoc.set records.conversations id owner }
  | .task record => { records with tasks := Assoc.set records.tasks record.id record }

def Records.apply (records : Records) (changes : List Change) : Records :=
  changes.foldl applyChange records

/-- `LIVE_STATUSES`, the order in which `open` scans. -/
def liveStatuses : List (TaskState → Bool) :=
  [fun | .pending => true | _ => false,
   fun | .running => true | _ => false,
   fun | .waiting _ _ => true | _ => false,
   fun | .sleeping _ => true | _ => false,
   fun | .completing _ => true | _ => false]

/-- The index that `open` builds from the stored tasks. -/
def Records.opened (records : Records) : Index :=
  (liveStatuses.flatMap fun status => (records.tasks.map (·.2)).filter (status ·.state)).foldl
    (fun s record => s.track none record) Index.empty

end ThreeXhaust.Harness
