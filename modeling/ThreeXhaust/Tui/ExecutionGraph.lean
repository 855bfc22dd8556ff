import ThreeXhaust.Lib.Json.Value

/-!
# Execution graphs

`execution-graph.ts`: the nodes of one request, started and completed by events, and the two
places that state when such a graph is well formed. `applyExecutionEvent` checks an event
against the graph it extends; `parseExecutionGraphJson` checks a persisted graph as a whole.
-/

namespace ThreeXhaust.Tui

open Json

inductive ExecutionNodeKind where
  | root
  | tool
  | agent
deriving DecidableEq

def ExecutionNodeKind.text : ExecutionNodeKind → String
  | .root => "root"
  | .tool => "tool"
  | .agent => "agent"

/-- A duration `expectDuration` accepts: finite and not negative. -/
abbrev Duration := { d : Decimal // d.negative = false }

def Duration.zero : Duration := ⟨.ofNat 0, rfl⟩

inductive FinishedState where
  | completed
  | failed
deriving DecidableEq

def FinishedState.text : FinishedState → String
  | .completed => "completed"
  | .failed => "failed"

inductive ExecutionNodeState where
  | running
  | finished (state : FinishedState) (durationMs : Duration) (summary : String)
deriving DecidableEq

structure ExecutionNode where
  id : String
  parentNodeId : Option String
  kind : ExecutionNodeKind
  label : String
  state : ExecutionNodeState
deriving DecidableEq

def ExecutionNode.isRunning (node : ExecutionNode) : Bool := node.state = .running

structure ExecutionGraph where
  runId : String
  nodes : List ExecutionNode
  activeNodeIds : List String
deriving DecidableEq

inductive ExecutionEvent where
  | started (nodeId : String) (parentNodeId : Option String) (kind : ExecutionNodeKind)
      (label : String)
  | completed (nodeId : String) (success : Bool) (durationMs : Duration) (summary : String)
deriving DecidableEq

/-! ## JSON forms

A `parentNodeId` that is not there is spread away, so the field is absent rather than
`undefined`. -/

def parentField : Option String → List (String × Value)
  | none => []
  | some parent => [("parentNodeId", .str parent)]

def durationValue (d : Duration) : Value := .num (.finite d.1)

def ExecutionNodeState.fields : ExecutionNodeState → List (String × Value)
  | .running => [("state", .str "running")]
  | .finished state durationMs summary =>
    [("state", .str state.text), ("durationMs", durationValue durationMs),
      ("summary", .str summary)]

def ExecutionNode.toValue (node : ExecutionNode) : Value :=
  .obj (("id", .str node.id) :: (parentField node.parentNodeId
    ++ ("kind", .str node.kind.text) :: ("label", .str node.label) :: node.state.fields))

def ExecutionGraph.toValue (graph : ExecutionGraph) : Value :=
  .obj [("runId", .str graph.runId), ("nodes", .arr (graph.nodes.map (·.toValue))),
    ("activeNodeIds", .strs graph.activeNodeIds)]

def ExecutionEvent.toValue : ExecutionEvent → Value
  | .started nodeId parentNodeId kind label =>
    .obj (("type", .str "node.started") :: ("nodeId", .str nodeId)
      :: (parentField parentNodeId ++ [("kind", .str kind.text), ("label", .str label)]))
  | .completed nodeId success durationMs summary =>
    .obj [("type", .str "node.completed"), ("nodeId", .str nodeId), ("success", .bool success),
      ("durationMs", durationValue durationMs), ("summary", .str summary)]

/-! ## Reading -/

def expectString (value : Value) (field : String) : Except String String :=
  match value with
  | .str s => .ok s
  | _ => .error s!"invalid execution {field}"

def expectDuration (value : Value) : Except String Duration :=
  match value with
  | .num (.finite d) =>
    if h : d.negative = false then .ok ⟨d, h⟩ else .error "invalid execution durationMs"
  | _ => .error "invalid execution durationMs"

def expectKind (value : Value) : Except String ExecutionNodeKind :=
  match value with
  | .str s =>
    if s = "root" then .ok .root
    else if s = "tool" then .ok .tool
    else if s = "agent" then .ok .agent
    else .error "invalid execution node kind"
  | _ => .error "invalid execution node kind"

def expectParentNodeId (value : Value) : Except String (Option String) :=
  match value with
  | .undefined => .ok none
  | value => (expectString value "parentNodeId").map some

def parseExecutionEvent (value : Value) : Except String ExecutionEvent :=
  match value with
  | .obj _ =>
    match value.get "type" with
    | .str "node.started" => do
      let nodeId ← expectString (value.get "nodeId") "nodeId"
      let parentNodeId ← expectParentNodeId (value.get "parentNodeId")
      let kind ← expectKind (value.get "kind")
      let label ← expectString (value.get "label") "label"
      .ok (.started nodeId parentNodeId kind label)
    | .str "node.completed" =>
      match value.get "success" with
      | .bool success => do
        let nodeId ← expectString (value.get "nodeId") "nodeId"
        let durationMs ← expectDuration (value.get "durationMs")
        let summary ← expectString (value.get "summary") "summary"
        .ok (.completed nodeId success durationMs summary)
      | _ => .error "invalid execution success"
    | _ => .error "invalid execution event type"
  | _ => .error "invalid execution event"

def expectNodeState (value : Value) : Except String ExecutionNodeState :=
  match value.get "state" with
  | .str s =>
    if s = "running" then .ok .running
    else if s = "completed" ∨ s = "failed" then do
      let durationMs ← expectDuration (value.get "durationMs")
      let summary ← expectString (value.get "summary") "summary"
      .ok (.finished (if s = "completed" then .completed else .failed) durationMs summary)
    else .error "invalid execution node state"
  | _ => .error "invalid execution node state"

def parseExecutionNode (value : Value) : Except String ExecutionNode :=
  match value with
  | .obj _ => do
    let id ← expectString (value.get "id") "node ID"
    let parentNodeId ← expectParentNodeId (value.get "parentNodeId")
    let kind ← expectKind (value.get "kind")
    let label ← expectString (value.get "label") "node label"
    let state ← expectNodeState value
    .ok ⟨id, parentNodeId, kind, label, state⟩
  | _ => .error "invalid execution node"

/-- The loop over the persisted nodes: no id twice, every parent seen before. -/
def checkNodes : List String → List ExecutionNode → Except String Unit
  | _, [] => .ok ()
  | seen, node :: rest =>
    if node.id ∈ seen then .error s!"duplicate persisted execution node: {node.id}"
    else
      match node.parentNodeId with
      | none => checkNodes (node.id :: seen) rest
      | some parent =>
        if parent ∉ seen then .error s!"unknown persisted parent execution node: {parent}"
        else checkNodes (node.id :: seen) rest

def runningIds (nodes : List ExecutionNode) : List String :=
  (nodes.filter (·.isRunning)).map (·.id)

def parseExecutionGraphValue (value : Value) : Except String ExecutionGraph :=
  match value, value.get "nodes", value.get "activeNodeIds" with
  | .obj _, .arr nodes, .arr activeNodeIds => do
    let runId ← expectString (value.get "runId") "runId"
    let nodes ← nodes.mapM parseExecutionNode
    let activeNodeIds ← activeNodeIds.mapM (expectString · "active node ID")
    checkNodes [] nodes
    -- equal length and equal at every index
    if activeNodeIds ≠ runningIds nodes then
      .error "persisted execution active nodes are invalid"
    else .ok ⟨runId, nodes, activeNodeIds⟩
  | _, _, _ => .error "persisted execution graph is invalid"

def parseExecutionGraphJson (serialized : String) : Except String ExecutionGraph :=
  match parse serialized with
  | none => .error "persisted execution graph is not valid JSON"
  | some value => parseExecutionGraphValue value

/-! ## Applying an event -/

def createExecutionGraph (runId : String) : ExecutionGraph := ⟨runId, [], []⟩

/-- `event.parentNodeId && …`: an empty parent id is falsy and is not looked up. -/
def parentIsUnknown (nodes : List ExecutionNode) : Option String → Bool
  | none => false
  | some parent => parent ≠ "" && !nodes.any (·.id = parent)

def ExecutionNode.finish (node : ExecutionNode) (success : Bool) (durationMs : Duration)
    (summary : String) : ExecutionNode :=
  { node with state := .finished (if success then .completed else .failed) durationMs summary }

def applyExecutionEvent (state : ExecutionGraph) : ExecutionEvent → Except String ExecutionGraph
  | .started nodeId parentNodeId kind label =>
    if state.nodes.any (·.id = nodeId) then .error s!"duplicate execution node: {nodeId}"
    else if parentIsUnknown state.nodes parentNodeId then
      let parent := parentNodeId.getD ""
      .error s!"unknown parent execution node: {parent}"
    else
      .ok { state with
        nodes := state.nodes ++ [⟨nodeId, parentNodeId, kind, label, .running⟩]
        activeNodeIds := state.activeNodeIds ++ [nodeId] }
  | .completed nodeId success durationMs summary =>
    match state.nodes.findIdx? (·.id = nodeId) with
    | none => .error s!"unknown execution node: {nodeId}"
    | some nodeIndex =>
      match state.nodes[nodeIndex]? with
      | none => .error s!"unknown execution node: {nodeId}"
      | some current =>
        if current.isRunning then
          .ok { state with
            nodes := state.nodes.modify nodeIndex fun node =>
              node.finish success durationMs summary
            activeNodeIds := state.activeNodeIds.filter (· ≠ nodeId) }
        else .error s!"execution node is already terminal: {nodeId}"

end ThreeXhaust.Tui
