import ThreeXhaust.Lib.Except
import ThreeXhaust.Lib.Table
import ThreeXhaust.Lib.Json.RoundTrip
import ThreeXhaust.Tui.ExecutionGraph

/-!
# Graphs the reader accepts

`Accepted` is the rule `parseExecutionGraphJson` checks. The writer, `applyExecutionEvent`,
checks the same rule event by event, except that it never looks an empty parent id up.
-/

namespace ThreeXhaust.Tui

open Json

/-- What `parseExecutionGraphJson` requires of the nodes and the active list. -/
structure Accepted (g : ExecutionGraph) : Prop where
  nodes : checkNodes [] g.nodes = .ok ()
  active : g.activeNodeIds = runningIds g.nodes

/-! ## The check of the nodes -/

theorem checkNodes_cons {seen : List String} {node : ExecutionNode} {rest : List ExecutionNode} :
    checkNodes seen (node :: rest) = .ok () ↔
      node.id ∉ seen ∧ (∀ parent, node.parentNodeId = some parent → parent ∈ seen)
        ∧ checkNodes (node.id :: seen) rest = .ok () := by
  rw [checkNodes, Except.ite_error_eq_ok]
  cases hp : node.parentNodeId with
  | none => simp
  | some parent =>
    simp only [Except.ite_error_eq_ok, Option.some.injEq, forall_eq', not_not]

variable {nodes : List ExecutionNode}

theorem checkNodes_concat {node : ExecutionNode} {seen : List String} :
    checkNodes seen (nodes ++ [node]) = .ok () ↔
      checkNodes seen nodes = .ok () ∧ node.id ∉ nodes.map (·.id) ++ seen
        ∧ ∀ parent, node.parentNodeId = some parent → parent ∈ nodes.map (·.id) ++ seen := by
  induction nodes generalizing seen with
  | nil =>
    rw [List.nil_append, checkNodes_cons]
    simp [checkNodes]
  | cons first rest ih =>
    rw [List.cons_append, checkNodes_cons, checkNodes_cons, ih]
    have hmem (k : String) : k ∈ rest.map (·.id) ++ first.id :: seen
        ↔ k ∈ (first :: rest).map (·.id) ++ seen := by
      simp only [List.map_cons, List.mem_append, List.mem_cons]
      tauto
    simp only [hmem]
    tauto

theorem checkNodes_nodup {seen : List String} (h : checkNodes seen nodes = .ok ()) :
    (nodes.map (·.id)).Nodup ∧ ∀ n ∈ nodes, n.id ∉ seen := by
  induction nodes generalizing seen with
  | nil => simp
  | cons first rest ih =>
    obtain ⟨hfirst, -, hrest⟩ := checkNodes_cons.mp h
    obtain ⟨hnodup, hseen⟩ := ih hrest
    refine ⟨?_, ?_⟩
    · rw [List.map_cons, List.nodup_cons]
      refine ⟨?_, hnodup⟩
      intro hmem
      obtain ⟨n, hn, hid⟩ := List.mem_map.mp hmem
      exact hseen n hn (by simp [hid])
    · intro n hn
      rcases List.mem_cons.mp hn with rfl | hn
      · exact hfirst
      · have := hseen n hn
        simp only [List.mem_cons, not_or] at this
        exact this.2

theorem checkNodes_update {p : ExecutionNode → Bool} {f : ExecutionNode → ExecutionNode}
    (hid : ∀ n, (f n).id = n.id) (hparent : ∀ n, (f n).parentNodeId = n.parentNodeId)
    {seen : List String} :
    checkNodes seen (Table.update p f nodes) = .ok () ↔ checkNodes seen nodes = .ok () := by
  induction nodes generalizing seen with
  | nil => rfl
  | cons first rest ih =>
    have hkeep : (if p first then f first else first).id = first.id
        ∧ (if p first then f first else first).parentNodeId = first.parentNodeId := by
      cases p first with
      | true => exact ⟨hid first, hparent first⟩
      | false => exact ⟨rfl, rfl⟩
    rw [Table.update, List.map_cons, checkNodes_cons, checkNodes_cons, hkeep.1, hkeep.2]
    rw [← Table.update, ih]

theorem runningIds_finish (nodeId : String) (success : Bool) (durationMs : Duration)
    (summary : String) :
    runningIds (Table.update (fun n => n.id = nodeId)
        (fun n => n.finish success durationMs summary) nodes)
      = (runningIds nodes).filter (· ≠ nodeId) := by
  induction nodes with
  | nil => rfl
  | cons first rest ih =>
    simp only [runningIds, Table.update, List.map_cons] at ih ⊢
    by_cases hid : first.id = nodeId
    · have hdone : (first.finish success durationMs summary).isRunning = false := by
        simp [ExecutionNode.isRunning, ExecutionNode.finish]
      cases hrun : first.isRunning with
      | true => simpa [hid, hdone, hrun] using ih
      | false => simpa [hid, hdone, hrun] using ih
    · cases hrun : first.isRunning with
      | true => simpa [hid, hrun] using ih
      | false => simpa [hid, hrun] using ih

/-! ## Applying an event -/

variable {g g' : ExecutionGraph} {nodeId : String}

theorem apply_started {label : String} {parent : Option String} {kind : ExecutionNodeKind}
    (h : applyExecutionEvent g (.started nodeId parent kind label) = .ok g') :
    nodeId ∉ g.nodes.map (·.id) ∧ parentIsUnknown g.nodes parent = false
      ∧ g' = { g with
        nodes := g.nodes ++ [⟨nodeId, parent, kind, label, .running⟩]
        activeNodeIds := g.activeNodeIds ++ [nodeId] } := by
  rw [applyExecutionEvent] at h
  obtain ⟨hnew, h⟩ := Except.ite_error_eq_ok.mp h
  obtain ⟨hparent, h⟩ := Except.ite_error_eq_ok.mp h
  refine ⟨by simpa using hnew, by simpa using hparent, by simpa using h.symm⟩

theorem apply_completed {summary : String} {success : Bool} {durationMs : Duration}
    (h : applyExecutionEvent g (.completed nodeId success durationMs summary) = .ok g') :
    ∃ i, g.nodes.findIdx? (·.id = nodeId) = some i
      ∧ g' = { g with
        nodes := g.nodes.modify i fun n => n.finish success durationMs summary
        activeNodeIds := g.activeNodeIds.filter (· ≠ nodeId) } := by
  rw [applyExecutionEvent] at h
  cases hi : g.nodes.findIdx? (·.id = nodeId) with
  | none => simp [hi] at h
  | some i =>
    refine ⟨i, rfl, ?_⟩
    cases hn : g.nodes[i]? with
    | none => simp [hi, hn] at h
    | some current =>
      simp only [hi, hn] at h
      obtain ⟨-, h⟩ := Except.ite_eq_ok_error.mp h
      simpa using h.symm

theorem apply_completed_accepted (hg : Accepted g) {summary : String} {success : Bool}
    {durationMs : Duration}
    (h : applyExecutionEvent g (.completed nodeId success durationMs summary) = .ok g') :
    Accepted g' := by
  obtain ⟨i, hi, rfl⟩ := apply_completed h
  have hupdate := Table.modify_findIdx? (checkNodes_nodup hg.nodes).1 hi
    (fun n => n.finish success durationMs summary)
  constructor
  · show checkNodes [] (g.nodes.modify i _) = .ok ()
    rw [hupdate]
    refine (checkNodes_update ?_ ?_).mpr hg.nodes
    · exact fun _ => rfl
    · exact fun _ => rfl
  · show g.activeNodeIds.filter (· ≠ nodeId) = runningIds (g.nodes.modify i _)
    rw [hupdate, runningIds_finish, hg.active]

/-- The event on which writer and reader disagree: a node under the empty id, which is not
there. -/
def startsUnderMissingEmptyId (g : ExecutionGraph) : ExecutionEvent → Bool
  | .started _ (some "") _ _ => !g.nodes.any (·.id = "")
  | _ => false

theorem parent_mem {label parent : String} {kind : ExecutionNodeKind}
    (hempty : startsUnderMissingEmptyId g (.started nodeId (some parent) kind label) = false)
    (hknown : parentIsUnknown g.nodes (some parent) = false) : parent ∈ g.nodes.map (·.id) := by
  by_cases hp : parent = ""
  · subst hp
    simpa [startsUnderMissingEmptyId] using hempty
  · simpa [parentIsUnknown, hp] using hknown

/-- **The writer's check is the reader's**, apart from the empty parent id. -/
theorem apply_accepted {event : ExecutionEvent} (hg : Accepted g)
    (hempty : startsUnderMissingEmptyId g event = false) (h : applyExecutionEvent g event = .ok g')
    : Accepted g' := by
  cases event with
  | completed nodeId success durationMs summary => exact apply_completed_accepted hg h
  | started nodeId parent kind label =>
    obtain ⟨hnew, hknown, rfl⟩ := apply_started h
    constructor
    · rw [checkNodes_concat]
      refine ⟨hg.nodes, by simpa using hnew, ?_⟩
      rintro p rfl
      simpa using parent_mem hempty hknown
    · simp [runningIds, hg.active, ExecutionNode.isRunning]

theorem accepted_create (runId : String) : Accepted (createExecutionGraph runId) :=
  ⟨rfl, rfl⟩

/-! ## Writing and reading -/

theorem expectKind_text (kind : ExecutionNodeKind) : expectKind (.str kind.text) = .ok kind := by
  cases kind <;> rfl

theorem expectDuration_value (d : Duration) : expectDuration (durationValue d) = .ok d := by
  obtain ⟨d, hd⟩ := d
  simp [expectDuration, durationValue, hd]

attribute [local simp] ExecutionNode.toValue ExecutionEvent.toValue ExecutionNodeState.fields
  parentField parseExecutionNode parseExecutionEvent Value.get expectNodeState
  expectString expectKind_text expectParentNodeId expectDuration_value FinishedState.text
  Except.map

theorem parseExecutionNode_toValue (node : ExecutionNode) :
    parseExecutionNode node.toValue = .ok node := by
  obtain ⟨id, parent, kind, label, state⟩ := node
  -- which fields are there depends on the parent and on the state
  cases parent with
  | none =>
    cases state with
    | running => simp
    | finished result durationMs summary => cases result <;> simp
  | some parent =>
    cases state with
    | running => simp
    | finished result durationMs summary => cases result <;> simp

theorem parseExecutionGraphValue_toValue (g : ExecutionGraph) :
    parseExecutionGraphValue g.toValue = .ok g ↔ Accepted g := by
  have hnodes : (g.nodes.map (·.toValue)).mapM parseExecutionNode = .ok g.nodes :=
    Except.mapM_map fun n _ => parseExecutionNode_toValue n
  have hactive : (g.activeNodeIds.map Value.str).mapM (expectString · "active node ID")
      = .ok g.activeNodeIds := Except.mapM_map fun _ _ => rfl
  have hread : parseExecutionGraphValue g.toValue = (checkNodes [] g.nodes >>= fun _ =>
      if g.activeNodeIds ≠ runningIds g.nodes then
        .error "persisted execution active nodes are invalid"
      else .ok g) := by
    show (expectString (.str g.runId) "runId" >>= fun runId =>
      (g.nodes.map (·.toValue)).mapM parseExecutionNode >>= fun nodes =>
      (g.activeNodeIds.map Value.str).mapM (expectString · "active node ID") >>= fun active =>
      checkNodes [] nodes >>= fun _ =>
      if active ≠ runningIds nodes then .error "persisted execution active nodes are invalid"
      else .ok (ExecutionGraph.mk runId nodes active)) = _
    rw [hnodes, hactive]
    rfl
  rw [hread, Except.bind_eq_ok]
  simp only [Except.ite_error_eq_ok, not_not]
  constructor
  · rintro ⟨⟨⟩, hcheck, hactive, -⟩
    exact ⟨hcheck, hactive⟩
  · rintro ⟨hcheck, hactive⟩
    exact ⟨(), hcheck, hactive, trivial⟩

theorem ExecutionNode.isJson_toValue (node : ExecutionNode) : node.toValue.IsJson := by
  obtain ⟨id, parent, kind, label, state⟩ := node
  rw [ExecutionNode.toValue, Value.isJson_obj]
  cases parent <;> cases state <;> simp [durationValue, Value.IsJson]

theorem ExecutionGraph.isJson_toValue (g : ExecutionGraph) : g.toValue.IsJson := by
  rw [ExecutionGraph.toValue, Value.isJson_obj]
  simp [-ExecutionNode.toValue, Value.isJson_arr, ExecutionNode.isJson_toValue]

theorem ExecutionEvent.isJson_toValue (event : ExecutionEvent) : event.toValue.IsJson := by
  cases event with
  | started nodeId parent kind label =>
    rw [ExecutionEvent.toValue, Value.isJson_obj]
    cases parent <;> simp
  | completed nodeId success durationMs summary =>
    rw [ExecutionEvent.toValue, Value.isJson_obj]
    simp [durationValue, Value.IsJson]

theorem parseExecutionEvent_toValue (event : ExecutionEvent) :
    parseExecutionEvent event.toValue = .ok event := by
  cases event with
  | started nodeId parent kind label =>
    cases parent <;> simp
  | completed nodeId success durationMs summary => simp

def readEvent (eventJson : String) : Except String ExecutionEvent :=
  match parse eventJson with
  | none => .error "Unexpected token in JSON"
  | some value => parseExecutionEvent value

theorem readEvent_stringify (event : ExecutionEvent) :
    readEvent event.toValue.stringify = .ok event := by
  rw [readEvent, parse_stringify _ event.isJson_toValue]
  exact parseExecutionEvent_toValue event

/-- **The reader against the writer.** A written graph is read back exactly when it is accepted. -/
theorem parse_toValue (g : ExecutionGraph) :
    parseExecutionGraphJson g.toValue.stringify = .ok g ↔ Accepted g := by
  rw [parseExecutionGraphJson, parse_stringify _ g.isJson_toValue]
  exact parseExecutionGraphValue_toValue g

theorem accepted_of_parse {serialized : String} (h : parseExecutionGraphJson serialized = .ok g)
    : Accepted g := by
  rw [parseExecutionGraphJson] at h
  cases hp : parse serialized with
  | none => simp [hp] at h
  | some value =>
    simp only [hp] at h
    unfold parseExecutionGraphValue at h
    split at h
    · obtain ⟨runId, -, h⟩ := Except.bind_eq_ok.mp h
      obtain ⟨nodes, -, h⟩ := Except.bind_eq_ok.mp h
      obtain ⟨active, -, h⟩ := Except.bind_eq_ok.mp h
      obtain ⟨⟨⟩, hcheck, h⟩ := Except.bind_eq_ok.mp h
      obtain ⟨hactive, h⟩ := Except.ite_error_eq_ok.mp h
      cases h
      exact ⟨hcheck, not_not.mp hactive⟩
    · cases h

end ThreeXhaust.Tui
