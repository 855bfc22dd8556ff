import ThreeXhaust.Tui.Fencing

/-!
# Snapshots, event logs and the ends of requests

A row carries the snapshot of its execution graph and the table of events carries the log it
came from. `RowTrace` ties the two together: the log is numbered from 1, and the snapshot is
the text of the graph the log folds to, which the reader accepts.
-/

namespace ThreeXhaust.Tui

open Json

/-! ## Logs -/

/-- Sequence numbers and texts of a log whose first `n` events are already stored. -/
def numbered : Nat → List ExecutionEvent → List (Nat × String)
  | _, [] => []
  | n, event :: rest => (n + 1, event.toValue.stringify) :: numbered (n + 1) rest

theorem numbered_append (n : Nat) (xs ys : List ExecutionEvent) :
    numbered n (xs ++ ys) = numbered n xs ++ numbered (n + xs.length) ys := by
  induction xs generalizing n with
  | nil => simp [numbered]
  | cons x rest ih =>
    have harith : n + (x :: rest).length = n + 1 + rest.length := by
      rw [List.length_cons]
      omega
    rw [List.cons_append, numbered, numbered, ih, harith, List.cons_append]

theorem map_eventRows (id now : String) (n : Nat) (events : List ExecutionEvent) :
    (eventRows id now n events).map (fun e => (e.sequence, e.eventJson)) = numbered n events := by
  induction events generalizing n with
  | nil => rfl
  | cons event rest ih => rw [eventRows, numbered, List.map_cons, ih]

theorem numbered_sequences (n : Nat) (events : List ExecutionEvent) :
    (numbered n events).map Prod.fst = List.range' (n + 1) events.length := by
  induction events generalizing n with
  | nil => rfl
  | cons event rest ih => rw [numbered, List.map_cons, ih, List.length_cons, List.range'_succ]

theorem numbered_texts (n : Nat) (events : List ExecutionEvent) :
    (numbered n events).map Prod.snd = events.map (·.toValue.stringify) := by
  induction events generalizing n with
  | nil => rfl
  | cons event rest ih => rw [numbered, List.map_cons, ih, List.map_cons]

theorem foldl_max_range' (n k : Nat) : (List.range' (n + 1) k).foldl max n = n + k := by
  induction k generalizing n with
  | zero => simp
  | succ k ih =>
    rw [List.range'_succ, List.foldl_cons, Nat.max_eq_right (by omega), ih]
    omega

/-! ## The root of a graph -/

/-- The graph belongs to the request, and its first node is the request's own. -/
structure Rooted (id : String) (g : ExecutionGraph) : Prop where
  runId : g.runId = id
  root : ∃ root rest, g.nodes = root :: rest ∧ root.id = id ∧ root.kind = .root
    ∧ root.parentNodeId = none

variable {g g' : ExecutionGraph}

theorem apply_rooted {id : String} {event : ExecutionEvent} (hg : Rooted id g)
    (h : applyExecutionEvent g event = .ok g') : Rooted id g' := by
  obtain ⟨root, rest, hnodes, hroot⟩ := hg.root
  cases event with
  | started nodeId parent kind label =>
    obtain ⟨-, -, rfl⟩ := apply_started h
    refine ⟨hg.runId, root, rest ++ [⟨nodeId, parent, kind, label, .running⟩], ?_, hroot⟩
    show g.nodes ++ _ = _
    rw [hnodes, List.cons_append]
  | completed nodeId success durationMs summary =>
    obtain ⟨i, -, rfl⟩ := apply_completed h
    refine ⟨hg.runId, ?_⟩
    show ∃ root rest, g.nodes.modify i _ = root :: rest ∧ _
    rw [hnodes]
    cases i with
    | zero => exact ⟨root.finish success durationMs summary, rest, by simp, hroot⟩
    | succ i =>
      exact ⟨root, rest.modify i fun n => n.finish success durationMs summary, by simp, hroot⟩

theorem foldlM_apply {P : ExecutionGraph → Prop} {events : List ExecutionEvent}
    (hP : ∀ g g' event, event ∈ events → P g → applyExecutionEvent g event = .ok g' → P g')
    (hg : P g) (h : events.foldlM applyExecutionEvent g = .ok g') : P g' := by
  induction events generalizing g with
  | nil =>
    cases h
    exact hg
  | cons event rest ih =>
    rw [List.foldlM_cons] at h
    obtain ⟨g1, hfirst, h⟩ := Except.bind_eq_ok.mp h
    refine ih ?_ (hP g g1 event (by simp) hg hfirst) h
    exact fun g g' e he => hP g g' e (by simp [he])

theorem completions_accepted {events : List ExecutionEvent}
    (hes : ∀ e ∈ events, e.isCompletion = true) (hg : Accepted g)
    (h : events.foldlM applyExecutionEvent g = .ok g') : Accepted g' := by
  refine foldlM_apply ?_ hg h
  intro g g' event hevent hg happly
  cases event with
  | started nodeId parent kind label => cases hes _ hevent
  | completed nodeId success durationMs summary => exact apply_completed_accepted hg happly

/-! ## The trace of a row -/

/-- A row whose graph has started: its log and the graph the log folds to. -/
structure Traced (stored : List ExecutionEventRow) (row : TuiRequestRow)
    (events : List ExecutionEvent) (g : ExecutionGraph) : Prop where
  stored : stored.map (fun e => (e.sequence, e.eventJson)) = numbered 0 events
  sequence : row.executionSequence = events.length
  snapshot : row.executionSnapshot = some g.toValue.stringify
  folded : events.foldlM applyExecutionEvent (createExecutionGraph row.requestId) = .ok g
  accepted : Accepted g
  rooted : Rooted row.requestId g
  safe : isSafeInteger row.executionSequence

inductive RowTrace (stored : List ExecutionEventRow) (row : TuiRequestRow) : Prop where
  | untouched (log : stored = []) (sequence : row.executionSequence = 0)
      (snapshot : row.executionSnapshot = none)
  | traced {events : List ExecutionEvent} {g : ExecutionGraph} (h : Traced stored row events g)

variable {row : TuiRequestRow}

theorem Traced.events_ne_nil {stored : List ExecutionEventRow} {events : List ExecutionEvent}
    (h : Traced stored row events g) : events ≠ [] := by
  rintro rfl
  obtain ⟨root, rest, hnodes, -⟩ := h.rooted.root
  have hg := h.folded
  cases hg
  cases hnodes

theorem Traced.sequence_pos {stored : List ExecutionEventRow} {events : List ExecutionEvent}
    (h : Traced stored row events g) : 0 < row.executionSequence := by
  rw [h.sequence]
  exact List.length_pos_iff.mpr h.events_ne_nil

theorem Traced.sequences {stored : List ExecutionEventRow} {events : List ExecutionEvent}
    (h : Traced stored row events g) :
    stored.map (·.sequence) = List.range' 1 row.executionSequence := by
  rw [h.sequence, ← numbered_sequences, ← h.stored, List.map_map]
  rfl

variable {db : Database}

/-- **A traced row can be read.** -/
theorem Traced.graphOf {events : List ExecutionEvent}
    (h : Traced (db.eventsOf row.requestId) row events g) : db.graphOf row = .ok g := by
  have hlength : (db.eventsOf row.requestId).length = row.executionSequence := by
    have := congrArg List.length h.sequences
    simpa using this
  have hmax : ((db.eventsOf row.requestId).map (·.sequence)).foldl max 0
      = row.executionSequence := by
    rw [h.sequences, foldl_max_range']
    omega
  have hsafe := h.safe
  have hpos := h.sequence_pos
  obtain ⟨root, rest, hnodes, hid, hkind, hparent⟩ := h.rooted.root
  rw [Database.graphOf, h.snapshot, Database.graph]
  rw [if_neg (by rw [not_or]; exact ⟨not_not.mpr hsafe, by omega⟩),
    if_neg (by rw [hlength, hmax]; simp), (parse_toValue g).mpr h.accepted, Except.ok_bind, hnodes]
  simp only
  rw [if_neg (by simp [h.rooted.runId, hid, hkind, hparent])]

theorem RowTrace.of_graphOf (h : RowTrace (db.eventsOf row.requestId) row)
    (hg : db.graphOf row = .ok g) : ∃ events, Traced (db.eventsOf row.requestId) row events g := by
  cases h with
  | untouched log sequence snapshot =>
    rw [Database.graphOf, snapshot, Database.graph] at hg
    cases hg
  | @traced events g0 htraced =>
    rw [htraced.graphOf] at hg
    cases hg
    exact ⟨events, htraced⟩

variable {row' : TuiRequestRow}

theorem RowTrace.keep {stored : List ExecutionEventRow} (h : RowTrace stored row)
    (hid : row'.requestId = row.requestId)
    (hsequence : row'.executionSequence = row.executionSequence)
    (hsnapshot : row'.executionSnapshot = row.executionSnapshot) :
    RowTrace (stored ++ []) row' := by
  rw [List.append_nil]
  cases h with
  | untouched log sequence snapshot =>
    exact .untouched log (hsequence.trans sequence) (hsnapshot.trans snapshot)
  | traced h =>
    refine .traced ⟨h.stored, hsequence.trans h.sequence, hsnapshot.trans h.snapshot, ?_,
      h.accepted, ?_, ?_⟩
    · rw [hid]
      exact h.folded
    · rw [hid]
      exact h.rooted
    · rw [hsequence]
      exact h.safe

theorem Traced.extend {stored : List ExecutionEventRow} {events more : List ExecutionEvent}
    {now : String} (h : Traced stored row events g)
    (happly : more.foldlM applyExecutionEvent g = .ok g') (haccepted : Accepted g')
    (hsafe : isSafeInteger (row.executionSequence + more.length))
    (hid : row'.requestId = row.requestId)
    (hsequence : row'.executionSequence = row.executionSequence + more.length)
    (hsnapshot : row'.executionSnapshot = some g'.toValue.stringify) :
    RowTrace (stored ++ eventRows row.requestId now row.executionSequence more) row' := by
  refine @RowTrace.traced _ _ (events ++ more) g' ⟨?_, ?_, hsnapshot, ?_, haccepted, ?_, ?_⟩
  · rw [List.map_append, h.stored, map_eventRows, numbered_append, h.sequence, Nat.zero_add]
  · rw [hsequence, h.sequence, List.length_append]
  · rw [hid, List.foldlM_append, h.folded]
    exact happly
  · rw [hid]
    exact foldlM_apply (fun _ _ _ _ => apply_rooted) h.rooted happly
  · rw [hsequence]
    exact hsafe

/-! ## Every call keeps every trace -/

/-- A recording of the one event on which the writer of graphs and their reader disagree. -/
def recordsUnderMissingEmptyId (db : Database) : TuiCall → Bool
  | .recordExecutionEvent requestId _ _ value =>
    match parseExecutionEvent value, (db.row? requestId).map db.graphOf with
    | .ok event, some (.ok g) => startsUnderMissingEmptyId g event
    | _, _ => false
  | _ => false

def RecordsKnownParents (db : Database) (call : TuiCall) : Prop :=
  recordsUnderMissingEmptyId db call = false

variable {es : List ExecutionEventRow}

theorem Change.trace {call : TuiCall} (h : Change db call row row' es)
    (hrow : db.row? row.requestId = some row) (hguard : RecordsKnownParents db call)
    (ht : RowTrace (db.eventsOf row.requestId) row) :
    RowTrace (db.eventsOf row.requestId ++ es) row' := by
  cases h with
  | stay => exact ht.keep rfl rfl rfl
  | renew expiry now running => exact ht.keep rfl rfl rfl
  | effect effectId now running => exact ht.keep rfl rfl rfl
  | requeue now running unaffected => exact ht.keep rfl rfl rfl
  | «recall» now issued queued newest => exact ht.keep rfl rfl rfl
  | @record _ _ _ event g g' now issued parsed running child graph applied safe =>
    obtain ⟨events, htraced⟩ := ht.of_graphOf graph
    have hknown : startsUnderMissingEmptyId g event = false := by
      rw [RecordsKnownParents, issued, recordsUnderMissingEmptyId] at hguard
      simpa [parsed, hrow, graph] using hguard
    refine htraced.extend ?_ (apply_accepted htraced.accepted hknown applied) safe rfl rfl rfl
    rw [List.foldlM_cons, applied]
    rfl
  | close state outcome now closing =>
    obtain ⟨g, hgraph, happlied⟩ := closing.applied
    obtain ⟨events, htraced⟩ := ht.of_graphOf hgraph
    exact htraced.extend happlied
      (completions_accepted closing.completions htraced.accepted happlied) closing.safe rfl rfl rfl

theorem apply_root {id label : String}
    (h : applyExecutionEvent (createExecutionGraph id) (.started id none .root label) = .ok g') :
    Accepted g' ∧ Rooted id g' := by
  refine ⟨apply_accepted (accepted_create id) rfl h, ?_⟩
  obtain ⟨-, -, rfl⟩ := apply_started h
  exact ⟨rfl, _, [], rfl, rfl, rfl, rfl⟩

theorem Claimed.trace {stored : List ExecutionEventRow} (h : Claimed row row' es)
    (ht : RowTrace stored row) : RowTrace (stored ++ es) row' := by
  cases h with
  | reopened owner expiry now queued started => exact ht.keep rfl rfl rfl
  | @opened g' owner expiry now queued sequence applied =>
    cases ht with
    | traced h => exact absurd sequence h.sequence_pos.ne'
    | untouched log _ snapshot =>
      obtain ⟨haccepted, hrooted⟩ := apply_root applied
      refine @RowTrace.traced _ _ [.started row.requestId none .root row.objective] g'
        ⟨?_, rfl, rfl, ?_, haccepted, hrooted, ?_⟩
      · rw [log, List.nil_append, map_eventRows]
      · show ([_] : List ExecutionEvent).foldlM applyExecutionEvent
          (createExecutionGraph row.requestId) = _
        rw [List.foldlM_cons, applied]
        rfl
      · show isSafeInteger 1
        decide

structure Sound (db : Database) : Prop where
  consistent : Consistent db
  rows : ∀ id row, db.row? id = some row → RowTrace (db.eventsOf id) row
  stray : ∀ id, id ∉ db.ids → db.eventsOf id = []

theorem Sound.changes {db' : Database} {call : TuiCall} (hs : Sound db)
    (hguard : RecordsKnownParents db call) (h : db.Changes db' (Change db call))
    (hc : Consistent db') : Sound db' := by
  refine ⟨hc, ?_, ?_⟩
  · intro id row' hrow'
    obtain ⟨row, es, hrow, hes, hchange⟩ := h.back hrow'
    obtain rfl := Database.row?_id hrow
    rw [hes]
    exact hchange.trace hrow hguard (hs.rows _ row hrow)
  · intro id hid
    rw [h.ids] at hid
    rw [h.stray id hid, hs.stray id hid]

theorem Sound.claimed {db1 db' : Database} (hs : Sound db1)
    (hw : db1.Writes db' row.requestId row row' es) (hclaimed : Claimed row row' es)
    (hc : Consistent db') : Sound db' := by
  have hchanges : db1.Changes db' fun r r' es => (r' = r ∧ es = []) ∨ Claimed r r' es :=
    hw.changes (fun r => .inl ⟨rfl, rfl⟩) (.inr hclaimed)
  refine ⟨hc, ?_, ?_⟩
  · intro id r' hr'
    obtain ⟨r, es, hr, hes, ⟨rfl, rfl⟩ | hmove⟩ := hchanges.back hr'
    · rw [hes, List.append_nil]
      exact hs.rows id r' hr
    · rw [hes]
      exact hmove.trace (hs.rows id r hr)
  · intro id hid
    rw [hchanges.ids] at hid
    rw [hchanges.stray id hid, hs.stray id hid]

theorem Sound.inserted (hs : Sound db) (hfresh : row.requestId ∉ db.ids)
    (hsequence : row.executionSequence = 0) (hsnapshot : row.executionSnapshot = none)
    (hc : Consistent ⟨db.queue ++ [row], db.events⟩) : Sound ⟨db.queue ++ [row], db.events⟩ := by
  refine ⟨hc, ?_, ?_⟩
  · intro id r hr
    rw [Database.row?_insert hfresh] at hr
    by_cases hid : id = row.requestId
    · rw [if_pos hid] at hr
      cases hr
      rw [hid]
      exact .untouched (hs.stray _ hfresh) hsequence hsnapshot
    · rw [if_neg hid] at hr
      exact hs.rows id r hr
  · intro id hid
    apply hs.stray
    intro hin
    apply hid
    rw [Database.ids, List.map_append]
    exact List.mem_append_left _ hin

/-- **The step.** A call keeps every trace while the writer and the reader agree. -/
theorem step_sound {call : TuiCall} (hs : Sound db) (hguard : RecordsKnownParents db call)
    : Sound (call.step db) := by
  have hc := step_consistent call hs.consistent
  have hmoves := step_moves hs.consistent.ids call
  generalize call.step db = db' at hc hmoves ⊢
  cases hmoves with
  | changed takes changes => exact hs.changes hguard changes hc
  | inserted takes input position now fresh => exact hs.inserted fresh rfl rfl hc
  | @claimed db1 _ projectPath now row row' es takes recovered path free writes claimed =>
    have hchanges := Database.recoverExpired_changes hs.consistent.ids
      (.recoverInterrupted projectPath none) recovered
    have hquiet : RecordsKnownParents db (.recoverInterrupted projectPath none) := rfl
    have hs1 := hs.changes hquiet hchanges (hs.consistent.recovered recovered)
    exact hs1.claimed writes claimed hc

theorem sound_of_reachable (h : ReachableWith RecordsKnownParents db) : Sound db := by
  refine h.invariant Sound ?_ fun s i hs hg => step_sound hs hg
  refine ⟨reachable_consistent .init, ?_, fun _ _ => rfl⟩
  intro id row hrow
  cases hrow

def claimedGraph : ExecutionGraph := ⟨"r", [⟨"r", none, .root, "", .running⟩], ["r"]⟩

def sampleTime : String := "1970-01-01T00:00:00.000Z"

def claimedRow : TuiRequestRow where
  requestId := "r"
  canonicalPath := "/p"
  position := 1
  fingerprint := "f"
  objective := ""
  imagesJson := none
  bindingVersion := none
  conversationGeneration := none
  sessionId := none
  provider := none
  model := none
  accountId := none
  thinkingLevel := none
  promotionKind := none
  promotionId := none
  promotionJson := none
  status := .running
  createdAt := sampleTime
  updatedAt := sampleTime
  ownerId := some "owner"
  leaseEpoch := 1
  leaseExpiresAt := some "1970-01-01T00:00:01.000Z"
  effectId := none
  outcome := none
  executionSequence := 1
  executionSnapshot := some claimedGraph.toValue.stringify

theorem claimedSample_eq : claimedSample = ⟨[claimedRow],
    [⟨"r", 1, (ExecutionEvent.started "r" none .root "").toValue.stringify, sampleTime⟩]⟩ := by
  decide +kernel

/-- **Snapshots are sound.** In every run that records no node under an empty id that is not
there: the events of a started request are numbered 1 to n, its snapshot is accepted, and the
graph in it is what the recorded events fold to, so that no call throws on reading it. -/
theorem snapshots_are_sound {db : Database} (h : ReachableWith RecordsKnownParents db)
    {id : String} {row : TuiRequestRow} (hrow : db.row? id = some row)
    (hstarted : 0 < row.executionSequence) :
    (db.eventsOf id).map (·.sequence) = List.range' 1 row.executionSequence
      ∧ ∃ snapshot g events, row.executionSnapshot = some snapshot
        ∧ parseExecutionGraphJson snapshot = .ok g
        ∧ ((db.eventsOf id).map (·.eventJson)).mapM readEvent = .ok events
        ∧ events.foldlM applyExecutionEvent (createExecutionGraph id) = .ok g
        ∧ db.graph id row.executionSequence row.executionSnapshot = .ok g := by
  obtain rfl := Database.row?_id hrow
  cases (sound_of_reachable h).rows _ row hrow with
  | untouched log sequence snapshot => omega
  | @traced events g ht =>
    have htexts : (db.eventsOf row.requestId).map (·.eventJson)
        = events.map (·.toValue.stringify) := by
      rw [← numbered_texts 0, ← ht.stored, List.map_map]
      rfl
    refine ⟨ht.sequences, _, g, events, ht.snapshot, (parse_toValue g).mpr ht.accepted, ?_,
      ht.folded, ht.graphOf⟩
    rw [htexts]
    exact Except.mapM_map fun event _ => readEvent_stringify event

theorem snapshots_are_sound_claimed :
    ∃ row, claimedSample.row? "r" = some row ∧ 0 < row.executionSequence
      ∧ ∃ g, claimedSample.graph "r" row.executionSequence row.executionSnapshot = .ok g := by
  have hone : (claimedSample.row? "r").map (·.executionSequence) = some 1 := by
    rw [claimedSample_eq]
    rfl
  obtain ⟨row, hrow, hsequence⟩ := Option.map_eq_some_iff.mp hone
  have hpos : 0 < row.executionSequence := by omega
  obtain ⟨-, snapshot, g, events, -, -, -, -, hgraph⟩ :=
    snapshots_are_sound (.step claimSample (.step enqueueSample .init rfl) rfl) hrow hpos
  exact ⟨row, hrow, hpos, g, hgraph⟩

/-- A tool node under the empty id, which no node has. -/
def orphanSample : TuiCall :=
  .recordExecutionEvent "r" ⟨"owner", 1⟩ (some 0)
    (.obj [("type", .str "node.started"), ("nodeId", .str "a"), ("parentNodeId", .str ""),
      ("kind", .str "tool"), ("label", .str "")])

def poisonedSample : Database := orphanSample.step claimedSample

theorem recordExecutionEvent_eq {now : String} {lease : TuiRequestLease} {time : Option Int}
    {value : Value} {event : ExecutionEvent} {graph : ExecutionGraph}
    (hnow : isoTimestamp time = .ok now) (hrow : runningTuiRequestRow db row.requestId = .ok row)
    (hlease : assertActiveTuiRequestLease row lease now = .ok ())
    (hevent : parseExecutionEvent value = .ok event)
    (hroot : isRootLifecycle row.requestId event = false) (hgraph : db.graphOf row = .ok graph) :
    recordExecutionEvent db row.requestId lease time value
      = (db.append row.requestId lease.ownerId lease.leaseEpoch row.executionSequence graph event
          now).map (·.2) := by
  unfold recordExecutionEvent
  rw [Database.graphOf] at hgraph
  simp only [hnow, hrow, hlease, hevent, hroot, hgraph, Except.ok_bind, Bool.false_eq_true,
    if_false]
  cases db.append row.requestId lease.ownerId lease.leaseEpoch row.executionSequence graph event
    now <;> rfl

theorem claimedGraph_parses :
    parseExecutionGraphJson claimedGraph.toValue.stringify = .ok claimedGraph :=
  (parse_toValue _).mpr ⟨rfl, by decide⟩

theorem claimedSample_graph : claimedSample.graphOf claimedRow = .ok claimedGraph := by
  rw [claimedSample_eq]
  show Database.graph _ "r" 1 (some claimedGraph.toValue.stringify) = _
  simp only [Database.graph, claimedGraph_parses]
  rfl

def orphanGraph : ExecutionGraph :=
  ⟨"r", [⟨"r", none, .root, "", .running⟩, ⟨"a", some "", .tool, "", .running⟩], ["r", "a"]⟩

theorem orphanSample_exec :
    ∃ db, orphanSample.exec claimedSample = (db, .ok .done)
      ∧ (db.row? "r").map (fun row => (row.executionSequence, row.executionSnapshot))
        = some (2, some orphanGraph.toValue.stringify) := by
  let event : ExecutionEvent := .started "a" (some "") .tool ""
  have happend : (claimedSample.append "r" "owner" 1 1 claimedGraph event sampleTime).toOption.map
      (fun p => (p.2.row? "r").map fun row => (row.executionSequence, row.executionSnapshot))
      = some (some (2, some orphanGraph.toValue.stringify)) := by
    rw [claimedSample_eq]
    rfl
  have hrecord : orphanSample.exec claimedSample = commitDone claimedSample
      ((claimedSample.append "r" "owner" 1 1 claimedGraph event sampleTime).map (·.2)) := by
    have hrow : runningTuiRequestRow claimedSample claimedRow.requestId = .ok claimedRow := by
      rw [claimedSample_eq]
      rfl
    have happended : recordExecutionEvent claimedSample claimedRow.requestId ⟨"owner", 1⟩ (some 0)
        (.obj [("type", .str "node.started"), ("nodeId", .str "a"), ("parentNodeId", .str ""),
          ("kind", .str "tool"), ("label", .str "")])
        = (claimedSample.append "r" "owner" 1 1 claimedGraph event sampleTime).map (·.2) := by
      refine recordExecutionEvent_eq ?_ hrow ?_ ?_ ?_ claimedSample_graph
      · rfl
      · rfl
      · rfl
      · decide
    rw [orphanSample, TuiCall.exec]
    exact congrArg (commitDone claimedSample) happended
  cases hresult : claimedSample.append "r" "owner" 1 1 claimedGraph event sampleTime with
  | error message => simp [hresult, Except.toOption] at happend
  | ok p =>
    rw [hresult] at happend hrecord
    exact ⟨p.2, hrecord, by simpa [Except.toOption] using happend⟩

/-- The recording succeeds, and from then on the snapshot is refused. -/
theorem snapshot_with_empty_parent_is_refused :
    Reachable poisonedSample ∧ (orphanSample.exec claimedSample).2.isOk = true
      ∧ (poisonedSample.row? "r").map (fun row => (row.executionSequence,
          row.executionSnapshot.map fun snapshot => (parseExecutionGraphJson snapshot).isOk))
        = some (2, some false) := by
  have hrefused : (parseExecutionGraphJson orphanGraph.toValue.stringify).isOk = false := by
    rw [parseExecutionGraphJson, parse_stringify _ orphanGraph.isJson_toValue]
    rfl
  obtain ⟨db, hexec, hrow⟩ := orphanSample_exec
  have hpoisoned : poisonedSample = db := by rw [poisonedSample, TuiCall.step, hexec]
  obtain ⟨row, hrow, hfields⟩ := Option.map_eq_some_iff.mp hrow
  obtain ⟨hsequence, hsnapshot⟩ := Prod.mk.inj hfields
  refine ⟨.step _ (.step _ (.step _ .init trivial) trivial) trivial, ?_, ?_⟩
  · rw [hexec]
    rfl
  · rw [hpoisoned, hrow, Option.map_some, hsequence, hsnapshot, Option.map_some, hrefused]

/-! ## Ended requests -/

/-- A recall of a row that already has a graph: it was claimed once and put back. -/
def recallsStarted (db : Database) : TuiCall → Bool
  | .recallNewest projectPath _ =>
    (db.newestQueued projectPath).any (·.executionSnapshot.isSome)
  | _ => false

/-- The guard of the runs that recall only requests nobody has claimed yet. -/
def RecallsUnstarted (db : Database) (call : TuiCall) : Prop := recallsStarted db call = false

structure ClosedGraph (g : ExecutionGraph) : Prop where
  inactive : g.activeNodeIds = []
  finished : ∀ node ∈ g.nodes, node.isRunning = false

theorem Accepted.closed (h : Accepted g) (hinactive : g.activeNodeIds = []) : ClosedGraph g := by
  refine ⟨hinactive, ?_⟩
  intro node hnode
  rw [h.active, runningIds, List.map_eq_nil_iff, List.filter_eq_nil_iff] at hinactive
  simpa using hinactive node hnode

def EndedClosed (row : TuiRequestRow) : Prop :=
  row.status = .completed ∨ row.status = .failed → ∀ snapshot,
    row.executionSnapshot = some snapshot →
      ∃ g, parseExecutionGraphJson snapshot = .ok g ∧ ClosedGraph g

theorem EndedClosed.of_open (h : row.status = .queued ∨ row.status = .running)
    : EndedClosed row := by
  intro hended
  rcases h with h | h <;> rw [h] at hended <;> rcases hended with hended | hended <;> cases hended

theorem accepted_of_graphOf (h : db.graphOf row = .ok g) : Accepted g := by
  unfold Database.graphOf Database.graph at h
  cases hsnapshot : row.executionSnapshot with
  | none => simp [hsnapshot] at h
  | some snapshot =>
    simp only [hsnapshot] at h
    obtain ⟨-, h⟩ := Except.ite_error_eq_ok.mp h
    obtain ⟨-, h⟩ := Except.ite_error_eq_ok.mp h
    obtain ⟨g1, hparse, h⟩ := Except.bind_eq_ok.mp h
    have haccepted := accepted_of_parse hparse
    cases hnodes : g1.nodes with
    | nil => simp [hnodes] at h
    | cons root rest =>
      simp only [hnodes] at h
      obtain ⟨-, h⟩ := Except.ite_error_eq_ok.mp h
      cases h
      exact haccepted

theorem Closing.closed {events : List ExecutionEvent} (h : Closing db row events g') :
    parseExecutionGraphJson g'.toValue.stringify = .ok g' ∧ ClosedGraph g' := by
  obtain ⟨g, hgraph, happlied⟩ := h.applied
  have haccepted := completions_accepted h.completions (accepted_of_graphOf hgraph) happlied
  exact ⟨(parse_toValue g').mpr haccepted, haccepted.closed h.inactive⟩

theorem Change.endedClosed {call : TuiCall} (h : Change db call row row' es)
    (hguard : RecallsUnstarted db call) (hrow : EndedClosed row) : EndedClosed row' := by
  cases h with
  | stay => exact hrow
  | renew expiry now running => exact .of_open (.inr running)
  | effect effectId now running => exact .of_open (.inr running)
  | record now issued parsed running child graph applied safe => exact .of_open (.inr running)
  | requeue now running unaffected => exact .of_open (.inl rfl)
  | close state outcome now closing =>
    intro _ snapshot hsnapshot
    cases hsnapshot
    exact ⟨_, closing.closed⟩
  | «recall» now issued queued newest =>
    -- the recalled row keeps its snapshot, and the guard says it has none
    intro _ snapshot hsnapshot
    rw [RecallsUnstarted, issued, recallsStarted, newest] at hguard
    have hsome : row.executionSnapshot = some snapshot := hsnapshot
    simp [hsome] at hguard

/-- **The step.** A call leaves no ended row with an open graph, unless it recalls a started
one. -/
theorem step_closed {call : TuiCall} (hc : Consistent db)
    (hclosed : ∀ id row, db.row? id = some row → EndedClosed row)
    (hguard : RecallsUnstarted db call) :
    ∀ id row, (call.step db).row? id = some row → EndedClosed row := by
  have hmoves := step_moves hc.ids call
  generalize call.step db = db' at hmoves
  intro id row' hrow'
  cases hmoves with
  | changed takes changes =>
    obtain ⟨row, es, hrow, -, hchange⟩ := changes.back hrow'
    exact hchange.endedClosed hguard (hclosed id row hrow)
  | inserted takes input position now fresh =>
    rw [Database.row?_insert fresh] at hrow'
    split at hrow'
    · cases hrow'
      exact .of_open (.inl rfl)
    · exact hclosed id row' hrow'
  | @claimed db1 _ projectPath now row1 row1' es takes recovered path free writes claimed =>
    by_cases hid : id = row1.requestId
    · rw [hid, writes.after] at hrow'
      cases hrow'
      exact .of_open (.inr claimed.taken.running)
    · rw [writes.others id hid] at hrow'
      have hchanges := Database.recoverExpired_changes hc.ids
        (.recoverInterrupted projectPath none) recovered
      obtain ⟨row, es, hrow, -, hchange⟩ := hchanges.back hrow'
      exact hchange.endedClosed rfl (hclosed id row hrow)

/-- **Ended graphs are closed.** In every run whose recalls take only requests without a
graph, a completed or failed request has no graph, or one in which no node is running. -/
theorem ended_graphs_are_closed {db : Database} (h : ReachableWith RecallsUnstarted db)
    {id : String} {row : TuiRequestRow} (hrow : db.row? id = some row)
    (hended : row.status = .completed ∨ row.status = .failed) {snapshot : String}
    (hsnapshot : row.executionSnapshot = some snapshot) :
    ∃ g, parseExecutionGraphJson snapshot = .ok g ∧ g.activeNodeIds = []
      ∧ ∀ node ∈ g.nodes, node.isRunning = false := by
  have hinv : Consistent db ∧ ∀ id row, db.row? id = some row → EndedClosed row := by
    refine h.invariant (fun db => Consistent db ∧ ∀ id row, db.row? id = some row → EndedClosed row)
      ?_ ?_
    · refine ⟨reachable_consistent .init, ?_⟩
      intro id row hrow
      cases hrow
    · rintro s i ⟨hc, hclosed⟩ hguard
      exact ⟨step_consistent i hc, step_closed hc hclosed hguard⟩
  obtain ⟨g, hparse, hclosed⟩ := hinv.2 id row hrow hended snapshot hsnapshot
  exact ⟨g, hparse, hclosed.inactive, hclosed.finished⟩

def completeSample : TuiCall := .complete "r" .completed ⟨"owner", 1⟩ (some 0)

theorem ended_graphs_are_closed_completed :
    ∃ row snapshot g, (completeSample.step claimedSample).row? "r" = some row
      ∧ row.status = .completed ∧ row.executionSnapshot = some snapshot
      ∧ parseExecutionGraphJson snapshot = .ok g ∧ g.activeNodeIds = [] := by
  have hstatus : ((completeSample.step claimedSample).row? "r").map
      (fun row => (row.status, row.executionSnapshot.isSome)) = some (.completed, true) := by
    decide +kernel
  obtain ⟨row, hrow, hfields⟩ := Option.map_eq_some_iff.mp hstatus
  obtain ⟨hcompleted, hsome⟩ := Prod.mk.inj hfields
  obtain ⟨snapshot, hsnapshot⟩ := Option.isSome_iff_exists.mp hsome
  obtain ⟨g, hparse, hinactive, -⟩ := ended_graphs_are_closed
    (.step completeSample (.step claimSample (.step enqueueSample .init rfl) rfl) rfl)
    hrow (.inl hcompleted) hsnapshot
  exact ⟨row, snapshot, g, hrow, hcompleted, hsnapshot, hparse, hinactive⟩

/-- The sample request after its lease ran out without an effect, and then recalled. -/
def recalledSample : Database :=
  (TuiCall.recallNewest "/p" (some 3000)).step
    ((TuiCall.recoverInterrupted "/p" (some 2000)).step claimedSample)

/-- A recalled request that was claimed before is failed while its root still runs. -/
theorem recalled_graph_is_open :
    Reachable recalledSample
      ∧ (recalledSample.row? "r").map (·.status) = some .failed
      ∧ ((recalledSample.row? "r").bind (·.executionSnapshot)).map
          (fun snapshot => (parseExecutionGraphJson snapshot).map
            fun g => (g.activeNodeIds, g.nodes.map (·.isRunning)))
        = some (.ok (["r"], [true])) := by
  have hrow : (recalledSample.row? "r").map (fun row => (row.status, row.executionSnapshot))
      = some (.failed, some claimedGraph.toValue.stringify) := by
    rw [recalledSample, claimedSample_eq]
    rfl
  obtain ⟨row, hrow, hfields⟩ := Option.map_eq_some_iff.mp hrow
  obtain ⟨hstatus, hsnapshot⟩ := Prod.mk.inj hfields
  refine ⟨.step _ (.step _ (.step _ (.step _ .init trivial) trivial) trivial) trivial, ?_, ?_⟩
  · rw [hrow, Option.map_some, hstatus]
  · rw [hrow, Option.bind_some, hsnapshot, Option.map_some, claimedGraph_parses]
    rfl

end ThreeXhaust.Tui
