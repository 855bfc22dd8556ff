import ThreeXhaust.Tui.Store
import ThreeXhaust.Tui.AcceptedGraph

/-!
# What a call of `TuiOperationStore` does to a row

The inversion of every transaction, stated once. A transaction that commits writes rows
through their primary key (`Database.Writes`). A whole call moves every row by one of the
changes listed in `Change`, inserts a row, or recovers a project and then claims a row of it,
which may be one that recovery has just put back.

* **`append_ok`**, **`completeRoot_ok`** — what recording one event, and closing a graph, does.
* **`recoverExpired_ok`** — every interrupted row fails or is queued again, nothing else moves.
-/

namespace ThreeXhaust.Tui

open Json

/-! ## Lookups by request id -/

def Database.ids (db : Database) : List String := db.queue.map (·.requestId)

variable {row : TuiRequestRow}

theorem Database.row?_id {db : Database} {id : String} (h : db.row? id = some row)
    : row.requestId = id := by
  simpa using List.find?_some h

theorem Database.mem_of_row? {db : Database} {id : String} (h : db.row? id = some row)
    : row ∈ db.queue :=
  List.mem_of_find?_eq_some h

theorem Database.row?_of_mem {db : Database} (hn : db.ids.Nodup) (h : row ∈ db.queue)
    : db.row? row.requestId = some row :=
  Table.find?_key hn h

theorem Database.row?_isSome_iff {db : Database} {id : String} :
    (db.row? id).isSome ↔ id ∈ db.ids := by
  simp [Database.row?, Database.ids, List.find?_isSome]

/-- One row written through its id, with the events appended on the way. -/
structure Database.Writes (db db' : Database) (id : String) (row row' : TuiRequestRow)
    (appended : List ExecutionEventRow) : Prop where
  ids : db'.ids = db.ids
  before : db.row? id = some row
  after : db'.row? id = some row'
  others : ∀ k, k ≠ id → db'.row? k = db.row? k
  events : db'.events = db.events ++ appended
  owned : ∀ e ∈ appended, e.requestId = id

variable {db1 db2 : Database}

/-- Two writes of one row are one. -/
theorem Database.Writes.trans {db : Database} {id : String} {row1 row1' row2 : TuiRequestRow}
    {e1 e2 : List ExecutionEventRow} (h1 : db.Writes db1 id row row1 e1)
    (h2 : db1.Writes db2 id row1' row2 e2) :
    row1' = row1 ∧ db.Writes db2 id row row2 (e1 ++ e2) := by
  have hrow : row1' = row1 := Option.some.inj (h2.before.symm.trans h1.after)
  refine ⟨hrow, ⟨h2.ids.trans h1.ids, h1.before, h2.after, ?_, ?_, ?_⟩⟩
  · intro k hk
    rw [h2.others k hk, h1.others k hk]
  · rw [h2.events, h1.events, List.append_assoc]
  · intro e he
    rcases List.mem_append.mp he with he | he
    · exact h1.owned e he
    · exact h2.owned e he

variable {row' : TuiRequestRow} {es : List ExecutionEventRow}

theorem Database.Writes.eventsOf_self {db db' : Database} {id : String}
    (h : db.Writes db' id row row' es) : db'.eventsOf id = db.eventsOf id ++ es := by
  have hes : es.filter (·.requestId = id) = es :=
    List.filter_eq_self.mpr fun e he => by simpa using h.owned e he
  rw [Database.eventsOf, h.events, List.filter_append, hes, Database.eventsOf]

theorem Database.Writes.eventsOf_other {db db' : Database} {id k : String}
    (h : db.Writes db' id row row' es) (hk : k ≠ id) : db'.eventsOf k = db.eventsOf k := by
  have hes : es.filter (·.requestId = k) = [] :=
    List.filter_eq_nil_iff.mpr fun e he => by
      have := h.owned e he
      simp [this, Ne.symm hk]
  rw [Database.eventsOf, h.events, List.filter_append, hes, List.append_nil, Database.eventsOf]

/-- An update that changes one row. -/
theorem Database.updateOne_ok {db db' : Database} {p : TuiRequestRow → Bool}
    {f : TuiRequestRow → TuiRequestRow} {message : String} (h : db.updateOne p f message = .ok db')
    (hn : db.ids.Nodup) {id : String} (hp : ∀ r, p r = true → r.requestId = id)
    (hf : ∀ r, (f r).requestId = r.requestId) :
    ∃ row, p row = true ∧ db.Writes db' id row (f row) [] := by
  obtain ⟨hcount, hdb⟩ := Except.ite_error_eq_ok.mp h
  have hdb' : db' = { db with queue := Table.update p f db.queue } := by
    simpa using hdb.symm
  obtain ⟨row, hrow, hbefore, hafter, hothers⟩ := Table.update_one hn hp hf (not_not.mp hcount)
  refine ⟨row, hrow, ⟨?_, hbefore, ?_, ?_, ?_, by simp⟩⟩
  · rw [hdb']
    exact Table.map_key_update hf db.queue
  · rw [hdb']
    exact hafter
  · rw [hdb']
    exact hothers
  · simp [hdb']

/-! ## Recording events -/

def TuiRequestRow.recorded (row : TuiRequestRow) (sequence : Nat) (graph : ExecutionGraph)
    (now : String) : TuiRequestRow :=
  { row with
    executionSequence := sequence
    executionSnapshot := some graph.toValue.stringify
    updatedAt := now }

@[simp] theorem TuiRequestRow.recorded_recorded (row : TuiRequestRow) (m n : Nat)
    (g g' : ExecutionGraph) (s t : String) :
    (row.recorded m g s).recorded n g' t = row.recorded n g' t := rfl

/-- Events as they are stored after the first `sequence` of them. -/
def eventRows (id now : String) : Nat → List ExecutionEvent → List ExecutionEventRow
  | _, [] => []
  | sequence, event :: rest =>
    ⟨id, sequence + 1, event.toValue.stringify, now⟩ :: eventRows id now (sequence + 1) rest

theorem eventRows_append (id now : String) (n : Nat) (xs ys : List ExecutionEvent) :
    eventRows id now n (xs ++ ys) = eventRows id now n xs ++ eventRows id now (n + xs.length) ys := by
  induction xs generalizing n with
  | nil => simp [eventRows]
  | cons x rest ih =>
    have harith : n + (x :: rest).length = n + 1 + rest.length := by
      rw [List.length_cons]
      omega
    rw [List.cons_append, eventRows, eventRows, ih, harith, List.cons_append]

variable {owner : String} {epoch : Nat}

theorem TuiRequestRow.heldBy_iff {id : String} :
    row.heldBy id owner epoch = true ↔ row.requestId = id ∧ row.status = .running
      ∧ row.ownerId = some owner ∧ row.leaseEpoch = epoch := by
  simp [TuiRequestRow.heldBy, and_assoc]

theorem Database.insertEvent_ok {db db' : Database} {event : ExecutionEventRow}
    (h : db.insertEvent event = .ok db') : db' = { db with events := db.events ++ [event] } := by
  obtain ⟨-, h⟩ := Except.ite_error_eq_ok.mp h
  obtain ⟨-, h⟩ := Except.ite_error_eq_ok.mp h
  simpa using h.symm

/-- The recording of `events` by the holder of a lease, from the graph `g`. -/
structure Database.Records (db db' : Database) (id owner : String) (epoch : Nat) (now : String)
    (row : TuiRequestRow) (g : ExecutionGraph) (events : List ExecutionEvent)
    (g' : ExecutionGraph) : Prop where
  writes : db.Writes db' id row (row.recorded (row.executionSequence + events.length) g' now)
    (eventRows id now row.executionSequence events)
  held : row.heldBy id owner epoch = true
  applied : events.foldlM applyExecutionEvent g = .ok g'
  safe : isSafeInteger (row.executionSequence + events.length)

variable {now : String} {sequence : Nat} {g g' : ExecutionGraph}

/-- **One event.** A recorded event extends the graph it was checked against. -/
theorem Database.append_ok {db db' : Database} (hn : db.ids.Nodup) {id : String}
    {event : ExecutionEvent} (h : db.append id owner epoch sequence g event now = .ok (g', db')) :
    ∃ row, row.executionSequence = sequence ∧ db.Records db' id owner epoch now row g [event] g' := by
  unfold Database.append at h
  obtain ⟨hsafe, h⟩ := Except.ite_error_eq_ok.mp h
  obtain ⟨graph, happly, h⟩ := Except.bind_eq_ok.mp h
  obtain ⟨db1, hinsert, h⟩ := Except.bind_eq_ok.mp h
  obtain ⟨db2, hupdate, h⟩ := Except.bind_eq_ok.mp h
  obtain ⟨rfl, rfl⟩ : graph = g' ∧ db2 = db' := by simpa using h
  have hdb1 := Database.insertEvent_ok hinsert
  have hn1 : db1.ids.Nodup := by rw [hdb1]; exact hn
  obtain ⟨row, hrow, hw⟩ := Database.updateOne_ok hupdate hn1
    (fun r hr => (TuiRequestRow.heldBy_iff.mp (Bool.and_eq_true_iff.mp hr).1).1)
    (fun r => rfl)
  obtain ⟨hheld, hsequence⟩ := Bool.and_eq_true_iff.mp hrow
  have hsequence : row.executionSequence = sequence := by simpa using hsequence
  refine ⟨row, hsequence, ⟨?_, hheld, ?_, ?_⟩⟩
  · refine ⟨?_, ?_, ?_, ?_, ?_, ?_⟩
    · rw [hw.ids, hdb1]; rfl
    · rw [← hw.before, hdb1]; rfl
    · rw [hw.after, hsequence]; rfl
    · intro k hk
      rw [hw.others k hk, hdb1]; rfl
    · rw [hw.events, hdb1, hsequence]; simp [eventRows]
    · simp [eventRows]
  · rw [List.foldlM_cons, happly]; rfl
  · rw [hsequence]
    simpa using hsafe

theorem Database.Records.trans {db : Database} {id : String} {row1 : TuiRequestRow}
    {g1 g2 : ExecutionGraph} {es1 es2 : List ExecutionEvent}
    (h1 : db.Records db1 id owner epoch now row g es1 g1)
    (h2 : db1.Records db2 id owner epoch now row1 g1 es2 g2) :
    db.Records db2 id owner epoch now row g (es1 ++ es2) g2 := by
  obtain ⟨hrow, hw⟩ := h1.writes.trans h2.writes
  have hseq : row1.executionSequence = row.executionSequence + es1.length := by rw [hrow]; rfl
  have hlength : row.executionSequence + (es1 ++ es2).length
      = row1.executionSequence + es2.length := by
    rw [hseq, List.length_append]
    omega
  refine ⟨?_, h1.held, ?_, ?_⟩
  · rw [hlength, eventRows_append, ← hseq]
    rw [hrow, TuiRequestRow.recorded_recorded] at hw
    rw [hrow]
    exact hw
  · rw [List.foldlM_append, h1.applied]
    exact h2.applied
  · rw [hlength]
    exact h2.safe

/-! ## Closing a graph -/

def ExecutionEvent.isCompletion : ExecutionEvent → Bool
  | .completed .. => true
  | .started .. => false

/-- Every open node is completed, in order. -/
theorem Database.closeNodes_ok {id status : String} {db' : Database} (success : Bool)
    (nodeIds : List String) {db : Database} (hn : db.ids.Nodup)
    (h : (nodeIds.foldlM (Database.closeNode id owner epoch status now) (g, sequence, db) >>=
      fun s => s.2.2.append id owner epoch s.2.1 s.1
        (.completed id success Duration.zero status) now) = .ok (g', db')) :
    ∃ row events, row.executionSequence = sequence
      ∧ db.Records db' id owner epoch now row g events g'
      ∧ (∀ e ∈ events, e.isCompletion = true)
      ∧ g'.activeNodeIds = g.activeNodeIds.filter (· ∉ id :: nodeIds) := by
  induction nodeIds generalizing db g sequence with
  | nil =>
    obtain ⟨row, hseq, hrec⟩ := Database.append_ok hn h
    obtain ⟨i, -, hg'⟩ := apply_completed (by simpa using hrec.applied)
    refine ⟨row, _, hseq, hrec, by simp [ExecutionEvent.isCompletion], ?_⟩
    rw [hg']
    simp
  | cons nodeId rest ih =>
    rw [List.foldlM_cons, bind_assoc] at h
    obtain ⟨⟨g1, seq1, db1⟩, hclose, h⟩ := Except.bind_eq_ok.mp h
    rw [Database.closeNode] at hclose
    by_cases hroot : nodeId = id
    · -- the root is skipped here and closed at the end
      rw [if_pos hroot] at hclose
      cases hclose
      obtain ⟨row, events, hseq, hrec, hes, hactive⟩ := ih hn h
      refine ⟨row, events, hseq, hrec, hes, ?_⟩
      rw [hactive, hroot]
      simp
    · rw [if_neg hroot] at hclose
      obtain ⟨⟨g2, db2⟩, happend, hpair⟩ := Except.bind_eq_ok.mp hclose
      cases hpair
      obtain ⟨row, hseq, hrec⟩ := Database.append_ok hn happend
      have hn1 : db1.ids.Nodup := by rw [hrec.writes.ids]; exact hn
      obtain ⟨row1, events, hseq1, hrec1, hes, hactive⟩ := ih hn1 h
      obtain ⟨i, -, hg1⟩ := apply_completed (by simpa [unfinishedEvent] using hrec.applied)
      refine ⟨row, _, hseq, hrec.trans hrec1, ?_, ?_⟩
      · intro e he
        rcases List.mem_cons.mp he with rfl | he
        · rfl
        · exact hes e he
      · rw [hactive, hg1, List.filter_filter]
        apply List.filter_congr
        intro k _
        simp only [List.mem_cons, not_or, ne_eq, decide_eq_decide, ← Bool.decide_and]
        tauto

/-- **Closing a graph** reads it back, completes every open node and leaves none active. -/
theorem Database.completeRoot_ok {db db' : Database} (hn : db.ids.Nodup) {id status : String}
    {snapshot : Option String}
    (h : db.completeRoot id owner epoch sequence snapshot status now = .ok db') :
    ∃ row g events g', row.executionSequence = sequence ∧ db.graph id sequence snapshot = .ok g
      ∧ db.Records db' id owner epoch now row g events g'
      ∧ (∀ e ∈ events, e.isCompletion = true) ∧ g'.activeNodeIds = [] := by
  unfold Database.completeRoot at h
  obtain ⟨g, hgraph, h⟩ := Except.bind_eq_ok.mp h
  obtain ⟨⟨g1, seq1, db1⟩, hloop, h⟩ := Except.bind_eq_ok.mp h
  obtain ⟨⟨g', db2⟩, hroot, h⟩ := Except.bind_eq_ok.mp h
  cases h
  obtain ⟨row, events, hseq, hrec, hes, hactive⟩ :=
    Database.closeNodes_ok (status = "completed") g.activeNodeIds.reverse hn
      (Except.bind_eq_ok.mpr ⟨_, hloop, hroot⟩)
  refine ⟨row, g, events, g', hseq, hgraph, hrec, hes, ?_⟩
  rw [hactive, List.filter_eq_nil_iff]
  intro k hk
  simp [hk]

/-! ## Changes of a row -/

def TuiRequestRow.claimed (row : TuiRequestRow) (ownerId : String) (leaseExpiresAt now : String) :
    TuiRequestRow :=
  { row with
    status := .running, ownerId := some ownerId, leaseEpoch := row.leaseEpoch + 1,
    leaseExpiresAt := some leaseExpiresAt, outcome := none, updatedAt := now }

def TuiRequestRow.ended (row : TuiRequestRow) (sequence : Nat) (graph : ExecutionGraph)
    (state : FinishedState) (outcome now : String) : TuiRequestRow :=
  { row.recorded sequence graph now with status := state.status, outcome := some outcome }

def TuiRequestRow.recalled (row : TuiRequestRow) (now : String) : TuiRequestRow :=
  { row with status := .failed, outcome := some "recalled", updatedAt := now }

def Database.graphOf (db : Database) (row : TuiRequestRow) : Except String ExecutionGraph :=
  db.graph row.requestId row.executionSequence row.executionSnapshot

/-- The events that close the graph of a row. -/
structure Closing (db : Database) (row : TuiRequestRow) (events : List ExecutionEvent)
    (g' : ExecutionGraph) : Prop where
  running : row.status = .running
  applied : ∃ g, db.graphOf row = .ok g ∧ events.foldlM applyExecutionEvent g = .ok g'
  completions : ∀ e ∈ events, e.isCompletion = true
  inactive : g'.activeNodeIds = []
  safe : isSafeInteger (row.executionSequence + events.length)

/-- What a call can do to a row short of claiming it, with the events it appends for it. -/
inductive Change (db : Database) (call : TuiCall) (row : TuiRequestRow) :
    TuiRequestRow → List ExecutionEventRow → Prop where
  | stay : Change db call row row []
  | renew (leaseExpiresAt : Option String) (now : String) (running : row.status = .running) :
      Change db call row { row with leaseExpiresAt := leaseExpiresAt, updatedAt := now } []
  | effect (effectId now : String) (running : row.status = .running) :
      Change db call row { row with effectId := some effectId, updatedAt := now } []
  | record {lease : TuiRequestLease} {time : Option Int} {value : Value} {event : ExecutionEvent}
      {g g' : ExecutionGraph} (now : String)
      (issued : call = .recordExecutionEvent row.requestId lease time value)
      (parsed : parseExecutionEvent value = .ok event) (running : row.status = .running)
      (child : isRootLifecycle row.requestId event = false) (graph : db.graphOf row = .ok g)
      (applied : applyExecutionEvent g event = .ok g')
      (safe : isSafeInteger (row.executionSequence + 1)) :
      Change db call row (row.recorded (row.executionSequence + 1) g' now)
        (eventRows row.requestId now row.executionSequence [event])
  | close {events : List ExecutionEvent} {g' : ExecutionGraph} (state : FinishedState)
      (outcome now : String) (closing : Closing db row events g') :
      Change db call row (row.ended (row.executionSequence + events.length) g' state outcome now)
        (eventRows row.requestId now row.executionSequence events)
  | requeue (now : String) (running : row.status = .running) (unaffected : row.effectId = none) :
      Change db call row (row.requeued now) []
  | recall {projectPath : String} {time : Option Int} (now : String)
      (issued : call = .recallNewest projectPath time) (queued : row.status = .queued)
      (newest : db.newestQueued projectPath = some row) : Change db call row (row.recalled now) []

/-- Every row of `db` moves by `R`, and nothing is written for a request that has no row. -/
structure Database.Changes (db db' : Database)
    (R : TuiRequestRow → TuiRequestRow → List ExecutionEventRow → Prop) : Prop where
  ids : db'.ids = db.ids
  rows : ∀ id row, db.row? id = some row → ∃ row' es, db'.row? id = some row'
    ∧ db'.eventsOf id = db.eventsOf id ++ es ∧ R row row' es
  stray : ∀ id, id ∉ db.ids → db'.eventsOf id = db.eventsOf id

variable {R : TuiRequestRow → TuiRequestRow → List ExecutionEventRow → Prop}

theorem Database.Changes.refl (hR : ∀ r, R r r []) (db : Database) : db.Changes db R :=
  ⟨rfl, fun _ row hrow => ⟨row, [], hrow, by simp, hR row⟩, fun _ _ => rfl⟩

theorem Database.Changes.mono {db db' : Database}
    {S : TuiRequestRow → TuiRequestRow → List ExecutionEventRow → Prop} (h : db.Changes db' R)
    (hRS : ∀ r r' es, R r r' es → S r r' es) : db.Changes db' S := by
  refine ⟨h.ids, ?_, h.stray⟩
  intro id row hrow
  obtain ⟨row', es, hrow', hes, hR⟩ := h.rows id row hrow
  exact ⟨row', es, hrow', hes, hRS row row' es hR⟩

theorem Database.Changes.back {db db' : Database} (h : db.Changes db' R) {id : String}
    (hrow' : db'.row? id = some row') :
    ∃ row es, db.row? id = some row ∧ db'.eventsOf id = db.eventsOf id ++ es ∧ R row row' es := by
  have hid : (db.row? id).isSome := by
    rw [Database.row?_isSome_iff, ← h.ids, ← Database.row?_isSome_iff, hrow']
    rfl
  obtain ⟨row, hrow⟩ := Option.isSome_iff_exists.mp hid
  obtain ⟨row'', es, hrow'', hes, hR⟩ := h.rows id row hrow
  obtain rfl : row'' = row' := Option.some.inj (hrow''.symm.trans hrow')
  exact ⟨row, es, hrow, hes, hR⟩

theorem Database.Writes.changes {db db' : Database} {id : String} (h : db.Writes db' id row row' es)
    (hstay : ∀ r, R r r []) (hR : R row row' es) : db.Changes db' R := by
  refine ⟨h.ids, ?_, ?_⟩
  · intro k r hr
    by_cases hk : k = id
    · subst hk
      obtain rfl : row = r := Option.some.inj (h.before.symm.trans hr)
      exact ⟨row', es, h.after, h.eventsOf_self, hR⟩
    · exact ⟨r, [], (h.others k hk).trans hr, by simp [h.eventsOf_other hk], hstay r⟩
  · intro k hk
    apply h.eventsOf_other
    rintro rfl
    apply hk
    rw [← Database.row?_isSome_iff, h.before]
    rfl

/-! ## Recovery -/

theorem Database.graphOf_congr {db db' : Database}
    (h : db'.eventsOf row.requestId = db.eventsOf row.requestId) :
    db'.graphOf row = db.graphOf row := by
  unfold Database.graphOf Database.graph
  rw [h]

theorem Closing.congr {db db' : Database} {events : List ExecutionEvent}
    (h : Closing db' row events g') (he : db'.eventsOf row.requestId = db.eventsOf row.requestId)
    : Closing db row events g' := by
  refine ⟨h.running, ?_, h.completions, h.inactive, h.safe⟩
  rw [← Database.graphOf_congr he]
  exact h.applied

theorem Database.completeRoot_closing {db db' : Database} (hn : db.ids.Nodup) {status : String}
    (hrow : db.row? row.requestId = some row)
    (h : db.completeRoot row.requestId owner row.leaseEpoch row.executionSequence
      row.executionSnapshot status now = .ok db') :
    ∃ events g', Closing db row events g' ∧ row.heldBy row.requestId owner row.leaseEpoch = true
      ∧ db.Writes db' row.requestId row
        (row.recorded (row.executionSequence + events.length) g' now)
        (eventRows row.requestId now row.executionSequence events) := by
  obtain ⟨row1, g, events, g', -, hgraph, hrec, hes, hactive⟩ := Database.completeRoot_ok hn h
  obtain rfl : row1 = row := Option.some.inj (hrec.writes.before.symm.trans hrow)
  obtain ⟨-, hrunning, -, -⟩ := TuiRequestRow.heldBy_iff.mp hrec.held
  exact ⟨events, g', ⟨hrunning, ⟨g, hgraph, hrec.applied⟩, hes, hactive, hrec.safe⟩, hrec.held,
    hrec.writes⟩

theorem Database.failIndeterminate_ok {db db' : Database} (hn : db.ids.Nodup)
    (hrow : db.row? row.requestId = some row) (h : Database.failIndeterminate now db row = .ok db') :
    ∃ events g', Closing db row events g' ∧ db.Writes db' row.requestId row
      (row.ended (row.executionSequence + events.length) g' .failed "indeterminate" now)
      (eventRows row.requestId now row.executionSequence events) := by
  unfold Database.failIndeterminate at h
  cases howner : row.ownerId with
  | none => simp [howner] at h
  | some owner =>
    simp only [howner] at h
    obtain ⟨db1, hclose, h⟩ := Except.bind_eq_ok.mp h
    obtain ⟨events, g', hclosing, -, hw⟩ := Database.completeRoot_closing hn hrow hclose
    have hn1 : db1.ids.Nodup := by rw [hw.ids]; exact hn
    obtain ⟨row1, -, hw1⟩ := Database.updateOne_ok h hn1
      (fun r hr => (TuiRequestRow.heldBy_iff.mp hr).1) (fun r => rfl)
    obtain ⟨rfl, hw2⟩ := hw.trans hw1
    rw [List.append_nil] at hw2
    exact ⟨events, g', hclosing, hw2⟩

/-- Interrupted rows fail one after the other. -/
theorem Database.failAll_ok {db' : Database} (rows : List TuiRequestRow) {db : Database}
    (hn : db.ids.Nodup) (hrows : ∀ x ∈ rows, db.row? x.requestId = some x)
    (hids : (rows.map (·.requestId)).Nodup)
    (h : rows.foldlM (Database.failIndeterminate now) db = .ok db') :
    db'.ids = db.ids
      ∧ (∀ k, k ∉ rows.map (·.requestId) →
        db'.row? k = db.row? k ∧ db'.eventsOf k = db.eventsOf k)
      ∧ ∀ x ∈ rows, ∃ events g', Closing db x events g'
        ∧ db'.row? x.requestId
          = some (x.ended (x.executionSequence + events.length) g' .failed "indeterminate" now)
        ∧ db'.eventsOf x.requestId
          = db.eventsOf x.requestId ++ eventRows x.requestId now x.executionSequence events := by
  induction rows generalizing db with
  | nil =>
    cases h
    simp
  | cons first rest ih =>
    rw [List.foldlM_cons] at h
    obtain ⟨db1, hfail, h⟩ := Except.bind_eq_ok.mp h
    obtain ⟨events, g', hclosing, hw⟩ :=
      Database.failIndeterminate_ok hn (hrows first (by simp)) hfail
    rw [List.map_cons, List.nodup_cons] at hids
    have hother (x : TuiRequestRow) (hx : x ∈ rest) : x.requestId ≠ first.requestId :=
      fun he => hids.1 (he ▸ List.mem_map_of_mem hx)
    have hn1 : db1.ids.Nodup := by rw [hw.ids]; exact hn
    have hrows1 : ∀ x ∈ rest, db1.row? x.requestId = some x := by
      intro x hx
      rw [hw.others _ (hother x hx)]
      exact hrows x (by simp [hx])
    obtain ⟨hids', hkeep, hended⟩ := ih hn1 hrows1 hids.2 h
    refine ⟨hids'.trans hw.ids, ?_, ?_⟩
    · intro k hk
      rw [List.map_cons, List.mem_cons, not_or] at hk
      obtain ⟨hrow, hevents⟩ := hkeep k hk.2
      rw [hrow, hevents, hw.others k hk.1, hw.eventsOf_other hk.1]
      exact ⟨rfl, rfl⟩
    · intro x hx
      rcases List.mem_cons.mp hx with rfl | hx
      · obtain ⟨hrow, hevents⟩ := hkeep x.requestId hids.1
        exact ⟨events, g', hclosing, by rw [hrow, hw.after], by rw [hevents, hw.eventsOf_self]⟩
      · obtain ⟨events, g', hclosing, hrow, hevents⟩ := hended x hx
        have hsame := hw.eventsOf_other (hother x hx)
        exact ⟨events, g', hclosing.congr hsame, hrow, by rw [hevents, hsame]⟩

/-- What recovery does to a row. -/
inductive Recovered (db : Database) (now : String) (row : TuiRequestRow) :
    TuiRequestRow → List ExecutionEventRow → Prop where
  | failed {events : List ExecutionEvent} {g' : ExecutionGraph} (closing : Closing db row events g') :
      Recovered db now row
        (row.ended (row.executionSequence + events.length) g' .failed "indeterminate" now)
        (eventRows row.requestId now row.executionSequence events)
  | requeued (running : row.status = .running) (unaffected : row.effectId = none) :
      Recovered db now row (row.requeued now) []

variable {projectPath : String}

/-- **Recovery** ends the lease of every interrupted row of the project and moves no other. -/
theorem Database.recoverExpired_ok {db db' : Database} (hn : db.ids.Nodup)
    (h : db.recoverExpired projectPath now = .ok db') :
    db.Changes db' fun row row' es =>
      if row.interrupted projectPath now then Recovered db now row row' es
      else row' = row ∧ es = [] := by
  unfold Database.recoverExpired at h
  obtain ⟨db1, hfold, h⟩ := Except.bind_eq_ok.mp h
  have hdb' : db' = ⟨Table.update (fun r => r.interrupted projectPath now && r.effectId.isNone)
      (TuiRequestRow.requeued now) db1.queue, db1.events⟩ := by
    simpa using h.symm
  generalize hrows : (db.queue.filter fun r => r.interrupted projectPath now && r.effectId.isSome)
    = rows at hfold
  have hmem (x : TuiRequestRow) : x ∈ rows ↔
      x ∈ db.queue ∧ x.interrupted projectPath now = true ∧ x.effectId.isSome = true := by
    rw [← hrows, List.mem_filter, Bool.and_eq_true]
  have hids : (rows.map (·.requestId)).Nodup := by
    rw [← hrows]
    exact hn.sublist (List.filter_sublist.map _)
  obtain ⟨hids1, hkeep, hended⟩ := Database.failAll_ok rows hn
    (fun x hx => Database.row?_of_mem hn ((hmem x).mp hx).1) hids hfold
  have hkey (r : TuiRequestRow) : (r.requeued now).requestId = r.requestId := rfl
  have hlookup (k : String) : db'.row? k = (db1.row? k).map fun r =>
      if r.interrupted projectPath now && r.effectId.isNone then r.requeued now else r := by
    rw [hdb']
    exact Table.find?_update hkey db1.queue k
  have hevents (k : String) : db'.eventsOf k = db1.eventsOf k := by rw [hdb']; rfl
  refine ⟨?_, ?_, ?_⟩
  · rw [← hids1, hdb']
    exact Table.map_key_update hkey db1.queue
  · intro id row hrow
    obtain rfl := Database.row?_id hrow
    have hrowMem := Database.mem_of_row? hrow
    by_cases hfailed : row ∈ rows
    · -- recorded an effect: failed by the loop, and out of reach of the update
      obtain ⟨events, g', hclosing, hrow1, hevents1⟩ := hended row hfailed
      refine ⟨row.ended (row.executionSequence + events.length) g' .failed "indeterminate" now, _,
        ?_, (hevents _).trans hevents1, ?_⟩
      · rw [hlookup, hrow1]
        simp [TuiRequestRow.interrupted, TuiRequestRow.ended, FinishedState.status]
      · rw [if_pos ((hmem row).mp hfailed).2.1]
        exact .failed hclosing
    · have hnot : row.requestId ∉ rows.map (·.requestId) := by
        intro hin
        obtain ⟨x, hx, hxid⟩ := List.mem_map.mp hin
        have hxrow := Database.row?_of_mem hn ((hmem x).mp hx).1
        rw [hxid, hrow] at hxrow
        exact hfailed (Option.some.inj hxrow ▸ hx)
      obtain ⟨hrow1, hevents1⟩ := hkeep _ hnot
      cases hint : row.interrupted projectPath now with
      | true =>
        have hnone : row.effectId = none := by
          cases heffect : row.effectId with
          | none => rfl
          | some e => exact absurd ((hmem row).mpr ⟨hrowMem, hint, by simp [heffect]⟩) hfailed
        have hrunning : row.status = .running := by
          simp only [TuiRequestRow.interrupted, Bool.and_eq_true, decide_eq_true_eq] at hint
          exact hint.1.2
        refine ⟨row.requeued now, [], ?_, by rw [hevents, hevents1, List.append_nil], ?_⟩
        · rw [hlookup, hrow1, hrow]
          simp [hint, hnone]
        · rw [if_pos rfl]
          exact .requeued hrunning hnone
      | false =>
        refine ⟨row, [], ?_, by rw [hevents, hevents1, List.append_nil], by simp⟩
        rw [hlookup, hrow1, hrow]
        simp [hint]
  · intro id hid
    rw [hevents]
    refine (hkeep id ?_).2
    intro hin
    obtain ⟨x, hx, hxid⟩ := List.mem_map.mp hin
    exact hid (hxid ▸ List.mem_map_of_mem ((hmem x).mp hx).1)

theorem Recovered.change {db : Database} {call : TuiCall} (h : Recovered db now row row' es) :
    Change db call row row' es := by
  cases h with
  | failed closing => exact .close .failed "indeterminate" now closing
  | requeued running unaffected => exact .requeue now running unaffected

theorem Database.recoverExpired_changes {db db' : Database} (hn : db.ids.Nodup) (call : TuiCall)
    (h : db.recoverExpired projectPath now = .ok db') : db.Changes db' (Change db call) := by
  refine (Database.recoverExpired_ok hn h).mono ?_
  intro row row' es hmove
  by_cases hint : row.interrupted projectPath now = true
  · rw [if_pos hint] at hmove
    exact hmove.change
  · rw [if_neg hint] at hmove
    obtain ⟨rfl, rfl⟩ := hmove
    exact .stay

/-! ## Calls that carry a lease -/

theorem TuiRequestRow.leaseAfter_eq (row : TuiRequestRow) (now : String) :
    row.leaseAfter now = !row.leaseExpired now := by
  unfold TuiRequestRow.leaseAfter TuiRequestRow.leaseExpired
  cases row.leaseExpiresAt with
  | none => rfl
  | some expiry =>
    show decide (now < expiry) = !decide (expiry ≤ now)
    rw [← decide_not, decide_eq_decide]
    exact not_le.symm

/-- A call that carries a lease has found its row, held by it and in time. -/
theorem activeRow_ok {db : Database} {id : String} {lease : TuiRequestLease}
    (hrow : runningTuiRequestRow db id = .ok row)
    (hlease : assertActiveTuiRequestLease row lease now = .ok ()) :
    db.row? id = some row ∧ row.heldBy id lease.ownerId lease.leaseEpoch = true
      ∧ row.leaseAfter now = true := by
  unfold runningTuiRequestRow at hrow
  cases hlookup : db.row? id with
  | none => simp [hlookup] at hrow
  | some found =>
    simp only [hlookup] at hrow
    obtain ⟨hrunning, hrow⟩ := Except.ite_eq_ok_error.mp hrow
    cases hrow
    obtain ⟨⟨⟩, hassert, hexpired⟩ := Except.bind_eq_ok.mp hlease
    obtain ⟨howner, hassert⟩ := Except.ite_error_eq_ok.mp hassert
    obtain ⟨hepoch, -⟩ := Except.ite_error_eq_ok.mp hassert
    obtain ⟨hexpired, -⟩ := Except.ite_error_eq_ok.mp hexpired
    refine ⟨rfl, ?_, ?_⟩
    · rw [TuiRequestRow.heldBy_iff]
      exact ⟨Database.row?_id hlookup, hrunning, not_not.mp howner, not_not.mp hepoch⟩
    · rw [TuiRequestRow.leaseAfter_eq]
      simpa using hexpired

/-- The row is written by the one that holds its lease, in time. -/
def Fenced (db db' : Database) (call : TuiCall) (id : String) (lease : TuiRequestLease)
    (time : Option Int) : Prop :=
  ∃ now row row' es, isoTimestamp time = .ok now
    ∧ row.heldBy id lease.ownerId lease.leaseEpoch = true ∧ row.leaseAfter now = true
    ∧ db.Writes db' id row row' es ∧ Change db call row row' es

section Leased

variable {db db' : Database} {id : String} {lease : TuiRequestLease} {time : Option Int}

theorem renewLease_ok (hn : db.ids.Nodup) {leaseMs : Int} (call : TuiCall)
    (h : renewLease db id lease time leaseMs = .ok db') : Fenced db db' call id lease time := by
  unfold renewLease at h
  obtain ⟨now, hnow, h⟩ := Except.bind_eq_ok.mp h
  obtain ⟨-, h⟩ := Except.ite_error_eq_ok.mp h
  obtain ⟨ms, -, h⟩ := Except.bind_eq_ok.mp h
  obtain ⟨expiry, -, h⟩ := Except.bind_eq_ok.mp h
  obtain ⟨row, hrow, h⟩ := Except.bind_eq_ok.mp h
  obtain ⟨⟨⟩, hlease, h⟩ := Except.bind_eq_ok.mp h
  obtain ⟨row, hp, hw⟩ := Database.updateOne_ok h hn
    (fun r hr => (TuiRequestRow.heldBy_iff.mp (Bool.and_eq_true_iff.mp hr).1).1) (fun r => rfl)
  obtain ⟨hheld, hafter⟩ := Bool.and_eq_true_iff.mp hp
  exact ⟨now, row, _, _, hnow, hheld, hafter, hw,
    .renew _ now (TuiRequestRow.heldBy_iff.mp hheld).2.1⟩

theorem recordEffect_ok (hn : db.ids.Nodup) {effectId : String} (call : TuiCall)
    (h : recordEffect db id lease effectId time = .ok db') :
    db' = db ∨ Fenced db db' call id lease time := by
  unfold recordEffect at h
  obtain ⟨-, h⟩ := Except.ite_error_eq_ok.mp h
  obtain ⟨now, hnow, h⟩ := Except.bind_eq_ok.mp h
  obtain ⟨row, hrow, h⟩ := Except.bind_eq_ok.mp h
  obtain ⟨⟨⟩, hlease, h⟩ := Except.bind_eq_ok.mp h
  cases heffect : row.effectId with
  | some existing =>
    simp only [heffect] at h
    obtain ⟨-, h⟩ := Except.ite_error_eq_ok.mp h
    cases h
    exact .inl rfl
  | none =>
    simp only [heffect] at h
    obtain ⟨row, hp, hw⟩ := Database.updateOne_ok h hn
      (fun r hr => (TuiRequestRow.heldBy_iff.mp
        (Bool.and_eq_true_iff.mp (Bool.and_eq_true_iff.mp hr).1).1).1) (fun r => rfl)
    obtain ⟨hp, -⟩ := Bool.and_eq_true_iff.mp hp
    obtain ⟨hheld, hafter⟩ := Bool.and_eq_true_iff.mp hp
    exact .inr ⟨now, row, _, _, hnow, hheld, hafter, hw,
      .effect effectId now (TuiRequestRow.heldBy_iff.mp hheld).2.1⟩

theorem recordExecutionEvent_ok (hn : db.ids.Nodup) {value : Value}
    (h : recordExecutionEvent db id lease time value = .ok db') :
    Fenced db db' (.recordExecutionEvent id lease time value) id lease time := by
  unfold recordExecutionEvent at h
  obtain ⟨now, hnow, h⟩ := Except.bind_eq_ok.mp h
  obtain ⟨row, hrow, h⟩ := Except.bind_eq_ok.mp h
  obtain ⟨⟨⟩, hlease, h⟩ := Except.bind_eq_ok.mp h
  obtain ⟨event, hevent, h⟩ := Except.bind_eq_ok.mp h
  obtain ⟨hchild, h⟩ := Except.ite_error_eq_ok.mp h
  obtain ⟨g, hgraph, h⟩ := Except.bind_eq_ok.mp h
  obtain ⟨⟨g', db1⟩, happend, h⟩ := Except.bind_eq_ok.mp h
  cases h
  obtain ⟨hlookup, hheld, hafter⟩ := activeRow_ok hrow hlease
  obtain ⟨row1, -, hrec⟩ := Database.append_ok hn happend
  obtain rfl : row1 = row := Option.some.inj (hrec.writes.before.symm.trans hlookup)
  obtain rfl := Database.row?_id hlookup
  refine ⟨now, row1, _, _, hnow, hheld, hafter, hrec.writes, ?_⟩
  exact .record now rfl hevent (TuiRequestRow.heldBy_iff.mp hheld).2.1 (by simpa using hchild)
    hgraph (by simpa using hrec.applied) hrec.safe

theorem complete_ok (hn : db.ids.Nodup) {status : TuiRequestCompletionStatus} (call : TuiCall)
    (h : complete db id status lease time = .ok db') : Fenced db db' call id lease time := by
  unfold complete at h
  obtain ⟨⟨⟩, -, h⟩ := Except.bind_eq_ok.mp h
  obtain ⟨now, hnow, h⟩ := Except.bind_eq_ok.mp h
  obtain ⟨row, hrow, h⟩ := Except.bind_eq_ok.mp h
  obtain ⟨⟨⟩, hlease, h⟩ := Except.bind_eq_ok.mp h
  obtain ⟨hlookup, hheld, hafter⟩ := activeRow_ok hrow hlease
  obtain rfl := Database.row?_id hlookup
  obtain ⟨-, -, howner, -⟩ := TuiRequestRow.heldBy_iff.mp hheld
  simp only [howner] at h
  obtain ⟨db1, hclose, h⟩ := Except.bind_eq_ok.mp h
  obtain ⟨events, g', hclosing, -, hw⟩ := Database.completeRoot_closing hn hlookup hclose
  have hn1 : db1.ids.Nodup := by rw [hw.ids]; exact hn
  obtain ⟨row1, -, hw1⟩ := Database.updateOne_ok h hn1
    (fun r hr => (TuiRequestRow.heldBy_iff.mp (Bool.and_eq_true_iff.mp hr).1).1) (fun r => rfl)
  obtain ⟨rfl, hw2⟩ := hw.trans hw1
  rw [List.append_nil] at hw2
  exact ⟨now, row, _, _, hnow, hheld, hafter, hw2,
    .close status.persisted status.text now hclosing⟩

end Leased

/-! ## Claims, recalls and new rows -/

/-- What a claim does to a row. -/
inductive Claimed (row : TuiRequestRow) : TuiRequestRow → List ExecutionEventRow → Prop where
  | reopened (ownerId leaseExpiresAt now : String) (queued : row.status = .queued)
      (started : row.executionSequence ≠ 0) :
      Claimed row (row.claimed ownerId leaseExpiresAt now) []
  | opened {g' : ExecutionGraph} (ownerId leaseExpiresAt now : String)
      (queued : row.status = .queued) (sequence : row.executionSequence = 0)
      (applied : applyExecutionEvent (createExecutionGraph row.requestId)
        (.started row.requestId none .root row.objective) = .ok g') :
      Claimed row ((row.claimed ownerId leaseExpiresAt now).recorded 1 g' now)
        (eventRows row.requestId now 0 [.started row.requestId none .root row.objective])

theorem Database.nextQueued_ok {db : Database} {requestId : Option String}
    (h : db.nextQueued projectPath requestId = some row) :
    row ∈ db.queue ∧ row.canonicalPath = projectPath ∧ row.status = .queued := by
  have hmem := List.argmin_mem h
  rw [List.mem_filter, Bool.and_eq_true, Bool.and_eq_true] at hmem
  exact ⟨hmem.1, by simpa using hmem.2.1.1, by simpa using hmem.2.1.2⟩

theorem Database.newestQueued_ok {db : Database} (h : db.newestQueued projectPath = some row)
    : row ∈ db.queue ∧ row.status = .queued := by
  have hmem := List.argmax_mem h
  rw [List.mem_filter, Bool.and_eq_true] at hmem
  exact ⟨hmem.1, by simpa using hmem.2.2⟩

/-- A claimed row begins its graph. -/
theorem Database.openGraph_ok {db' : Database} (hn : db2.ids.Nodup) {expiry : String}
    (hqueued : row.status = .queued)
    (hw : db1.Writes db2 row.requestId row (row.claimed owner expiry now) [])
    (h : db2.openGraph row owner (row.leaseEpoch + 1) now = .ok db') :
    ∃ row' es, db1.Writes db' row.requestId row row' es ∧ Claimed row row' es := by
  unfold Database.openGraph at h
  by_cases hseq : row.executionSequence = 0
  · rw [if_pos hseq] at h
    cases hsnapshot : row.executionSnapshot with
    | some snapshot => simp [hsnapshot] at h
    | none =>
      simp only [hsnapshot, Database.initializeRoot] at h
      cases happend : db2.append row.requestId owner (row.leaseEpoch + 1) 0
          (createExecutionGraph row.requestId) (.started row.requestId none .root row.objective)
          now with
      | error message => simp [happend, Except.map] at h
      | ok result =>
        obtain ⟨g', db3⟩ := result
        obtain rfl : db3 = db' := by simpa [happend, Except.map] using h
        obtain ⟨row1, hseq1, hrec⟩ := Database.append_ok hn happend
        obtain ⟨rfl, hw'⟩ := hw.trans hrec.writes
        rw [hseq1] at hw'
        exact ⟨_, _, hw', .opened owner expiry now hqueued hseq (by simpa using hrec.applied)⟩
  · rw [if_neg hseq] at h
    cases hgraph : db2.graph row.requestId row.executionSequence row.executionSnapshot with
    | error message => simp [hgraph, Except.map] at h
    | ok g =>
      obtain rfl : db2 = db' := by simpa [hgraph, Except.map] using h
      exact ⟨_, _, hw, .reopened owner expiry now hqueued hseq⟩

variable {time : Option Int}

/-- **A claim** recovers the project and, when no lease of it is live, takes one queued row. -/
theorem claimTransaction_ok {db db' : Database} (hn : db.ids.Nodup)
    {options : Option ClaimTuiRequestOptions} {result : Option (TuiRequestRow × Nat)}
    (h : claimTransaction db projectPath options time = .ok (result, db')) :
    ∃ now db1, db.recoverExpired projectPath now = .ok db1
      ∧ ((result = none ∧ db' = db1)
        ∨ ∃ row row' es, result = some (row, row.leaseEpoch + 1)
          ∧ row.canonicalPath = projectPath ∧ (∀ r ∈ db1.queue, r.canonicalPath = projectPath →
            r.status = .running → r.leaseAfter now = false)
          ∧ db1.Writes db' row.requestId row row' es ∧ Claimed row row' es) := by
  unfold claimTransaction at h
  obtain ⟨-, h⟩ := Except.ite_error_eq_ok.mp h
  obtain ⟨now, -, h⟩ := Except.bind_eq_ok.mp h
  obtain ⟨leaseMs, -, h⟩ := Except.bind_eq_ok.mp h
  obtain ⟨expiry, -, h⟩ := Except.bind_eq_ok.mp h
  obtain ⟨db1, hrecover, h⟩ := Except.bind_eq_ok.mp h
  refine ⟨now, db1, hrecover, ?_⟩
  have hn1 : db1.ids.Nodup := by rw [(Database.recoverExpired_ok hn hrecover).ids]; exact hn
  split at h
  · cases h
    exact .inl ⟨rfl, rfl⟩
  · next hlive =>
    cases hnext : db1.nextQueued projectPath (options.bind (·.requestId)) with
    | none =>
      simp only [hnext] at h
      cases h
      exact .inl ⟨rfl, rfl⟩
    | some row =>
      simp only [hnext] at h
      obtain ⟨hmem, hpath, hqueued⟩ := Database.nextQueued_ok hnext
      obtain ⟨db2, hupdate, h⟩ := Except.bind_eq_ok.mp h
      obtain ⟨db3, hopen, h⟩ := Except.bind_eq_ok.mp h
      cases h
      obtain ⟨row1, -, hw⟩ := Database.updateOne_ok hupdate hn1
        (fun r hr => by simpa using (Bool.and_eq_true_iff.mp hr).1) (fun r => rfl)
      obtain rfl : row1 = row :=
        Option.some.inj (hw.before.symm.trans (Database.row?_of_mem hn1 hmem))
      have hn2 : db2.ids.Nodup := by rw [hw.ids]; exact hn1
      obtain ⟨row', es, hw', hclaimed⟩ := Database.openGraph_ok hn2 hqueued hw hopen
      refine .inr ⟨row1, row', es, rfl, hpath, ?_, hw', hclaimed⟩
      intro r hr hrpath hrunning
      simp only [Bool.not_eq_true, List.any_eq_false, Bool.and_eq_true, decide_eq_true_eq] at hlive
      cases hafter : r.leaseAfter now with
      | false => rfl
      | true => exact absurd ⟨⟨hrpath, hrunning⟩, hafter⟩ (hlive r hr)

theorem recallTransaction_ok {db db' : Database} (hn : db.ids.Nodup) {result : Option TuiRequestRow}
    (h : recallTransaction db projectPath time = .ok (result, db')) :
    db' = db ∨ ∃ row now, db.Writes db' row.requestId row (row.recalled now) []
      ∧ Change db (.recallNewest projectPath time) row (row.recalled now) [] := by
  unfold recallTransaction at h
  obtain ⟨now, -, h⟩ := Except.bind_eq_ok.mp h
  cases hnewest : db.newestQueued projectPath with
  | none =>
    simp only [hnewest] at h
    cases h
    exact .inl rfl
  | some row =>
    simp only [hnewest] at h
    obtain ⟨db1, hupdate, h⟩ := Except.bind_eq_ok.mp h
    cases h
    obtain ⟨hmem, hqueued⟩ := Database.newestQueued_ok hnewest
    obtain ⟨row1, -, hw⟩ := Database.updateOne_ok hupdate hn
      (fun r hr => by simpa using (Bool.and_eq_true_iff.mp hr).1) (fun r => rfl)
    obtain rfl : row1 = row :=
      Option.some.inj (hw.before.symm.trans (Database.row?_of_mem hn hmem))
    exact .inr ⟨row1, now, hw, .recall now rfl hqueued hnewest⟩

theorem enqueueTransaction_ok {db db' : Database} {input : EnqueueTuiRequestInput}
    {result : Option TuiRequestRow} (h : enqueueTransaction db input time = .ok (result, db')) :
    db' = db ∨ ∃ position now, db' = ⟨db.queue ++ [newRow input position now], db.events⟩
      ∧ input.requestId ∉ db.ids := by
  unfold enqueueTransaction at h
  obtain ⟨images, -, h⟩ := Except.bind_eq_ok.mp h
  obtain ⟨now, -, h⟩ := Except.bind_eq_ok.mp h
  cases hexisting : db.existing input with
  | some row =>
    simp only [hexisting] at h
    cases h
    exact .inl rfl
  | none =>
    simp only [hexisting] at h
    obtain ⟨db1, hinsert, h⟩ := Except.bind_eq_ok.mp h
    cases h
    obtain ⟨hkey, hinsert⟩ := Except.ite_error_eq_ok.mp hinsert
    obtain ⟨-, hinsert⟩ := Except.ite_error_eq_ok.mp hinsert
    obtain ⟨-, hinsert⟩ := Except.ite_error_eq_ok.mp hinsert
    cases hinsert
    refine .inr ⟨_, now, rfl, ?_⟩
    intro hin
    obtain ⟨r, hr, hid⟩ := List.mem_map.mp hin
    exact hkey (List.any_eq_true.mpr ⟨r, hr, decide_eq_true hid⟩)

theorem Database.row?_insert {db : Database} (hfresh : row.requestId ∉ db.ids) (k : String)
    : (Database.mk (db.queue ++ [row]) db.events).row? k
      = if k = row.requestId then some row else db.row? k :=
  Table.find?_insert hfresh k

/-! ## A call -/

def TuiCall.takes (db : Database) : TuiCall → Option String
  | .claim projectPath options now =>
    match claimTransaction db projectPath options now with
    | .ok (some (row, _), _) => some row.requestId
    | _ => none
  | _ => none

/-- What a call may do to the database. -/
inductive Moved (db : Database) (call : TuiCall) : Database → Prop where
  | changed {db' : Database} (takes : call.takes db = none)
      (changes : db.Changes db' (Change db call)) : Moved db call db'
  | inserted (takes : call.takes db = none) (input : EnqueueTuiRequestInput) (position : Nat)
      (now : String) (fresh : input.requestId ∉ db.ids) :
      Moved db call ⟨db.queue ++ [newRow input position now], db.events⟩
  | claimed {db1 db' : Database} {projectPath now : String} {row row' : TuiRequestRow}
      {es : List ExecutionEventRow} (takes : call.takes db = some row.requestId)
      (recovered : db.recoverExpired projectPath now = .ok db1) (path : row.canonicalPath = projectPath)
      (free : ∀ r ∈ db1.queue, r.canonicalPath = projectPath → r.status = .running →
        r.leaseAfter now = false)
      (writes : db1.Writes db' row.requestId row row' es) (claimed : Claimed row row' es) :
      Moved db call db'

theorem Fenced.changes {db db' : Database} {call : TuiCall} {id : String} {lease : TuiRequestLease}
    (h : Fenced db db' call id lease time) : db.Changes db' (Change db call) := by
  obtain ⟨now, row, row', es, -, -, -, hw, hchange⟩ := h
  exact hw.changes (fun _ => .stay) hchange

theorem Moved.stay {db : Database} {call : TuiCall} (takes : call.takes db = none) :
    Moved db call db :=
  .changed takes (.refl (fun _ => .stay) db)

def TuiCall.fence : TuiCall → Option (String × TuiRequestLease × Option Int)
  | .renewLease id lease now _ => some (id, lease, now)
  | .recordExecutionEvent id lease now _ => some (id, lease, now)
  | .recordEffect id lease _ now => some (id, lease, now)
  | .complete id _ lease now => some (id, lease, now)
  | _ => none

/-- **The fence.** A call with a lease changes nothing, or it is the holder's. -/
theorem step_fenced {db : Database} (hn : db.ids.Nodup) {call : TuiCall} {id : String}
    {lease : TuiRequestLease} (hf : call.fence = some (id, lease, time)) :
    call.step db = db ∨ Fenced db (call.step db) call id lease time := by
  cases call with
  | renewLease id lease time leaseMs =>
    cases hf
    rw [TuiCall.step, TuiCall.exec]
    cases h : renewLease db id lease time leaseMs with
    | error message => exact .inl rfl
    | ok db' => exact .inr (renewLease_ok hn _ h)
  | recordExecutionEvent id lease time value =>
    cases hf
    rw [TuiCall.step, TuiCall.exec]
    cases h : recordExecutionEvent db id lease time value with
    | error message => exact .inl rfl
    | ok db' => exact .inr (recordExecutionEvent_ok hn h)
  | recordEffect id lease effectId time =>
    cases hf
    rw [TuiCall.step, TuiCall.exec]
    cases h : recordEffect db id lease effectId time with
    | error message => exact .inl rfl
    | ok db' => exact recordEffect_ok hn _ h
  | complete id status lease time =>
    cases hf
    rw [TuiCall.step, TuiCall.exec]
    cases h : complete db id status lease time with
    | error message => exact .inl rfl
    | ok db' => exact .inr (complete_ok hn _ h)
  | enqueue input time => cases hf
  | claim projectPath options time => cases hf
  | recoverInterrupted projectPath time => cases hf
  | recallNewest projectPath time => cases hf

theorem moved_of_fence {db : Database} (hn : db.ids.Nodup) {call : TuiCall} {id : String}
    {lease : TuiRequestLease} (hf : call.fence = some (id, lease, time))
    (takes : call.takes db = none) : Moved db call (call.step db) := by
  rcases step_fenced hn hf with hstay | hfenced
  · rw [hstay]
    exact .stay takes
  · exact .changed takes hfenced.changes

/-- **What a call can do**, for every call and every outcome of it. -/
theorem step_moves {db : Database} (hn : db.ids.Nodup) (call : TuiCall) :
    Moved db call (call.step db) := by
  cases call with
  | enqueue input time =>
    rw [TuiCall.step, TuiCall.exec]
    cases h : enqueueTransaction db input time with
    | error message => exact .stay rfl
    | ok result =>
      obtain ⟨result, db'⟩ := result
      obtain rfl | ⟨position, now, rfl, hfresh⟩ := enqueueTransaction_ok h
      · exact .stay rfl
      · exact .inserted rfl input position now hfresh
  | claim projectPath options time =>
    rw [TuiCall.step, TuiCall.exec]
    cases h : claimTransaction db projectPath options time with
    | error message => exact .stay (by simp [TuiCall.takes, h])
    | ok result =>
      obtain ⟨result, db'⟩ := result
      obtain ⟨now, db1, hrecover, ⟨rfl, rfl⟩ | ⟨row, row', es, rfl, hpath, hfree, hw, hclaimed⟩⟩ :=
        claimTransaction_ok hn h
      · exact .changed (by simp [TuiCall.takes, h]) (Database.recoverExpired_changes hn _ hrecover)
      · exact .claimed (by simp [TuiCall.takes, h]) hrecover hpath hfree hw hclaimed
  | renewLease id lease time leaseMs => exact moved_of_fence hn rfl rfl
  | recordExecutionEvent id lease time value => exact moved_of_fence hn rfl rfl
  | recordEffect id lease effectId time => exact moved_of_fence hn rfl rfl
  | complete id status lease time => exact moved_of_fence hn rfl rfl
  | recoverInterrupted projectPath time =>
    rw [TuiCall.step, TuiCall.exec]
    cases h : recoverInterrupted db projectPath time with
    | error message => exact .stay rfl
    | ok db' =>
      obtain ⟨now, -, hrecover⟩ := Except.bind_eq_ok.mp h
      exact .changed rfl (Database.recoverExpired_changes hn _ hrecover)
  | recallNewest projectPath time =>
    rw [TuiCall.step, TuiCall.exec]
    cases h : recallTransaction db projectPath time with
    | error message => exact .stay rfl
    | ok result =>
      obtain ⟨result, db'⟩ := result
      obtain rfl | ⟨row, now, hw, hchange⟩ := recallTransaction_ok hn h
      · exact .stay rfl
      · exact .changed rfl (hw.changes (fun _ => .stay) hchange)

end ThreeXhaust.Tui
