import ThreeXhaust.Core.Coordinator

/-!
# Checkpoints of the coordinator

A coordinator is serialized, the process ends, and another process restores it.

* **`restore_serialize`** — what is restored is the state, its keys in order.
* **`exec_sameState`** — no call sees that order.
-/

namespace ThreeXhaust.Core

open Json Semantic

/-! ## States that can be stored -/

def SeenOnce (state : CoordinatorState) : Prop := (state.seen.map Prod.fst).Nodup

def ProviderOutboxRecord.Defined (record : ProviderOutboxRecord) : Prop :=
  record.providerRequestId ≠ .undefined ∧ record.responseDigest ≠ .undefined

/-- No outbox record holds an `undefined`. -/
def OutboxDefined (state : CoordinatorState) : Prop := ∀ record ∈ state.outbox, record.Defined

/-- The failures that put a record back, to be dispatched once more. -/
def Requeues (state : CoordinatorState) (requestId : String) (generation : Number)
    (evidence : FailureEvidence) : Prop :=
  (evidence.conclusivelyRejected || evidence.providerIdempotencyProven) = true
    ∧ assertGeneration (.num generation) = .ok state.generation
    ∧ ∃ record, state.outbox.find? (·.requestId = requestId) = some record
      ∧ record.generation = state.generation
      ∧ (record.state = .dispatching ∨ record.state = .accepted)

def KeepsRecords (state : CoordinatorState) : CoordinatorCall → Prop
  | .handleOutboxFailure requestId generation evidence =>
    ¬ Requeues state requestId generation evidence
  | _ => True

theorem assertGeneration_nat (generation : Generation) :
    assertGeneration (.nat generation.1) = .ok generation := by
  obtain ⟨n, hn⟩ := generation
  simp [assertGeneration, Value.nat, hn]

theorem setSeen_keys (seen : List (String × String)) (fingerprint turnId : String)
    (h : (seen.map Prod.fst).Nodup) :
    ((setSeen seen fingerprint turnId).map Prod.fst).Nodup := by
  unfold setSeen
  by_cases hany : seen.any (·.1 = fingerprint) = true
  · rw [if_pos hany, List.map_map]
    have hkeys : seen.map (Prod.fst ∘ fun entry =>
        if entry.1 = fingerprint then (fingerprint, turnId) else entry) = seen.map Prod.fst := by
      apply List.map_congr_left
      intro entry _
      show (if entry.1 = fingerprint then (fingerprint, turnId) else entry).1 = entry.1
      split
      · next hkey => exact hkey.symm
      · rfl
    rw [hkeys]
    exact h
  · rw [if_neg hany, List.map_append, List.nodup_append]
    refine ⟨h, by simp, ?_⟩
    rintro key hkey _ (hlast) rfl
    obtain ⟨entry, hmem, rfl⟩ := List.mem_map.mp hkey
    refine hany (List.any_eq_true.mpr ⟨entry, hmem, ?_⟩)
    simpa using hlast

/-- **What an outbox update does**: it replaces the record of that request, which is of the
current generation. -/
theorem updateOutbox_ok {state state' : CoordinatorState} {requestId : String} {generation : Value}
    {update : ProviderOutboxRecord → Except String ProviderOutboxRecord}
    (h : updateOutbox state requestId generation update = .ok state') :
    ∃ (index : Nat) (current record : ProviderOutboxRecord),
      state.outbox[index]? = some current
      ∧ state.outbox.find? (·.requestId = requestId) = some current
      ∧ assertGeneration generation = .ok state.generation
      ∧ current.generation = state.generation
      ∧ update current = .ok record
      ∧ state' = { state with outbox := state.outbox.set index record } := by
  unfold updateOutbox at h
  obtain ⟨g, hg, h⟩ := Except.bind_eq_ok.mp h
  cases hindex : state.outbox.findIdx? (·.requestId = requestId) with
  | none => simp [hindex] at h
  | some index =>
    have hfind : state.outbox[index]? = state.outbox.find? (·.requestId = requestId) := by
      rw [List.find?_eq_bind_findIdx?_getElem?, hindex]
      rfl
    cases hcurrent : state.outbox[index]? with
    | none => simp [hindex, hcurrent] at h
    | some current =>
      simp only [hindex, hcurrent] at h
      obtain ⟨hstale, h⟩ := Except.ite_error_eq_ok.mp h
      obtain ⟨record, hrecord, h⟩ := Except.bind_eq_ok.mp h
      have hgen : g = state.generation ∧ current.generation = g := by
        constructor
        · by_contra hne
          exact hstale (.inl hne)
        · by_contra hne
          exact hstale (.inr hne)
      refine ⟨index, current, record, hcurrent, hfind ▸ hcurrent, ?_, ?_, hrecord, ?_⟩
      · rw [hg, hgen.1]
      · rw [hgen.2, hgen.1]
      · exact (Except.ok.inj h).symm

/-- What an update of one record leaves of the outbox. -/
theorem updateOutbox_kept {state state' : CoordinatorState} {requestId : String}
    {generation : Value} {update : ProviderOutboxRecord → Except String ProviderOutboxRecord}
    (h : updateOutbox state requestId generation update = .ok state') {P : Prop}
    (hupdate : P → ∀ current record, state.outbox.find? (·.requestId = requestId) = some current →
      assertGeneration generation = .ok state.generation →
      current.generation = state.generation → update current = .ok record →
      current.Defined → record.Defined) :
    (SeenOnce state → SeenOnce state') ∧ (P → OutboxDefined state → OutboxDefined state') := by
  obtain ⟨index, current, record, hcurrent, hfind, hgen, hcurrentGen, hrecord, rfl⟩ :=
    updateOutbox_ok h
  refine ⟨id, ?_⟩
  intro hP hdefined r hr
  rcases List.mem_or_eq_of_mem_set hr with hr | rfl
  · exact hdefined r hr
  · exact hupdate hP current r hfind hgen hcurrentGen hrecord
      (hdefined current (List.mem_of_getElem? hcurrent))

/-- **Every call keeps the index**, and every call but a requeue keeps the records defined. -/
theorem exec_kept {sha : String → String} {state state' : CoordinatorState}
    {call : CoordinatorCall} {reply : CoordinatorReply}
    (h : call.exec sha state = .ok (state', reply)) :
    (SeenOnce state → SeenOnce state')
      ∧ (KeepsRecords state call → OutboxDefined state → OutboxDefined state') := by
  cases call with
  | enqueueTurn request =>
    obtain ⟨⟨state1, enqueued, turnId⟩, hcall, heq⟩ := Except.map_eq_ok.mp h
    cases heq
    unfold enqueueTurn at hcall
    obtain ⟨request, -, hcall⟩ := Except.bind_eq_ok.mp hcall
    obtain ⟨hash, -, hcall⟩ := Except.bind_eq_ok.mp hcall
    dsimp only at hcall
    split at hcall
    · cases hcall
      exact ⟨id, fun _ => id⟩
    · cases hcall
      exact ⟨setSeen_keys _ _ _, fun _ => id⟩
  | startNextTurn =>
    obtain ⟨⟨state1, turn⟩, hcall, heq⟩ := Except.map_eq_ok.mp h
    cases heq
    unfold startNextTurn at hcall
    split at hcall
    · cases hcall
    · split at hcall
      · cases hcall
        exact ⟨id, fun _ => id⟩
      · cases hcall
        exact ⟨id, fun _ => id⟩
  | checkpointProviderTurn turnId recipeCheckpoint payloadDigest =>
    obtain ⟨⟨state1, outbox⟩, hcall, heq⟩ := Except.map_eq_ok.mp h
    cases heq
    unfold checkpointProviderTurn at hcall
    split at hcall
    · cases hcall
    · obtain ⟨-, hcall⟩ := Except.ite_error_eq_ok.mp hcall
      obtain ⟨-, hcall⟩ := Except.ite_error_eq_ok.mp hcall
      obtain ⟨-, hcall⟩ := Except.ite_error_eq_ok.mp hcall
      obtain ⟨requestDigest, -, hcall⟩ := Except.bind_eq_ok.mp hcall
      cases hcall
      refine ⟨id, ?_⟩
      intro _ hdefined record hrecord
      rcases List.mem_append.mp hrecord with hrecord | hrecord
      · exact hdefined record hrecord
      · -- a new record has neither field
        cases List.mem_singleton.mp hrecord
        simp [ProviderOutboxRecord.Defined]
  | markOutboxDispatching requestId generation =>
    obtain ⟨state1, hcall, heq⟩ := Except.map_eq_ok.mp h
    cases heq
    apply updateOutbox_kept hcall
    intro _ current record _ _ _ hrecord hcurrent
    obtain ⟨-, hrecord⟩ := Except.ite_error_eq_ok.mp hrecord
    cases hrecord
    exact hcurrent
  | markOutboxAccepted requestId generation providerRequestId =>
    obtain ⟨state1, hcall, heq⟩ := Except.map_eq_ok.mp h
    cases heq
    obtain ⟨-, -, hcall⟩ := Except.bind_eq_ok.mp hcall
    apply updateOutbox_kept hcall
    intro _ current record _ _ _ hrecord hcurrent
    obtain ⟨-, hrecord⟩ := Except.ite_error_eq_ok.mp hrecord
    cases hrecord
    exact ⟨by simp, hcurrent.2⟩
  | markOutboxSettled requestId generation responseDigest =>
    obtain ⟨state1, hcall, heq⟩ := Except.map_eq_ok.mp h
    cases heq
    obtain ⟨-, hcall⟩ := Except.ite_error_eq_ok.mp hcall
    apply updateOutbox_kept hcall
    intro _ current record _ _ _ hrecord hcurrent
    obtain ⟨-, hrecord⟩ := Except.ite_error_eq_ok.mp hrecord
    cases hrecord
    exact ⟨hcurrent.1, by simp⟩
  | handleOutboxFailure requestId generation evidence =>
    obtain ⟨state1, hcall, heq⟩ := Except.map_eq_ok.mp h
    cases heq
    apply updateOutbox_kept hcall
    intro hkeeps current record hfind hgeneration hcurrentGeneration hrecord hcurrent
    obtain ⟨hflight, hrecord⟩ := Except.ite_error_eq_ok.mp hrecord
    split at hrecord
    -- the requeue, which `KeepsRecords` leaves out
    · next hevidence =>
      refine absurd ⟨hevidence, hgeneration, current, hfind, hcurrentGeneration, ?_⟩ hkeeps
      by_cases hdispatching : current.state = .dispatching
      · exact .inl hdispatching
      · exact .inr (by_contra fun haccepted => hflight ⟨hdispatching, haccepted⟩)
    · cases hrecord
      exact hcurrent
  | replaceCoordinatorGeneration =>
    obtain ⟨state1, hcall, heq⟩ := Except.map_eq_ok.mp h
    cases heq
    unfold replaceCoordinatorGeneration at hcall
    obtain ⟨generation, -, hcall⟩ := Except.bind_eq_ok.mp hcall
    cases hcall
    refine ⟨id, ?_⟩
    intro _ hdefined record hrecord
    obtain ⟨old, hold, rfl⟩ := List.mem_map.mp hrecord
    have hfields := hdefined old hold
    split
    · exact hfields
    · split
      · exact hfields
      · exact hfields
  | completeActiveTurn =>
    obtain ⟨state1, hcall, heq⟩ := Except.map_eq_ok.mp h
    cases heq
    unfold completeActiveTurn at hcall
    split at hcall
    · cases hcall
    · obtain ⟨-, hcall⟩ := Except.ite_error_eq_ok.mp hcall
      cases hcall
      exact ⟨id, fun _ => id⟩

theorem step_seenOnce {sha : String → String} {state : CoordinatorState} (call : CoordinatorCall)
    (h : SeenOnce state) : SeenOnce (call.step sha state) := by
  unfold CoordinatorCall.step
  split
  · next state' reply hexec => exact (exec_kept hexec).1 h
  · exact h

theorem step_outboxDefined {sha : String → String} {state : CoordinatorState}
    {call : CoordinatorCall} (h : OutboxDefined state) (hkeeps : KeepsRecords state call) :
    OutboxDefined (call.step sha state) := by
  unfold CoordinatorCall.step
  split
  · next state' reply hexec => exact (exec_kept hexec).2 hkeeps h
  · exact h

/-! ## Such states are JSON -/

attribute [local simp] CoordinatorTurn.toValue CoordinatorState.toValue checkpointField
  activeTurnField Field.fields Value.keys

theorem CoordinatorTurn.isJson_toValue (turn : CoordinatorTurn) : turn.toValue.IsJson := by
  have hrequest := turn.request.isJson_toValue
  cases hcheckpoint : turn.recipeCheckpoint with
  | none => simp [hcheckpoint, Value.isJson_obj, hrequest]
  | some checkpoint =>
    have hjson := checkpoint.2.1
    simp [hcheckpoint, Value.isJson_obj, hrequest, hjson]

theorem ProviderOutboxRecord.nodup_keys (record : ProviderOutboxRecord) :
    record.toValue.keys.Nodup := by
  unfold ProviderOutboxRecord.toValue
  cases record.providerRequestId <;> cases record.responseDigest <;>
    simp

theorem Field.isJson {field : Field String} (h : field ≠ .undefined) (key : String) :
    ∀ f ∈ field.fields key .str, f.2.IsJson := by
  cases field with
  | absent => simp
  | undefined => exact absurd rfl h
  | value s => simp

theorem ProviderOutboxRecord.isJson_toValue {record : ProviderOutboxRecord}
    (h : record.Defined) : record.toValue.IsJson := by
  refine Value.isJson_obj.mpr ⟨record.nodup_keys, ?_⟩
  simp only [List.forall_mem_cons, List.forall_mem_append]
  exact ⟨Value.isJson_str _, Value.isJson_str _, Value.isJson_nat _, Value.isJson_str _,
    Value.isJson_str _, Value.isJson_nat _, Field.isJson h.1 _, Field.isJson h.2 _⟩

theorem isJson_seenValue {seen : List (String × String)} (h : (seen.map Prod.fst).Nodup) :
    (seenValue seen).IsJson := by
  rw [seenValue, Value.isJson_obj, List.map_map]
  refine ⟨h, ?_⟩
  intro field hfield
  obtain ⟨entry, -, rfl⟩ := List.mem_map.mp hfield
  exact Value.isJson_str entry.2

theorem isJson_map {α : Type} {toValue : α → Value} {xs : List α}
    (h : ∀ x ∈ xs, (toValue x).IsJson) : (Value.arr (xs.map toValue)).IsJson := by
  rw [Value.isJson_arr]
  intro v hv
  obtain ⟨x, hx, rfl⟩ := List.mem_map.mp hv
  exact h x hx

theorem CoordinatorState.nodup_keys (state : CoordinatorState) : state.toValue.keys.Nodup := by
  cases hactive : state.activeTurn with
  | none => simp [hactive]
  | some turn => simp [hactive]

/-- **Such a state is JSON.** -/
theorem CoordinatorState.isJson_toValue {state : CoordinatorState} (hseen : SeenOnce state)
    (hdefined : OutboxDefined state) : state.toValue.IsJson := by
  have hqueue : (Value.arr (state.queue.map (·.toValue))).IsJson :=
    isJson_map fun turn _ => turn.isJson_toValue
  have hseenJson := isJson_seenValue hseen
  have houtbox : (Value.arr (state.outbox.map (·.toValue))).IsJson :=
    isJson_map fun record hrecord => ProviderOutboxRecord.isJson_toValue (hdefined record hrecord)
  have hactive : ∀ field ∈ activeTurnField state.activeTurn, field.2.IsJson := by
    intro field hfield
    cases hturn : state.activeTurn with
    | none => simp [hturn] at hfield
    | some turn =>
      obtain rfl : field = ("activeTurn", turn.toValue) := by
        simpa [hturn] using hfield
      exact turn.isJson_toValue
  refine Value.isJson_obj.mpr ⟨state.nodup_keys, ?_⟩
  simp only [List.forall_mem_cons]
  exact ⟨Value.isJson_nat 1, Value.isJson_str _, Value.isJson_str _, Value.isJson_nat _, hqueue,
    hseenJson, houtbox, hactive⟩

/-! ## What is restored

The restored state is the state that was stored, with the keys of the duplicate index and of
the recipe checkpoints in sorted order. -/

def JsonObject.sorted (object : JsonObject) : JsonObject :=
  ⟨object.1.sortKeys, Value.isJson_sortKeys _ object.2.1, by
    obtain ⟨fields, hfields⟩ := object.2.2
    exact ⟨_, by rw [hfields, Value.sortKeys_obj]⟩⟩

def CoordinatorTurn.sorted (turn : CoordinatorTurn) : CoordinatorTurn :=
  { turn with recipeCheckpoint := turn.recipeCheckpoint.map JsonObject.sorted }

/-- The state as it is after a restore. -/
def CoordinatorState.sorted (state : CoordinatorState) : CoordinatorState :=
  { state with
    queue := state.queue.map CoordinatorTurn.sorted
    activeTurn := state.activeTurn.map CoordinatorTurn.sorted
    seen := sortByKey state.seen }

/-- An object with the identity of a state and these turns, index and records. -/
def objectWith (state : CoordinatorState) (queue : List Value) (seen : List (String × String))
    (outbox : List Value) (activeTurn : List (String × Value)) : Value :=
  .obj (("schemaVersion", .nat 1) :: ("sessionId", .str state.sessionId.1)
    :: ("projectId", .str state.projectId.1) :: ("generation", .nat state.generation.1)
    :: ("queue", .arr queue) :: ("seen", seenValue seen) :: ("outbox", .arr outbox)
    :: activeTurn)

/-- The object holds exactly this state: its turns and records list their fields in any order. -/
def StateObject (v : Value) (state : CoordinatorState) : Prop :=
  ∃ queue outbox activeTurn,
    v = objectWith state queue state.seen outbox activeTurn
    ∧ List.Forall₂ (fun v turn => v.Reordered turn.toValue) queue state.queue
    ∧ List.Forall₂ (fun v record => v.Reordered record.toValue) outbox state.outbox
    ∧ List.Forall₂ (fun field turn => field.1 = "activeTurn" ∧ field.2.Reordered turn.toValue)
        activeTurn state.activeTurn.toList

theorem CoordinatorTurn.nodup_keys (turn : CoordinatorTurn) : turn.toValue.keys.Nodup := by
  cases hcheckpoint : turn.recipeCheckpoint with
  | none => simp [hcheckpoint]
  | some checkpoint => simp [hcheckpoint]

theorem map_request_sortFields (turn : CoordinatorTurn) {fields : List (String × Value)}
    (h : turn.toValue = .obj fields) :
    .obj ((Value.sortFields fields).map fun f =>
      if f.1 = "request" then ("request", turn.request.toValue) else f)
      = turn.sorted.toValue := by
  cases h
  cases hcheckpoint : turn.recipeCheckpoint with
  | none =>
    simp [CoordinatorTurn.sorted, hcheckpoint, Value.sortFields, Value.sortKeys]
  | some checkpoint =>
    simp [CoordinatorTurn.sorted, hcheckpoint, Value.sortFields, Value.sortKeys, JsonObject.sorted]

/-- A turn is restored with its keys in order. -/
theorem restoreTurn_sortKeys (turn : CoordinatorTurn) :
    ∃ v, restoreTurn turn.toValue.sortKeys = .ok v ∧ v.Reordered turn.sorted.toValue
      ∧ v.SameData turn.toValue := by
  obtain ⟨fields, hfields⟩ : ∃ fields, turn.toValue = .obj fields := ⟨_, rfl⟩
  have hget : turn.toValue.sortKeys.get "request" = turn.request.toValue.sortKeys :=
    Value.get_sortKeys turn.nodup_keys "request"
  have hsorted : turn.toValue.sortKeys = .obj (sortByKey (Value.sortFields fields)) := by
    rw [hfields, Value.sortKeys_obj]
  have hperm := sortByKey_perm (Value.sortFields fields)
  have hmem : "request" ∈ (sortByKey (Value.sortFields fields)).map Prod.fst := by
    rw [(hperm.map Prod.fst).mem_iff, Value.sortFields_eq, List.map_map]
    cases hfields
    simp
  have hrequest : ∀ f ∈ sortByKey (Value.sortFields fields), f.1 = "request" →
      f.2.sortKeys = turn.request.toValue.sortKeys := by
    intro f hf hkey
    have hf := hperm.mem_iff.mp hf
    rw [Value.sortFields_eq] at hf
    obtain ⟨g, hg, rfl⟩ := List.mem_map.mp hf
    -- the request is the only field of that name
    have hnodup : (fields.map Prod.fst).Nodup := by
      rw [← show turn.toValue.keys = fields.map Prod.fst by rw [hfields, Value.keys]]
      exact turn.nodup_keys
    have hfind := Table.find?_key hnodup hg
    have hvalue : turn.toValue.get "request" = g.2 := by
      rw [hfields, Value.get_obj, ← hkey, hfind]
      rfl
    show g.2.sortKeys.sortKeys = _
    rw [Value.sortKeys_sortKeys, ← hvalue]
    rfl
  refine ⟨.obj (setField (sortByKey (Value.sortFields fields)) "request" turn.request.toValue),
    ?_, ?_, ?_⟩
  · rw [hsorted] at hget ⊢
    simp only [restoreTurn, hget, parseSemanticTurnRequest_sortKeys]
    rfl
  · refine ⟨_, _, rfl, (map_request_sortFields turn hfields).symm, ?_⟩
    rw [setField_of_mem _ hmem]
    exact hperm.map _
  · show Value.sortKeys _ = _
    rw [Value.sortKeys_setField hmem hrequest, ← hsorted, Value.sortKeys_sortKeys]

theorem restoreTurns_sortKeys (turns : List CoordinatorTurn) :
    ∃ vs, (turns.map fun turn => turn.toValue.sortKeys).mapM restoreTurn = .ok vs
      ∧ List.Forall₂ (fun v turn => v.Reordered turn.toValue) vs
          (turns.map CoordinatorTurn.sorted)
      ∧ vs.map Value.sortKeys = turns.map fun turn => turn.toValue.sortKeys := by
  induction turns with
  | nil => exact ⟨[], rfl, .nil, rfl⟩
  | cons turn rest ih =>
    obtain ⟨v, hv, hobject, hsame⟩ := restoreTurn_sortKeys turn
    obtain ⟨vs, hvs, hobjects, hsames⟩ := ih
    refine ⟨v :: vs, ?_, .cons hobject hobjects, ?_⟩
    · rw [List.map_cons, List.mapM_cons, hv, hvs]
      rfl
    · rw [List.map_cons, List.map_cons, hsames, hsame]

theorem seenValue_sortKeys (seen : List (String × String)) :
    (seenValue seen).sortKeys = seenValue (sortByKey seen) := by
  have hplain : Value.sortFields (seen.map fun entry => (entry.1, .str entry.2))
      = seen.map fun entry => (entry.1, .str entry.2) := by
    apply Value.sortFields_of_plain
    intro f hf
    obtain ⟨entry, -, rfl⟩ := List.mem_map.mp hf
    rfl
  rw [seenValue, Value.sortKeys_obj, hplain, seenValue]
  rw [map_sortByKey (fun entry : String × String => (entry.1, Value.str entry.2)) (fun _ => rfl)]

theorem restoreSeen_seenValue (seen : List (String × String)) :
    restoreSeen (seenValue seen) = .ok (seenValue seen) := by
  have hentries : (seen.map fun entry => (entry.1, Value.str entry.2)).mapM restoreEntry
      = .ok (seen.map fun entry => (entry.1, Value.str entry.2)) := by
    induction seen with
    | nil => rfl
    | cons entry rest ih =>
      rw [List.map_cons, List.mapM_cons, ih]
      rfl
  rw [restoreSeen, seenValue, entries, hentries]
  rfl

theorem Field.plain (field : Field String) (key : String) :
    ∀ f ∈ field.fields key .str, f.2.sortKeys = f.2 := by
  cases field with
  | absent => simp
  | undefined => simp [Value.sortKeys]
  | value s => simp [Value.sortKeys]

theorem ProviderOutboxRecord.plain (record : ProviderOutboxRecord) {fields : List (String × Value)}
    (h : record.toValue = .obj fields) : ∀ f ∈ fields, f.2.sortKeys = f.2 := by
  cases h
  simp only [List.forall_mem_cons, List.forall_mem_append]
  exact ⟨rfl, rfl, rfl, rfl, rfl, rfl, Field.plain _ _, Field.plain _ _⟩

theorem restoreRecord_sortKeys (record : ProviderOutboxRecord) :
    restoreRecord record.toValue.sortKeys = .ok record.toValue.sortKeys
      ∧ record.toValue.sortKeys.Reordered record.toValue := by
  obtain ⟨fields, hfields⟩ : ∃ fields, record.toValue = .obj fields := ⟨_, rfl⟩
  have hsorted : record.toValue.sortKeys = .obj (sortByKey fields) := by
    rw [hfields, Value.sortKeys_obj, Value.sortFields_of_plain (record.plain hfields)]
  have hstate : outboxStates.any (·.text = record.state.text) = true := by
    cases record.state <;> decide
  refine ⟨?_, ?_⟩
  · have hget : ∀ key, record.toValue.sortKeys.get key = (record.toValue.get key).sortKeys :=
      Value.get_sortKeys record.nodup_keys
    have hid : record.toValue.sortKeys.get "requestId" = .str record.requestId := hget "requestId"
    have hturn : record.toValue.sortKeys.get "turnId" = .str record.turnId := hget "turnId"
    have hword : record.toValue.sortKeys.get "state" = .str record.state.text := hget "state"
    rw [hsorted] at hid hturn hword ⊢
    simp only [restoreRecord, hid, hturn, hword, hstate, if_true]
  · rw [hfields]
    exact Value.reordered_sortKeys (record.plain hfields)

theorem restoreOutbox_sortKeys (records : List ProviderOutboxRecord) :
    (records.map fun record => record.toValue.sortKeys).mapM restoreRecord
      = .ok (records.map fun record => record.toValue.sortKeys) := by
  induction records with
  | nil => rfl
  | cons record rest ih =>
    rw [List.map_cons, List.mapM_cons, ih, (restoreRecord_sortKeys record).1]
    rfl

theorem restoreActiveTurn_sortKeys (state : CoordinatorState) :
    ∃ fields, restoreActiveTurn (state.toValue.get "activeTurn").sortKeys = .ok fields
      ∧ List.Forall₂ (fun field turn => field.1 = "activeTurn" ∧ field.2.Reordered turn.toValue)
          fields state.sorted.activeTurn.toList
      ∧ Value.sortFields fields = Value.sortFields (activeTurnField state.activeTurn) := by
  cases hactive : state.activeTurn with
  | none =>
    have hget : state.toValue.get "activeTurn" = .undefined := by
      simp [hactive, Value.get]
    refine ⟨[], ?_, ?_, rfl⟩
    · rw [hget]
      rfl
    · simp [CoordinatorState.sorted, hactive]
  | some turn =>
    obtain ⟨v, hv, hobject, hsame⟩ := restoreTurn_sortKeys turn
    have hget : state.toValue.get "activeTurn" = turn.toValue := by
      simp [hactive, Value.get]
    have htruthy : turn.toValue.sortKeys.truthy = true := by
      rw [CoordinatorTurn.toValue, Value.sortKeys_obj]
      rfl
    refine ⟨[("activeTurn", v)], ?_, ?_, ?_⟩
    · rw [hget, restoreActiveTurn, if_pos htruthy, hv]
      rfl
    · simpa [CoordinatorState.sorted, hactive] using hobject
    · rw [activeTurnField, Value.sortFields, Value.sortFields, hsame]
      rfl

theorem objectWith_sortKeys {state : CoordinatorState} {queue queue' : List Value}
    {seen seen' : List (String × String)} {outbox outbox' : List Value}
    {activeTurn activeTurn' : List (String × Value)}
    (hqueue : queue.map Value.sortKeys = queue'.map Value.sortKeys)
    (hseen : (seenValue seen).sortKeys = (seenValue seen').sortKeys)
    (houtbox : outbox.map Value.sortKeys = outbox'.map Value.sortKeys)
    (hactive : Value.sortFields activeTurn = Value.sortFields activeTurn') :
    (objectWith state queue seen outbox activeTurn).SameData
      (objectWith state queue' seen' outbox' activeTurn') := by
  simp only [Value.SameData, objectWith, Value.sortKeys_obj, Value.sortFields, Value.sortKeys,
    Value.sortItems_eq, hqueue, hseen, houtbox, hactive]

/-- **The restored object is the stored state**, with its keys in sorted order. -/
theorem restore_serialize {state : CoordinatorState} (honce : SeenOnce state)
    (hdefined : OutboxDefined state) :
    ∃ text v, serializeCoordinatorState state = .ok text
      ∧ restoreCoordinatorState text = .ok v ∧ v.SameData state.toValue
      ∧ StateObject v state.sorted := by
  have hjson := CoordinatorState.isJson_toValue honce hdefined
  have hget : ∀ key, state.toValue.sortKeys.get key = (state.toValue.get key).sortKeys :=
    Value.get_sortKeys state.nodup_keys
  have hversion : (state.toValue.sortKeys.get "schemaVersion").isNat 1 = true := by
    rw [hget]
    exact Value.isNat_nat 1
  have hsession : state.toValue.sortKeys.get "sessionId" = .str state.sessionId.1 :=
    hget "sessionId"
  have hproject : state.toValue.sortKeys.get "projectId" = .str state.projectId.1 :=
    hget "projectId"
  have hgeneration : state.toValue.sortKeys.get "generation" = .nat state.generation.1 :=
    hget "generation"
  have hqueue : state.toValue.sortKeys.get "queue"
      = .arr (state.queue.map fun turn => turn.toValue.sortKeys) := by
    rw [hget]
    show (Value.arr (state.queue.map (·.toValue))).sortKeys = _
    rw [Value.sortKeys, Value.sortItems_eq, List.map_map]
    rfl
  have houtbox : state.toValue.sortKeys.get "outbox"
      = .arr (state.outbox.map fun record => record.toValue.sortKeys) := by
    rw [hget]
    show (Value.arr (state.outbox.map (·.toValue))).sortKeys = _
    rw [Value.sortKeys, Value.sortItems_eq, List.map_map]
    rfl
  have hseen : state.toValue.sortKeys.get "seen" = seenValue (sortByKey state.seen) :=
    (hget "seen").trans (seenValue_sortKeys state.seen)
  obtain ⟨queue, hreadQueue, hqueueObjects, hqueueSame⟩ := restoreTurns_sortKeys state.queue
  obtain ⟨active, hreadActive, hactiveObject, hactiveSame⟩ := restoreActiveTurn_sortKeys state
  have hcreate : createCoordinatorState state.sessionId.1 (.str state.projectId.1)
      (.nat state.generation.1)
      = .ok ⟨state.sessionId, state.projectId, state.generation, [], none, [], []⟩ := by
    have hsessionId : assertIdentifier state.sessionId.1 "Session id" = .ok state.sessionId := by
      rw [assertIdentifier, dif_pos state.sessionId.2]
    have hprojectId : parseProjectId (.str state.projectId.1) = .ok state.projectId :=
      opaqueId_idValue state.projectId
    rw [createCoordinatorState, hsessionId, assertGeneration_nat, hprojectId]
    rfl
  refine ⟨_, objectWith state queue (sortByKey state.seen)
    (state.outbox.map fun record => record.toValue.sortKeys) active,
    canonicalJson_isJson hjson, ?_, ?_, ?_⟩
  · obtain ⟨fields, hfields⟩ : ∃ fields, state.toValue.sortKeys = .obj fields :=
      ⟨_, Value.sortKeys_obj _⟩
    have hprojectId : parseProjectId (.str state.projectId.1) = .ok state.projectId :=
      opaqueId_idValue state.projectId
    rw [← hget] at hreadActive
    rw [restoreCoordinatorState, parse_canonicalJson hjson]
    rw [hfields] at hversion hsession hproject hgeneration hqueue houtbox hseen hreadActive ⊢
    simp only [hversion, hsession, hproject, hprojectId, ofParsed, Except.mapError,
      hgeneration, hqueue, houtbox, hseen, Except.ok_bind]
    have hzero : generationOrZero (.nat state.generation.1) = .nat state.generation.1 := rfl
    rw [hzero, hcreate]
    simp only [Except.ok_bind, hreadActive, restoreQueue, hreadQueue, restoreSeen_seenValue,
      restoreOutbox, restoreOutbox_sortKeys, Except.map, objectWith]
  · apply objectWith_sortKeys
    · rw [hqueueSame, List.map_map]
      rfl
    · rw [← seenValue_sortKeys, Value.sortKeys_sortKeys]
    · rw [List.map_map, List.map_map]
      apply List.map_congr_left
      intro record _
      exact record.toValue.sortKeys_sortKeys
    · exact hactiveSame
  · refine ⟨queue, _, active, rfl, hqueueObjects, ?_, hactiveObject⟩
    rw [List.forall₂_map_left_iff]
    exact List.forall₂_same.mpr fun record _ => (restoreRecord_sortKeys record).2

/-! ## No call sees the order of keys -/

/-- Turns that differ in the order of keys only. -/
structure SameTurn (a b : CoordinatorTurn) : Prop where
  turnId : a.turnId = b.turnId
  fingerprint : a.fingerprint = b.fingerprint
  request : a.request = b.request
  recipeCheckpoint : Option.Rel (fun a b : JsonObject => a.1.SameData b.1)
    a.recipeCheckpoint b.recipeCheckpoint

/-- Equal up to the order of the duplicate index and of the keys of recipe checkpoints. -/
structure SameState (s t : CoordinatorState) : Prop where
  sessionId : s.sessionId = t.sessionId
  projectId : s.projectId = t.projectId
  generation : s.generation = t.generation
  queue : List.Forall₂ SameTurn s.queue t.queue
  activeTurn : Option.Rel SameTurn s.activeTurn t.activeTurn
  seen : s.seen.Perm t.seen
  outbox : s.outbox = t.outbox

inductive SameReply : CoordinatorReply → CoordinatorReply → Prop where
  | enqueued (enqueued : Bool) (turnId : String) :
      SameReply (.enqueued enqueued turnId) (.enqueued enqueued turnId)
  | started {a b : Option CoordinatorTurn} (h : Option.Rel SameTurn a b) :
      SameReply (.started a) (.started b)
  | checkpointed (outbox : ProviderOutboxRecord) :
      SameReply (.checkpointed outbox) (.checkpointed outbox)
  | done : SameReply .done .done

inductive SameResult {α β : Type} (R : α → β → Prop) : Except String α → Except String β → Prop where
  | error (message : String) : SameResult R (.error message) (.error message)
  | ok {a : α} {b : β} (h : R a b) : SameResult R (.ok a) (.ok b)

theorem SameTurn.sorted (turn : CoordinatorTurn) : SameTurn turn turn.sorted := by
  refine ⟨rfl, rfl, rfl, ?_⟩
  cases hcheckpoint : turn.recipeCheckpoint with
  | none =>
    rw [CoordinatorTurn.sorted, hcheckpoint]
    exact .none
  | some checkpoint =>
    rw [CoordinatorTurn.sorted, hcheckpoint]
    exact .some checkpoint.1.sortKeys_sortKeys.symm

theorem SameState.sorted (state : CoordinatorState) : SameState state state.sorted := by
  refine ⟨rfl, rfl, rfl, ?_, ?_, (sortByKey_perm state.seen).symm, rfl⟩
  · rw [CoordinatorState.sorted, List.forall₂_map_right_iff]
    exact List.forall₂_same.mpr fun turn _ => SameTurn.sorted turn
  · cases hactive : state.activeTurn with
    | none =>
      rw [CoordinatorState.sorted, hactive]
      exact .none
    | some turn =>
      rw [CoordinatorState.sorted, hactive]
      exact .some (SameTurn.sorted turn)

variable {sha : String → String} {s t : CoordinatorState}

theorem lookupSeen_perm {seen seen' : List (String × String)} (h : seen.Perm seen')
    (hn : (seen.map Prod.fst).Nodup) (fingerprint : String) :
    lookupSeen seen fingerprint = lookupSeen seen' fingerprint := by
  have hn' : (seen'.map Prod.fst).Nodup := (h.map Prod.fst).nodup_iff.mp hn
  rw [lookupSeen, lookupSeen]
  congr 1
  cases hf : seen.find? (·.1 = fingerprint) with
  | none =>
    rw [List.find?_eq_none] at hf
    exact (List.find?_eq_none.mpr fun entry hmem => hf entry (h.mem_iff.mpr hmem)).symm
  | some entry =>
    have hmem : entry ∈ seen' := h.mem_iff.mp (List.mem_of_find?_eq_some hf)
    have hkey : entry.1 = fingerprint := by simpa using List.find?_some hf
    rw [← hkey]
    exact (Table.find?_key hn' hmem).symm

theorem setSeen_perm {seen seen' : List (String × String)} (h : seen.Perm seen')
    (fingerprint turnId : String) :
    (setSeen seen fingerprint turnId).Perm (setSeen seen' fingerprint turnId) := by
  have hany : seen.any (·.1 = fingerprint) = seen'.any (·.1 = fingerprint) := by
    rw [Bool.eq_iff_iff, List.any_eq_true, List.any_eq_true]
    simp only [h.mem_iff]
  rw [setSeen, setSeen, hany]
  split
  · exact h.map _
  · exact h.append_right _

/-- No update of the outbox sees that order. -/
theorem updateOutbox_sameState (h : SameState s t) (requestId : String) (generation : Value)
    (update : ProviderOutboxRecord → Except String ProviderOutboxRecord) :
    SameResult SameState (updateOutbox s requestId generation update)
      (updateOutbox t requestId generation update) := by
  unfold updateOutbox
  rw [h.outbox, h.generation]
  cases assertGeneration generation with
  | error message => exact .error message
  | ok g =>
    simp only [Except.ok_bind]
    split
    · exact .error _
    · split
      · exact .error _
      · next current hcurrent =>
        split
        · exact .error _
        · cases update current with
          | error message => exact .error message
          | ok record =>
            exact .ok ⟨h.sessionId, h.projectId, rfl, h.queue, h.activeTurn, h.seen, rfl⟩

/-- What a call returns, on states that differ in the order of keys. -/
abbrev SameOutcome : Except String (CoordinatorState × CoordinatorReply) →
    Except String (CoordinatorState × CoordinatorReply) → Prop :=
  SameResult fun a b => SameState a.1 b.1 ∧ SameReply a.2 b.2

theorem SameResult.map {α β γ δ : Type} {R : α → β → Prop} {Q : γ → δ → Prop}
    {a : Except String α} {b : Except String β} {f : α → γ} {g : β → δ} (h : SameResult R a b)
    (hfg : ∀ x y, R x y → Q (f x) (g y)) : SameResult Q (a.map f) (b.map g) := by
  cases h with
  | error message => exact .error message
  | ok h => exact .ok (hfg _ _ h)

theorem doneWith_same {a b : Except String CoordinatorState} (h : SameResult SameState a b) :
    SameOutcome (doneWith a) (doneWith b) :=
  h.map fun _ _ hstate => ⟨hstate, .done⟩

theorem enqueueTurn_sameState (h : SameState s t) (hn : SeenOnce s)
    (request : Value) :
    SameResult (fun a b => SameState a.1 b.1 ∧ a.2 = b.2) (enqueueTurn sha s request)
      (enqueueTurn sha t request) := by
  unfold enqueueTurn
  cases ofParsed (parseSemanticTurnRequest request) with
  | error message => exact .error message
  | ok request =>
    simp only [Except.ok_bind]
    cases sha256 sha request.toValue with
    | error message => exact .error message
    | ok hash =>
      simp only [Except.ok_bind]
      rw [lookupSeen_perm h.seen hn]
      split
      · exact .ok ⟨h, rfl⟩
      · refine .ok ⟨⟨h.sessionId, h.projectId, h.generation, ?_, h.activeTurn, ?_, h.outbox⟩, rfl⟩
        · have hturn : ∀ turn : CoordinatorTurn, turn.recipeCheckpoint = none →
              SameTurn turn turn := by
            intro turn hnone
            exact ⟨rfl, rfl, rfl, by rw [hnone]; exact .none⟩
          exact List.rel_append h.queue (.cons (hturn _ rfl) .nil)
        · exact setSeen_perm h.seen _ _

theorem SameState.active (h : SameState s t) :
    (s.activeTurn = none ∧ t.activeTurn = none)
      ∨ ∃ a b, s.activeTurn = some a ∧ t.activeTurn = some b ∧ SameTurn a b := by
  have hactive := h.activeTurn
  generalize s.activeTurn = a at hactive
  generalize t.activeTurn = b at hactive
  cases hactive with
  | none => exact .inl ⟨rfl, rfl⟩
  | some hturn => exact .inr ⟨_, _, rfl, rfl, hturn⟩

theorem startNextTurn_sameState (h : SameState s t) :
    SameResult (fun a b => SameState a.1 b.1 ∧ Option.Rel SameTurn a.2 b.2) (startNextTurn s)
      (startNextTurn t) := by
  unfold startNextTurn
  rcases h.active with ⟨hs, ht⟩ | ⟨a, b, hs, ht, -⟩
  · rw [hs, ht]
    have hqueue := h.queue
    cases hsq : s.queue with
    | nil =>
      rw [hsq, List.forall₂_nil_left_iff] at hqueue
      rw [hqueue]
      exact .ok ⟨h, .none⟩
    | cons turn rest =>
      rw [hsq] at hqueue
      obtain ⟨turn', rest', hturn, hrest, htq⟩ := List.forall₂_cons_left_iff.mp hqueue
      rw [htq]
      exact .ok ⟨⟨h.sessionId, h.projectId, h.generation, hrest, .some hturn, h.seen, h.outbox⟩,
        .some hturn⟩
  · rw [hs, ht]
    exact .error _

theorem checkpointProviderTurn_sameState (h : SameState s t) (turnId : String)
    (recipeCheckpoint : JsonObject) (payloadDigest : String) :
    SameResult (fun a b => SameState a.1 b.1 ∧ a.2 = b.2)
      (checkpointProviderTurn sha s turnId recipeCheckpoint payloadDigest)
      (checkpointProviderTurn sha t turnId recipeCheckpoint payloadDigest) := by
  unfold checkpointProviderTurn
  rw [h.outbox, h.sessionId, h.generation]
  rcases h.active with ⟨hs, ht⟩ | ⟨a, b, hs, ht, hturn⟩
  · rw [hs, ht]
    exact .error _
  · rw [hs, ht]
    simp only [hturn.turnId]
    split
    · exact .error _
    · split
      · exact .error _
      · split
        · exact .error _
        · cases sha256 sha _ with
          | error message => exact .error message
          | ok digest =>
            exact .ok ⟨⟨rfl, h.projectId, rfl, h.queue,
              .some ⟨rfl, hturn.fingerprint, hturn.request, .some rfl⟩, h.seen, rfl⟩, rfl⟩

theorem replaceCoordinatorGeneration_sameState (h : SameState s t) :
    SameResult SameState (replaceCoordinatorGeneration s) (replaceCoordinatorGeneration t) := by
  unfold replaceCoordinatorGeneration
  rw [h.generation, h.outbox]
  cases assertGeneration (.nat (t.generation.1 + 1)) with
  | error message => exact .error message
  | ok generation =>
    exact .ok ⟨h.sessionId, h.projectId, rfl, h.queue, h.activeTurn, h.seen, rfl⟩

theorem completeActiveTurn_sameState (h : SameState s t) :
    SameResult SameState (completeActiveTurn s) (completeActiveTurn t) := by
  unfold completeActiveTurn
  rw [h.outbox]
  rcases h.active with ⟨hs, ht⟩ | ⟨a, b, hs, ht, hturn⟩
  · rw [hs, ht]
    exact .error _
  · rw [hs, ht]
    simp only [hturn.turnId]
    split
    · exact .error _
    · exact .ok ⟨h.sessionId, h.projectId, h.generation, h.queue, .none, h.seen, rfl⟩

/-- **No call sees the order of keys.** -/
theorem exec_sameState (h : SameState s t) (hn : SeenOnce s)
    (call : CoordinatorCall) : SameOutcome (call.exec sha s) (call.exec sha t) := by
  cases call with
  | enqueueTurn request =>
    apply (enqueueTurn_sameState h hn request).map
    rintro ⟨s', enqueued, turnId⟩ ⟨t', _, _⟩ ⟨hstate, heq⟩
    cases heq
    exact ⟨hstate, .enqueued enqueued turnId⟩
  | startNextTurn =>
    apply (startNextTurn_sameState h).map
    rintro ⟨s', turn⟩ ⟨t', turn'⟩ ⟨hstate, hturn⟩
    exact ⟨hstate, .started hturn⟩
  | checkpointProviderTurn turnId recipeCheckpoint payloadDigest =>
    apply (checkpointProviderTurn_sameState h turnId recipeCheckpoint payloadDigest).map
    rintro ⟨s', outbox⟩ ⟨t', _⟩ ⟨hstate, heq⟩
    cases heq
    exact ⟨hstate, .checkpointed outbox⟩
  | markOutboxDispatching requestId generation =>
    exact doneWith_same (updateOutbox_sameState h requestId _ _)
  | markOutboxAccepted requestId generation providerRequestId =>
    apply doneWith_same
    unfold markOutboxAccepted
    cases assertIdentifier providerRequestId "Provider request id" with
    | error message => exact .error message
    | ok id => exact updateOutbox_sameState h requestId _ _
  | markOutboxSettled requestId generation responseDigest =>
    apply doneWith_same
    unfold markOutboxSettled
    split
    · exact .error _
    · exact updateOutbox_sameState h requestId _ _
  | handleOutboxFailure requestId generation evidence =>
    exact doneWith_same (updateOutbox_sameState h requestId _ _)
  | replaceCoordinatorGeneration => exact doneWith_same (replaceCoordinatorGeneration_sameState h)
  | completeActiveTurn => exact doneWith_same (completeActiveTurn_sameState h)

/-! ## Runs -/

def stepWith (sha : String → String) (state : CoordinatorState) (call : CoordinatorCall) :
    CoordinatorState :=
  call.step sha state

def outcome (sha : String → String) (state : CoordinatorState) (call : CoordinatorCall) :
    Except String (CoordinatorState × CoordinatorReply) :=
  call.exec sha state

theorem step_sameState (h : SameState s t) (hn : SeenOnce s) (call : CoordinatorCall) :
    SameState (call.step sha s) (call.step sha t) := by
  have hexec := @exec_sameState sha s t h hn call
  unfold CoordinatorCall.step
  generalize call.exec sha s = a at hexec
  generalize call.exec sha t = b at hexec
  cases hexec with
  | error message => exact h
  | ok hresult => exact hresult.1

/-- **Nor does a list of calls.** -/
theorem outcomes_sameState (h : SameState s t) (hn : SeenOnce s) (calls : List CoordinatorCall) :
    List.Forall₂ SameOutcome (Run.replies (outcome sha) (stepWith sha) s calls)
      (Run.replies (outcome sha) (stepWith sha) t calls) := by
  apply Run.replies_related (fun s t => SameState s t ∧ SeenOnce s) SameOutcome ?_ ⟨h, hn⟩
  rintro s t call ⟨h, hn⟩
  exact ⟨exec_sameState h hn call, step_sameState h hn call, step_seenOnce call hn⟩

/-- **A checkpoint restores the state.** In every run without a requeued failure, the state is
serialized, what is restored from the text is the same data, and every later sequence of calls
goes on as it would have. -/
theorem checkpoints_restore_the_state (sha : String → String) {sessionId : String}
    {projectId generation : Value} {init state : CoordinatorState}
    (hcreate : createCoordinatorState sessionId projectId generation = .ok init)
    (hrun : Run.Reachable (stepWith sha) KeepsRecords init state) :
    ∃ text v restored, serializeCoordinatorState state = .ok text
      ∧ restoreCoordinatorState text = .ok v ∧ v.SameData state.toValue
      ∧ StateObject v restored ∧ SameState state restored
      ∧ ∀ calls, List.Forall₂ SameOutcome (Run.replies (outcome sha) (stepWith sha) state calls)
          (Run.replies (outcome sha) (stepWith sha) restored calls) := by
  have hinit : SeenOnce init ∧ OutboxDefined init := by
    unfold createCoordinatorState at hcreate
    obtain ⟨session, -, hcreate⟩ := Except.bind_eq_ok.mp hcreate
    obtain ⟨generation, -, hcreate⟩ := Except.bind_eq_ok.mp hcreate
    obtain ⟨project, -, hcreate⟩ := Except.bind_eq_ok.mp hcreate
    cases hcreate
    exact ⟨List.nodup_nil, fun _ hrecord => absurd hrecord List.not_mem_nil⟩
  have hkept : SeenOnce state ∧ OutboxDefined state := by
    apply hrun.invariant (fun s => SeenOnce s ∧ OutboxDefined s) hinit
    rintro s call ⟨honce, hdefined⟩ hkeeps
    exact ⟨step_seenOnce call honce, step_outboxDefined hdefined hkeeps⟩
  obtain ⟨text, v, hserialize, hrestore, hsame, hobject⟩ := restore_serialize hkept.1 hkept.2
  exact ⟨text, v, state.sorted, hserialize, hrestore, hsame, hobject, SameState.sorted state,
    outcomes_sameState (SameState.sorted state) hkept.1⟩

def sampleSha (text : String) : String :=
  if text = "\x7b\"generation\":1,\"payloadDigest\":\"sha256:a\",\"sessionId\":\"abc\",\"turnId\":\"turn_dd30dee9b46c9739130b64f7b1015eae\"\x7d"
  then "599e81f2b6dae270537a4552a24ebd3bd439a2ede4b4a468aaa8b912bfb7f6f2"
  else "dd30dee9b46c9739130b64f7b1015eae930f3b3e4cbc7239fc57830e3534f70c"

def sampleState : CoordinatorState :=
  ⟨⟨"abc", by decide⟩, ⟨"prj_a", by decide⟩, ⟨1, by decide⟩, [], none, [], []⟩

def sampleRequest : Value :=
  .obj [("protocolVersion", .nat 2), ("mode", .str "prompt"), ("objective", .str "a"),
    ("disclosed", .obj [("selectionIds", .arr []), ("documentIds", .arr []),
      ("observationIds", .arr [])])]

def failedDispatch (evidence : FailureEvidence) : List CoordinatorCall :=
  [.enqueueTurn sampleRequest, .startNextTurn,
    .checkpointProviderTurn "turn_dd30dee9b46c9739130b64f7b1015eae"
      ⟨.obj [], Value.isJson_obj.mpr ⟨List.nodup_nil, fun _ h => absurd h List.not_mem_nil⟩, [], rfl⟩
      "sha256:a",
    .markOutboxDispatching "out_599e81f2b6dae270537a4552a24ebd3b" (.finite (.ofNat 1)),
    .handleOutboxFailure "out_599e81f2b6dae270537a4552a24ebd3b" (.finite (.ofNat 1)) evidence]

/-- The provider rejected the request for good, the record goes back to the queue, and the
coordinator can no longer be serialized. -/
theorem requeued_state_is_not_serialized :
    createCoordinatorState "abc" (.str "prj_a") (.nat 1) = .ok sampleState
      ∧ ∃ state, Run.Reachable (stepWith sampleSha) Run.always sampleState state
        ∧ serializeCoordinatorState state
          = .error "Canonical values must be JSON-compatible" := by
  refine ⟨rfl, Run.after (stepWith sampleSha) sampleState (failedDispatch ⟨true, false⟩) 5,
    Run.after_reachable 5, ?_⟩
  decide +kernel

/-- An inconclusive failure leaves the record indeterminate, and that state is restored. -/
theorem checkpoints_restore_the_state_indeterminate :
    ∃ text v restored,
      serializeCoordinatorState
        (Run.after (stepWith sampleSha) sampleState (failedDispatch ⟨false, false⟩) 5) = .ok text
      ∧ restoreCoordinatorState text = .ok v ∧ StateObject v restored := by
  have hrun : Run.Reachable (stepWith sampleSha) KeepsRecords sampleState
      (Run.after (stepWith sampleSha) sampleState (failedDispatch ⟨false, false⟩) 5) := by
    apply Run.after_reachable_of
    intro state call hcall
    simp only [failedDispatch, List.mem_cons, List.not_mem_nil, or_false] at hcall
    rcases hcall with rfl | rfl | rfl | rfl | rfl
    · trivial
    · trivial
    · trivial
    · trivial
    · -- neither kind of evidence was given
      rintro ⟨hevidence, -⟩
      cases hevidence
  obtain ⟨text, v, restored, hserialize, hrestore, -, hobject, -⟩ :=
    checkpoints_restore_the_state sampleSha
      (show createCoordinatorState "abc" (.str "prj_a") (.nat 1) = .ok sampleState from rfl) hrun
  exact ⟨text, v, restored, hserialize, hrestore, hobject⟩

end ThreeXhaust.Core
