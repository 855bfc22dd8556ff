import ThreeXhaust.Core.Checkpoints

/-!
# The turns of a coordinator over a whole run

What the nine operations keep together, from the creation of a coordinator on:

* **`step_coordinated`** — a call keeps the invariant of a run with its history.
* **`step_final`** — a record that is settled or indeterminate stays as it is.

The digests are cut to 32 characters, so the request ids are distinct only as long as no two of
the texts that were hashed share that prefix.
-/

namespace ThreeXhaust.Core

open Json Semantic

variable {sha : String → String}

/-! ## What a call does -/

def requestObject (state : CoordinatorState) (turnId payloadDigest : String) : Value :=
  .obj [("sessionId", .str state.sessionId.1), ("turnId", .str turnId),
    ("generation", .nat state.generation.1), ("payloadDigest", .str payloadDigest)]

def ProviderOutboxState.Live (state : ProviderOutboxState) : Prop :=
  state = .queued ∨ state = .dispatching ∨ state = .accepted

def ProviderOutboxState.Final (state : ProviderOutboxState) : Prop :=
  state = .settled ∨ state = .indeterminate

theorem ProviderOutboxState.Final.not_live {state : ProviderOutboxState} (h : state.Final) :
    ¬ state.Live := by
  rcases h with rfl | rfl <;> simp [ProviderOutboxState.Live]

structure SameRequest (current record : ProviderOutboxRecord) : Prop where
  requestId : record.requestId = current.requestId
  turnId : record.turnId = current.turnId
  generation : record.generation = current.generation

/-- What `replaceCoordinatorGeneration` makes of a record. -/
def ProviderOutboxRecord.replaced (generation : Generation) (record : ProviderOutboxRecord) :
    ProviderOutboxRecord :=
  if record.state = .dispatching ∨ record.state = .accepted then
    { record with state := .indeterminate }
  else if record.state = .queued then { record with generation }
  else record

/-- What a call does to the state, one case for each outcome. -/
inductive Effect (sha : String → String) (state : CoordinatorState) :
    CoordinatorState → CoordinatorReply → Prop
  | duplicate (turnId : String) : Effect sha state state (.enqueued false turnId)
  | enqueued (turn : CoordinatorTurn) (hturnId : turn.turnId ≠ "")
      (hnew : (lookupSeen state.seen turn.fingerprint).filter (· ≠ "") = none) :
      Effect sha state
        { state with
          queue := state.queue ++ [turn]
          seen := setSeen state.seen turn.fingerprint turn.turnId }
        (.enqueued true turn.turnId)
  | idle : Effect sha state state (.started none)
  | started (turn : CoordinatorTurn) (queue : List CoordinatorTurn)
      (hactive : state.activeTurn = none) (hqueue : state.queue = turn :: queue) :
      Effect sha state { state with queue, activeTurn := some turn } (.started (some turn))
  | checkpointed (active : CoordinatorTurn) (checkpoint : JsonObject) (text : String)
      (record : ProviderOutboxRecord) (hactive : state.activeTurn = some active)
      (hturnId : record.turnId = active.turnId)
      (hnew : ∀ other ∈ state.outbox, other.turnId ≠ record.turnId)
      (htext : canonicalJson (requestObject state record.turnId record.payloadDigest) = .ok text)
      (hrequestId : record.requestId = "out_" ++ slice (sha text) 0 32)
      (hgeneration : record.generation = state.generation) (hstate : record.state = .queued) :
      Effect sha state
        { state with
          activeTurn := some { active with recipeCheckpoint := some checkpoint }
          outbox := state.outbox ++ [record] }
        (.checkpointed record)
  | updated (index : Nat) (current record : ProviderOutboxRecord)
      (hcurrent : state.outbox[index]? = some current)
      (hgeneration : current.generation = state.generation) (hlive : current.state.Live)
      (hsame : SameRequest current record) :
      Effect sha state { state with outbox := state.outbox.set index record } .done
  | replaced (generation : Generation) (hgeneration : state.generation.1 + 1 = generation.1) :
      Effect sha state
        { state with generation, outbox := state.outbox.map (·.replaced generation) } .done
  | completed (active : CoordinatorTurn) (hactive : state.activeTurn = some active)
      (hsettled : ∀ record ∈ state.outbox, record.turnId = active.turnId →
        record.state = .settled) :
      Effect sha state { state with activeTurn := none } .done

theorem updateOutbox_effect {state state' : CoordinatorState} {requestId : String}
    {generation : Value} {update : ProviderOutboxRecord → Except String ProviderOutboxRecord}
    (h : updateOutbox state requestId generation update = .ok state')
    (hupdate : ∀ current record, update current = .ok record →
      current.state.Live ∧ SameRequest current record) :
    Effect sha state state' .done := by
  obtain ⟨index, current, record, hcurrent, -, -, hgeneration, hrecord, rfl⟩ := updateOutbox_ok h
  obtain ⟨hlive, hsame⟩ := hupdate current record hrecord
  exact .updated index current record hcurrent hgeneration hlive hsame

theorem turnId_ne_empty (rest : String) : "turn_" ++ rest ≠ "" := by
  intro h
  have hlength := congrArg String.length h
  rw [String.length_append] at hlength
  simp at hlength

theorem enqueueTurn_effect {state state' : CoordinatorState} {request : Value} {enqueued : Bool}
    {turnId : String} (h : enqueueTurn sha state request = .ok (state', enqueued, turnId)) :
    Effect sha state state' (.enqueued enqueued turnId) := by
  unfold enqueueTurn at h
  obtain ⟨request, -, h⟩ := Except.bind_eq_ok.mp h
  obtain ⟨hash, -, h⟩ := Except.bind_eq_ok.mp h
  dsimp only at h
  split at h
  · cases h
    exact .duplicate turnId
  · next hnew =>
    cases h
    exact .enqueued ⟨_, "sha256:" ++ hash, request, none⟩ (turnId_ne_empty _) hnew

theorem startNextTurn_effect {state state' : CoordinatorState} {turn : Option CoordinatorTurn}
    (h : startNextTurn state = .ok (state', turn)) : Effect sha state state' (.started turn) := by
  unfold startNextTurn at h
  split at h
  · cases h
  · next hactive =>
    split at h
    · cases h
      exact .idle
    · next first queue hqueue =>
      cases h
      exact .started first queue hactive hqueue

theorem checkpointProviderTurn_effect {state state' : CoordinatorState} {turnId : String}
    {checkpoint : JsonObject} {payloadDigest : String} {record : ProviderOutboxRecord}
    (h : checkpointProviderTurn sha state turnId checkpoint payloadDigest = .ok (state', record)) :
    Effect sha state state' (.checkpointed record) := by
  unfold checkpointProviderTurn at h
  split at h
  · cases h
  · next active hactive =>
    obtain ⟨hturnId, h⟩ := Except.ite_error_eq_ok.mp h
    obtain ⟨-, h⟩ := Except.ite_error_eq_ok.mp h
    obtain ⟨hnew, h⟩ := Except.ite_error_eq_ok.mp h
    obtain ⟨digest, hdigest, h⟩ := Except.bind_eq_ok.mp h
    obtain ⟨text, htext, rfl⟩ := Except.map_eq_ok.mp hdigest
    cases h
    have hnew : ∀ other ∈ state.outbox, other.turnId ≠ turnId := by
      simpa using hnew
    exact .checkpointed active checkpoint text _ hactive (not_not.mp hturnId).symm hnew htext rfl
      rfl rfl

theorem completeActiveTurn_effect {state state' : CoordinatorState}
    (h : completeActiveTurn state = .ok state') : Effect sha state state' .done := by
  unfold completeActiveTurn at h
  split at h
  · cases h
  · next active hactive =>
    obtain ⟨hsettled, h⟩ := Except.ite_error_eq_ok.mp h
    cases h
    refine .completed active hactive fun record hmem hturnId => ?_
    by_contra hstate
    exact hsettled (List.any_eq_true.mpr ⟨record, hmem, by simp [hturnId, hstate]⟩)

/-- **What one call can do.** -/
theorem exec_effect {state state' : CoordinatorState} {call : CoordinatorCall}
    {reply : CoordinatorReply} (h : call.exec sha state = .ok (state', reply)) :
    Effect sha state state' reply := by
  cases call with
  | enqueueTurn request =>
    obtain ⟨⟨state1, enqueued, turnId⟩, hcall, heq⟩ := Except.map_eq_ok.mp h
    cases heq
    exact enqueueTurn_effect hcall
  | startNextTurn =>
    obtain ⟨⟨state1, turn⟩, hcall, heq⟩ := Except.map_eq_ok.mp h
    cases heq
    exact startNextTurn_effect hcall
  | checkpointProviderTurn turnId recipeCheckpoint payloadDigest =>
    obtain ⟨⟨state1, outbox⟩, hcall, heq⟩ := Except.map_eq_ok.mp h
    cases heq
    exact checkpointProviderTurn_effect hcall
  | markOutboxDispatching requestId generation =>
    obtain ⟨state1, hcall, heq⟩ := Except.map_eq_ok.mp h
    cases heq
    apply updateOutbox_effect hcall
    intro current record hrecord
    obtain ⟨hqueued, hrecord⟩ := Except.ite_error_eq_ok.mp hrecord
    cases hrecord
    exact ⟨.inl (not_not.mp hqueued), rfl, rfl, rfl⟩
  | markOutboxAccepted requestId generation providerRequestId =>
    obtain ⟨state1, hcall, heq⟩ := Except.map_eq_ok.mp h
    cases heq
    obtain ⟨-, -, hcall⟩ := Except.bind_eq_ok.mp hcall
    apply updateOutbox_effect hcall
    intro current record hrecord
    obtain ⟨hdispatching, hrecord⟩ := Except.ite_error_eq_ok.mp hrecord
    cases hrecord
    exact ⟨.inr (.inl (not_not.mp hdispatching)), rfl, rfl, rfl⟩
  | markOutboxSettled requestId generation responseDigest =>
    obtain ⟨state1, hcall, heq⟩ := Except.map_eq_ok.mp h
    cases heq
    obtain ⟨-, hcall⟩ := Except.ite_error_eq_ok.mp hcall
    apply updateOutbox_effect hcall
    intro current record hrecord
    obtain ⟨haccepted, hrecord⟩ := Except.ite_error_eq_ok.mp hrecord
    cases hrecord
    exact ⟨.inr (.inr (not_not.mp haccepted)), rfl, rfl, rfl⟩
  | handleOutboxFailure requestId generation evidence =>
    obtain ⟨state1, hcall, heq⟩ := Except.map_eq_ok.mp h
    cases heq
    apply updateOutbox_effect hcall
    intro current record hrecord
    obtain ⟨hflight, hrecord⟩ := Except.ite_error_eq_ok.mp hrecord
    have hlive : current.state.Live := by
      by_contra hnot
      exact hflight ⟨fun h => hnot (.inr (.inl h)), fun h => hnot (.inr (.inr h))⟩
    -- requeued or indeterminate, it is still the same request
    split at hrecord
    · cases hrecord
      exact ⟨hlive, rfl, rfl, rfl⟩
    · cases hrecord
      exact ⟨hlive, rfl, rfl, rfl⟩
  | replaceCoordinatorGeneration =>
    obtain ⟨state1, hcall, heq⟩ := Except.map_eq_ok.mp h
    cases heq
    unfold replaceCoordinatorGeneration at hcall
    obtain ⟨generation, hgeneration, hcall⟩ := Except.bind_eq_ok.mp hcall
    cases hcall
    refine .replaced generation ?_
    simp only [assertGeneration, Value.nat, Decimal.toNat?_ofNat] at hgeneration
    split at hgeneration
    · cases hgeneration
      rfl
    · cases hgeneration
  | completeActiveTurn =>
    obtain ⟨state1, hcall, heq⟩ := Except.map_eq_ok.mp h
    cases heq
    exact completeActiveTurn_effect hcall

/-! ## Runs with their history -/

/-- A coordinator, with what happened to it since it was created: the turns that were enqueued,
those that became active, and the texts that were hashed to name an outbox record. -/
structure History where
  state : CoordinatorState
  enqueued : List CoordinatorTurn
  activated : List CoordinatorTurn
  hashed : List String

def History.start (state : CoordinatorState) : History := ⟨state, [], [], []⟩

def enqueuedBy (state state' : CoordinatorState) : CoordinatorReply → List CoordinatorTurn
  | .enqueued true _ => state'.queue.drop state.queue.length
  | _ => []

def activatedBy (state state' : CoordinatorState) : List CoordinatorTurn :=
  match state.activeTurn, state'.activeTurn with
  | none, some turn => [turn]
  | _, _ => []

def hashedBy (state : CoordinatorState) : CoordinatorReply → List String
  | .checkpointed record =>
    (canonicalJson (requestObject state record.turnId record.payloadDigest)).toOption.toList
  | _ => []

def History.next (history : History) (state : CoordinatorState) (reply : CoordinatorReply) :
    History where
  state := state
  enqueued := history.enqueued ++ enqueuedBy history.state state reply
  activated := history.activated ++ activatedBy history.state state
  hashed := history.hashed ++ hashedBy history.state reply

def History.step (sha : String → String) (history : History) (call : CoordinatorCall) : History :=
  match call.exec sha history.state with
  | .ok (state, reply) => history.next state reply
  | .error _ => history

/-- No two of the texts have digests that begin alike. -/
def NoCollision (sha : String → String) (texts : List String) : Prop :=
  ∀ a ∈ texts, ∀ b ∈ texts, slice (sha a) 0 32 = slice (sha b) 0 32 → a = b

def Hashed (sha : String → String) (texts : List String) (record : ProviderOutboxRecord) : Prop :=
  ∃ text ∈ texts, record.requestId = "out_" ++ slice (sha text) 0 32
    ∧ ∃ state payloadDigest, canonicalJson (requestObject state record.turnId payloadDigest) = .ok text

/-- The invariant: queue, turns and outbox against the history of the run. -/
structure Coordinated (sha : String → String) (history : History) : Prop where
  seenOnce : SeenOnce history.state
  named : ∀ entry ∈ history.state.seen, entry.2 ≠ ""
  -- every turn that was ever enqueued is in the duplicate index
  recorded : ∀ turn ∈ history.enqueued, (turn.fingerprint, turn.turnId) ∈ history.state.seen
  active : ∀ turn, history.state.activeTurn = some turn →
    (turn.fingerprint, turn.turnId) ∈ history.state.seen
  once : (history.enqueued.map (·.fingerprint)).Nodup
  inOrder : history.activated ++ history.state.queue = history.enqueued
  turnIds : (history.state.outbox.map (·.turnId)).Nodup
  seenTurnIds : ∀ record ∈ history.state.outbox, ∃ entry ∈ history.state.seen,
    entry.2 = record.turnId
  hashed : ∀ record ∈ history.state.outbox, Hashed sha history.hashed record
  generations : ∀ record ∈ history.state.outbox,
    record.generation.1 ≤ history.state.generation.1
      ∧ (record.state.Live → record.generation = history.state.generation)

theorem requestObject_isJson (state : CoordinatorState) (turnId payloadDigest : String) :
    (requestObject state turnId payloadDigest).IsJson := by
  simp [requestObject, Value.isJson_obj]

/-- The text of a request names its turn. -/
theorem turnId_of_requestObject {state state' : CoordinatorState}
    {turnId turnId' payloadDigest payloadDigest' text : String}
    (h : canonicalJson (requestObject state turnId payloadDigest) = .ok text)
    (h' : canonicalJson (requestObject state' turnId' payloadDigest') = .ok text) :
    turnId = turnId' := by
  have hjson := requestObject_isJson state turnId payloadDigest
  have hjson' := requestObject_isJson state' turnId' payloadDigest'
  rw [canonicalJson_isJson hjson] at h
  rw [canonicalJson_isJson hjson'] at h'
  have hparse := parse_canonicalJson hjson
  rw [Except.ok.inj (h.trans h'.symm), parse_canonicalJson hjson'] at hparse
  have hget := congrArg (Value.get · "turnId") (Option.some.inj hparse)
  unfold requestObject at hget
  rw [Value.get_sortKeys (by simp), Value.get_sortKeys (by simp)] at hget
  simpa [Value.get, Value.sortKeys] using hget.symm

theorem mem_setSeen {seen : List (String × String)} {fingerprint turnId : String}
    (hnew : ∀ entry ∈ seen, entry.1 ≠ fingerprint) :
    setSeen seen fingerprint turnId = seen ++ [(fingerprint, turnId)] := by
  have hany : ¬ seen.any (·.1 = fingerprint) = true := by
    intro hany
    obtain ⟨entry, hentry, hkey⟩ := List.any_eq_true.mp hany
    exact hnew entry hentry (of_decide_eq_true hkey)
  rw [setSeen, if_neg hany]

theorem lookupSeen_new {seen : List (String × String)} {fingerprint : String}
    (hnamed : ∀ entry ∈ seen, entry.2 ≠ "")
    (hnew : (lookupSeen seen fingerprint).filter (· ≠ "") = none) :
    ∀ entry ∈ seen, entry.1 ≠ fingerprint := by
  intro entry hentry hkey
  cases hfind : seen.find? (·.1 = fingerprint) with
  | none =>
    have := List.find?_eq_none.mp hfind entry hentry
    exact this (by simpa using hkey)
  | some found =>
    have hname := hnamed found (List.mem_of_find?_eq_some hfind)
    simp [lookupSeen, hfind, hname] at hnew

/-! ## One call -/

section Step

variable {history : History} {state' : CoordinatorState} {reply : CoordinatorReply}

/-- **A turn is enqueued.** -/
theorem Coordinated.enqueued (hc : Coordinated sha history) {turn : CoordinatorTurn}
    (hturnId : turn.turnId ≠ "")
    (hnew : (lookupSeen history.state.seen turn.fingerprint).filter (· ≠ "") = none) :
    Coordinated sha (history.next
      { history.state with
        queue := history.state.queue ++ [turn]
        seen := setSeen history.state.seen turn.fingerprint turn.turnId }
      (.enqueued true turn.turnId)) := by
  have hnew := lookupSeen_new hc.named hnew
  have hseen : setSeen history.state.seen turn.fingerprint turn.turnId
      = history.state.seen ++ [(turn.fingerprint, turn.turnId)] := mem_setSeen hnew
  have henqueued : (history.state.queue ++ [turn]).drop history.state.queue.length = [turn] :=
    List.drop_left
  have hactivated : activatedBy history.state
      { history.state with
        queue := history.state.queue ++ [turn]
        seen := setSeen history.state.seen turn.fingerprint turn.turnId } = [] := by
    unfold activatedBy
    cases history.state.activeTurn <;> rfl
  have hmono : ∀ entry ∈ history.state.seen,
      entry ∈ setSeen history.state.seen turn.fingerprint turn.turnId := by
    intro entry hentry
    rw [hseen]
    exact List.mem_append_left _ hentry
  constructor
  · exact setSeen_keys _ _ _ hc.seenOnce
  · intro entry hentry
    have hentry : entry ∈ setSeen history.state.seen turn.fingerprint turn.turnId := hentry
    rw [hseen] at hentry
    rcases List.mem_append.mp hentry with hentry | hentry
    · exact hc.named entry hentry
    · rw [List.mem_singleton.mp hentry]
      exact hturnId
  · intro other hother
    rcases List.mem_append.mp hother with hother | hother
    · exact hmono _ (hc.recorded other hother)
    · have hother : other ∈ (history.state.queue ++ [turn]).drop history.state.queue.length :=
        hother
      rw [henqueued] at hother
      rw [List.mem_singleton.mp hother]
      show _ ∈ setSeen history.state.seen turn.fingerprint turn.turnId
      rw [hseen]
      exact List.mem_append_right _ List.mem_cons_self
  · intro active hactive
    exact hmono _ (hc.active active hactive)
  · show ((history.enqueued ++ (history.state.queue ++ [turn]).drop _).map _).Nodup
    rw [henqueued, List.map_append, List.nodup_append]
    refine ⟨hc.once, List.nodup_singleton _, ?_⟩
    rintro _ hkey _ hlast rfl
    obtain ⟨other, hother, heq⟩ := List.mem_map.mp hkey
    have hentry := hc.recorded other hother
    exact hnew _ hentry (heq.trans (List.mem_singleton.mp hlast))
  · show (history.activated ++ activatedBy _ _) ++ (history.state.queue ++ [turn])
      = history.enqueued ++ (history.state.queue ++ [turn]).drop _
    rw [hactivated, henqueued, List.append_nil, ← List.append_assoc, hc.inOrder]
  · exact hc.turnIds
  · intro record hrecord
    obtain ⟨entry, hentry, heq⟩ := hc.seenTurnIds record hrecord
    exact ⟨entry, hmono entry hentry, heq⟩
  · intro record hrecord
    obtain ⟨text, htext, h⟩ := hc.hashed record hrecord
    exact ⟨text, List.mem_append_left _ htext, h⟩
  · exact hc.generations

/-- A call that adds no turn. -/
theorem Coordinated.next (hc : Coordinated sha history)
    (hreply : enqueuedBy history.state state' reply = [])
    (hseen : state'.seen = history.state.seen)
    (hqueue : activatedBy history.state state' ++ state'.queue = history.state.queue)
    (hactive : ∀ turn, state'.activeTurn = some turn → turn ∈ history.state.queue
      ∨ ∃ old, history.state.activeTurn = some old
        ∧ turn.turnId = old.turnId ∧ turn.fingerprint = old.fingerprint)
    (hturnIds : (state'.outbox.map (·.turnId)).Nodup)
    (hseenTurnIds : ∀ record ∈ state'.outbox, ∃ entry ∈ history.state.seen,
      entry.2 = record.turnId)
    (hhashed : ∀ record ∈ state'.outbox,
      Hashed sha (history.hashed ++ hashedBy history.state reply) record)
    (hgenerations : ∀ record ∈ state'.outbox, record.generation.1 ≤ state'.generation.1
      ∧ (record.state.Live → record.generation = state'.generation)) :
    Coordinated sha (history.next state' reply) := by
  have henqueued : (history.next state' reply).enqueued = history.enqueued := by
    show history.enqueued ++ enqueuedBy _ _ _ = _
    rw [hreply, List.append_nil]
  have hseen' : (history.next state' reply).state.seen = history.state.seen := hseen
  constructor
  · unfold SeenOnce
    rw [hseen']
    exact hc.seenOnce
  · rw [hseen']
    exact hc.named
  · rw [henqueued, hseen']
    exact hc.recorded
  · intro turn hturn
    rw [hseen']
    rcases hactive turn hturn with hqueued | ⟨old, hold, hturnId, hfingerprint⟩
    · apply hc.recorded
      rw [← hc.inOrder]
      exact List.mem_append_right _ hqueued
    · rw [hturnId, hfingerprint]
      exact hc.active old hold
  · rw [henqueued]
    exact hc.once
  · rw [henqueued, ← hc.inOrder, ← hqueue]
    exact List.append_assoc _ _ _
  · exact hturnIds
  · rw [hseen']
    exact hseenTurnIds
  · exact hhashed
  · exact hgenerations

theorem Hashed.append {texts more : List String} {record : ProviderOutboxRecord}
    (h : Hashed sha texts record) : Hashed sha (texts ++ more) record := by
  obtain ⟨text, htext, h⟩ := h
  exact ⟨text, List.mem_append_left _ htext, h⟩

theorem Coordinated.moved (hc : Coordinated sha history)
    (hreply : enqueuedBy history.state state' reply = [])
    (hseen : state'.seen = history.state.seen) (houtbox : state'.outbox = history.state.outbox)
    (hgeneration : state'.generation = history.state.generation)
    (hqueue : activatedBy history.state state' ++ state'.queue = history.state.queue)
    (hactive : ∀ turn, state'.activeTurn = some turn → turn ∈ history.state.queue
      ∨ ∃ old, history.state.activeTurn = some old
        ∧ turn.turnId = old.turnId ∧ turn.fingerprint = old.fingerprint) :
    Coordinated sha (history.next state' reply) := by
  refine hc.next hreply hseen hqueue hactive ?_ ?_ ?_ ?_
  · rw [houtbox]
    exact hc.turnIds
  · rw [houtbox]
    exact hc.seenTurnIds
  · rw [houtbox]
    exact fun record hrecord => (hc.hashed record hrecord).append
  · rw [houtbox, hgeneration]
    exact hc.generations

theorem activatedBy_append (hactive : state'.activeTurn.isSome = history.state.activeTurn.isSome)
    (hqueue : state'.queue = history.state.queue) :
    activatedBy history.state state' ++ state'.queue = history.state.queue := by
  have hnone : activatedBy history.state state' = [] := by
    unfold activatedBy
    cases h : history.state.activeTurn with
    | none =>
      rw [h] at hactive
      rw [Option.isNone_iff_eq_none.mp (Option.isSome_eq_false_iff.mp hactive)]
    | some turn => rfl
  rw [hnone, hqueue]
  rfl

theorem ProviderOutboxRecord.replaced_spec (generation : Generation)
    (record : ProviderOutboxRecord) :
    (record.replaced generation).requestId = record.requestId
      ∧ (record.replaced generation).turnId = record.turnId
      ∧ (record.state.Final → record.replaced generation = record)
      ∧ ((record.replaced generation).generation = generation
        ∨ (record.replaced generation).generation = record.generation
          ∧ ¬ (record.replaced generation).state.Live) := by
  unfold ProviderOutboxRecord.replaced
  cases hstate : record.state <;>
    simp [hstate, ProviderOutboxState.Live, ProviderOutboxState.Final]

theorem map_set_of_eq {α β : Type} (f : α → β) {xs : List α} {index : Nat} {a b : α}
    (h : xs[index]? = some a) (hf : f b = f a) : (xs.set index b).map f = xs.map f := by
  rw [List.map_set, hf]
  have hmap : (xs.map f)[index]? = some (f a) := by
    rw [List.getElem?_map, h]
    rfl
  obtain ⟨hindex, hget⟩ := List.getElem?_eq_some_iff.mp hmap
  rw [← hget, List.set_getElem_self]

/-- **A call keeps the invariant.** -/
theorem Effect.coordinated (hc : Coordinated sha history)
    (h : Effect sha history.state state' reply) :
    Coordinated sha (history.next state' reply) := by
  cases h with
  | duplicate turnId =>
    exact hc.moved rfl rfl rfl rfl (activatedBy_append rfl rfl)
      fun turn hturn => .inr ⟨turn, hturn, rfl, rfl⟩
  | enqueued turn hturnId hnew => exact hc.enqueued hturnId hnew
  | idle =>
    exact hc.moved rfl rfl rfl rfl (activatedBy_append rfl rfl)
      fun turn hturn => .inr ⟨turn, hturn, rfl, rfl⟩
  | started turn queue hactive hqueue =>
    refine hc.moved rfl rfl rfl rfl ?_ ?_
    · unfold activatedBy
      rw [hactive, hqueue]
      rfl
    · intro other hother
      cases hother
      rw [hqueue]
      exact .inl List.mem_cons_self
  | checkpointed active checkpoint text record hactive hturnId hnew htext hrequestId hgeneration
      hstate =>
    refine hc.next rfl rfl ?_ ?_ ?_ ?_ ?_ ?_
    · exact activatedBy_append (by rw [hactive]; rfl) rfl
    · intro turn hturn
      cases hturn
      exact .inr ⟨active, hactive, rfl, rfl⟩
    -- the call refused a turn that has a record
    · show ((history.state.outbox ++ [record]).map _).Nodup
      rw [List.map_append, List.nodup_append]
      refine ⟨hc.turnIds, List.nodup_singleton _, ?_⟩
      rintro _ hother _ hrecord rfl
      obtain ⟨other, hmem, heq⟩ := List.mem_map.mp hother
      exact hnew other hmem (heq.trans (List.mem_singleton.mp hrecord))
    · intro other hother
      rcases List.mem_append.mp hother with hother | hother
      · exact hc.seenTurnIds other hother
      · rw [List.mem_singleton.mp hother, hturnId]
        exact ⟨_, hc.active active hactive, rfl⟩
    · intro other hother
      rcases List.mem_append.mp hother with hother | hother
      · exact (hc.hashed other hother).append
      · rw [List.mem_singleton.mp hother]
        have hhashed : text ∈ hashedBy history.state (.checkpointed record) := by
          simp [hashedBy, htext, Except.toOption]
        exact ⟨text, List.mem_append_right _ hhashed, hrequestId, _, _, htext⟩
    · intro other hother
      rcases List.mem_append.mp hother with hother | hother
      · exact hc.generations other hother
      · rw [List.mem_singleton.mp hother, hgeneration]
        exact ⟨Nat.le_refl _, fun _ => rfl⟩
  | updated index current record hcurrent hgeneration hlive hsame =>
    have hmem := List.mem_of_getElem? hcurrent
    refine hc.next rfl rfl ?_ ?_ ?_ ?_ ?_ ?_
    · exact activatedBy_append rfl rfl
    · intro turn hturn
      exact .inr ⟨turn, hturn, rfl, rfl⟩
    · show ((history.state.outbox.set index record).map _).Nodup
      rw [map_set_of_eq _ hcurrent hsame.turnId]
      exact hc.turnIds
    · intro other hother
      rcases List.mem_or_eq_of_mem_set hother with hother | rfl
      · exact hc.seenTurnIds other hother
      · rw [hsame.turnId]
        exact hc.seenTurnIds current hmem
    · intro other hother
      rcases List.mem_or_eq_of_mem_set hother with hother | rfl
      · exact (hc.hashed other hother).append
      · unfold Hashed
        rw [hsame.turnId, hsame.requestId]
        exact (hc.hashed current hmem).append
    · intro other hother
      rcases List.mem_or_eq_of_mem_set hother with hother | rfl
      · exact hc.generations other hother
      · rw [hsame.generation, hgeneration]
        exact ⟨Nat.le_refl _, fun _ => rfl⟩
  | replaced generation hgeneration =>
    refine hc.next rfl rfl ?_ ?_ ?_ ?_ ?_ ?_
    · exact activatedBy_append rfl rfl
    · intro turn hturn
      exact .inr ⟨turn, hturn, rfl, rfl⟩
    · show ((history.state.outbox.map (·.replaced generation)).map (·.turnId)).Nodup
      rw [List.map_map]
      have hsame : ((·.turnId) ∘ (·.replaced generation)) = ProviderOutboxRecord.turnId :=
        funext fun record => (record.replaced_spec generation).2.1
      rw [hsame]
      exact hc.turnIds
    · intro other hother
      obtain ⟨record, hrecord, rfl⟩ := List.mem_map.mp hother
      rw [(record.replaced_spec generation).2.1]
      exact hc.seenTurnIds record hrecord
    · intro other hother
      obtain ⟨record, hrecord, rfl⟩ := List.mem_map.mp hother
      unfold Hashed
      rw [(record.replaced_spec generation).1, (record.replaced_spec generation).2.1]
      exact (hc.hashed record hrecord).append
    · intro other hother
      obtain ⟨record, hrecord, rfl⟩ := List.mem_map.mp hother
      have hold := (hc.generations record hrecord).1
      rcases (record.replaced_spec generation).2.2.2 with hnew | ⟨hkept, hdead⟩
      · rw [hnew]
        exact ⟨Nat.le_refl _, fun _ => rfl⟩
      · rw [hkept]
        refine ⟨?_, fun hlive => absurd hlive hdead⟩
        show record.generation.1 ≤ generation.1
        omega
  | completed active hactive hsettled =>
    refine hc.moved rfl rfl rfl rfl ?_ ?_
    · unfold activatedBy
      rw [hactive]
      rfl
    · intro other hother
      cases hother

theorem step_coordinated (hc : Coordinated sha history) (call : CoordinatorCall) :
    Coordinated sha (history.step sha call) := by
  unfold History.step
  split
  · next state reply hexec => exact (exec_effect hexec).coordinated hc
  · exact hc

/-- Records that are final stay. -/
def FinalKept (earlier later : History) : Prop :=
  ∀ (index : Nat) (record : ProviderOutboxRecord), earlier.state.outbox[index]? = some record →
    record.state.Final →
    later.state.outbox[index]? = some record

theorem Effect.final (h : Effect sha history.state state' reply) :
    FinalKept history (history.next state' reply) := by
  intro index record hrecord hfinal
  cases h with
  | duplicate => exact hrecord
  | enqueued => exact hrecord
  | idle => exact hrecord
  | started => exact hrecord
  | checkpointed active checkpoint text new =>
    show (history.state.outbox ++ [new])[index]? = some record
    exact List.getElem?_append_left (List.getElem?_eq_some_iff.mp hrecord).1 |>.trans hrecord
  | updated changed current new hcurrent hgeneration hlive hsame =>
    show (history.state.outbox.set changed new)[index]? = some record
    -- the record that is changed was live
    have hne : changed ≠ index := by
      rintro rfl
      cases hcurrent.symm.trans hrecord
      exact hfinal.not_live hlive
    rw [List.getElem?_set_ne hne]
    exact hrecord
  | replaced generation hgeneration =>
    show (history.state.outbox.map (·.replaced generation))[index]? = some record
    rw [List.getElem?_map, hrecord]
    exact congrArg some ((record.replaced_spec generation).2.2.1 hfinal)
  | completed => exact hrecord

theorem step_final (call : CoordinatorCall) : FinalKept history (history.step sha call) := by
  unfold History.step
  split
  · next state reply hexec => exact (exec_effect hexec).final
  · exact fun _ _ hrecord _ => hrecord

def Leaves (turn : CoordinatorTurn) (earlier later : CoordinatorState) : Prop :=
  earlier.activeTurn = some turn ∧ later.activeTurn.map (·.turnId) ≠ some turn.turnId

/-- A turn that is left has settled records only. -/
theorem Effect.leaves (h : Effect sha history.state state' reply) {turn : CoordinatorTurn}
    (hleaves : Leaves turn history.state state') :
    ∀ record ∈ history.state.outbox, record.turnId = turn.turnId → record.state = .settled := by
  obtain ⟨hturn, hgone⟩ := hleaves
  have hstays : history.state.activeTurn.map (·.turnId) = some turn.turnId := by
    rw [hturn]
    rfl
  cases h with
  | duplicate => exact absurd hstays hgone
  | enqueued => exact absurd hstays hgone
  | idle => exact absurd hstays hgone
  | started other queue hnone =>
    rw [hnone] at hturn
    cases hturn
  | checkpointed active checkpoint text record hactive =>
    cases hactive.symm.trans hturn
    exact absurd rfl hgone
  | updated => exact absurd hstays hgone
  | replaced => exact absurd hstays hgone
  | completed active hactive hsettled =>
    cases hactive.symm.trans hturn
    exact hsettled

theorem step_leaves (call : CoordinatorCall) {turn : CoordinatorTurn}
    (hleaves : Leaves turn history.state (history.step sha call).state) :
    ∀ record ∈ history.state.outbox, record.turnId = turn.turnId → record.state = .settled := by
  unfold History.step at hleaves
  split at hleaves
  · next state reply hexec => exact (exec_effect hexec).leaves hleaves
  · exact absurd (by rw [hleaves.1]; rfl) hleaves.2

end Step

/-! ## Runs -/

theorem Coordinated.start {sessionId : String} {projectId generation : Value}
    {init : CoordinatorState}
    (hcreate : createCoordinatorState sessionId projectId generation = .ok init) :
    Coordinated sha (.start init) := by
  unfold createCoordinatorState at hcreate
  obtain ⟨session, -, hcreate⟩ := Except.bind_eq_ok.mp hcreate
  obtain ⟨generation, -, hcreate⟩ := Except.bind_eq_ok.mp hcreate
  obtain ⟨project, -, hcreate⟩ := Except.bind_eq_ok.mp hcreate
  cases hcreate
  constructor <;> simp [History.start, SeenOnce]

theorem Coordinated.requestIds {history : History} (hc : Coordinated sha history)
    (hsha : NoCollision sha history.hashed) :
    (history.state.outbox.map (·.requestId)).Nodup := by
  -- two records of one id come from one text, which names one turn
  have hinj : ∀ a ∈ history.state.outbox, ∀ b ∈ history.state.outbox,
      a.requestId = b.requestId → a.turnId = b.turnId := by
    intro a ha b hb heq
    obtain ⟨text, htext, hid, _, _, hcanonical⟩ := hc.hashed a ha
    obtain ⟨text', htext', hid', _, _, hcanonical'⟩ := hc.hashed b hb
    have hslice : slice (sha text) 0 32 = slice (sha text') 0 32 := by
      have happend := hid.symm.trans (heq.trans hid')
      exact (String.append_right_inj _).mp happend
    have hsame := hsha text htext text' htext' hslice
    exact turnId_of_requestObject hcanonical (hsame ▸ hcanonical')
  have hpairs : history.state.outbox.Pairwise (fun a b => a.turnId ≠ b.turnId) :=
    List.pairwise_map.mp hc.turnIds
  apply List.pairwise_map.mpr
  exact hpairs.imp_of_mem fun ha hb hne heq => hne (hinj _ ha _ hb heq)

structure TurnsKept (sha : String → String) (history : History) : Prop where
  requestIds : (history.state.outbox.map (·.requestId)).Nodup
  turnIds : (history.state.outbox.map (·.turnId)).Nodup
  generations : ∀ record ∈ history.state.outbox,
    record.generation.1 ≤ history.state.generation.1
      ∧ (record.state = .queued ∨ record.state = .dispatching ∨ record.state = .accepted →
        record.generation = history.state.generation)
  seenTurns : ∀ turn, turn ∈ history.state.queue ∨ history.state.activeTurn = some turn →
    turn.fingerprint ∈ history.state.seen.map Prod.fst
  seenRecords : ∀ record ∈ history.state.outbox,
    record.turnId ∈ history.state.seen.map Prod.snd
  once : (history.enqueued.map (·.fingerprint)).Nodup
  inOrder : history.activated ++ history.state.queue = history.enqueued
  -- from here on
  final : ∀ later, Run.Reachable (History.step sha) Run.always history later →
    ∀ (index : Nat) (record : ProviderOutboxRecord),
      history.state.outbox[index]? = some record →
      record.state = .settled ∨ record.state = .indeterminate →
      later.state.outbox[index]? = some record
  leaves : ∀ call turn, Leaves turn history.state (history.step sha call).state →
    ∀ record ∈ history.state.outbox, record.turnId = turn.turnId → record.state = .settled

theorem run_final {history later : History}
    (hrun : Run.Reachable (History.step sha) Run.always history later) :
    FinalKept history later := by
  apply hrun.relation (fun _ => True) FinalKept
  · exact fun _ _ _ hrecord _ => hrecord
  · intro a b c hab hbc index record hrecord hfinal
    exact hbc index record (hab index record hrecord hfinal) hfinal
  · exact fun _ _ _ _ => trivial
  · exact fun _ call _ _ => step_final call
  · trivial

/-- **The coordinator keeps its turns apart.** In every run, with no two requests whose digests
begin alike: no id stands twice in the outbox, a record in flight is of the current generation,
no turn is enqueued twice and none overtakes another, a settled or indeterminate record never
changes, and the active turn leaves only when its record is settled. -/
theorem turns_are_kept (sha : String → String) {sessionId : String}
    {projectId generation : Value} {init : CoordinatorState} {history : History}
    (hcreate : createCoordinatorState sessionId projectId generation = .ok init)
    (hrun : Run.Reachable (History.step sha) Run.always (.start init) history)
    (hsha : NoCollision sha history.hashed) : TurnsKept sha history := by
  have hc : Coordinated sha history := by
    apply hrun.invariant (Coordinated sha) (Coordinated.start hcreate)
    exact fun _ call hc _ => step_coordinated hc call
  constructor
  · exact hc.requestIds hsha
  · exact hc.turnIds
  · exact hc.generations
  · rintro turn (hqueued | hactive)
    · have hmem : turn ∈ history.enqueued := by
        rw [← hc.inOrder]
        exact List.mem_append_right _ hqueued
      exact List.mem_map_of_mem (hc.recorded turn hmem)
    · exact List.mem_map_of_mem (hc.active turn hactive)
  · intro record hrecord
    obtain ⟨entry, hentry, heq⟩ := hc.seenTurnIds record hrecord
    exact List.mem_map.mpr ⟨entry, hentry, heq⟩
  · exact hc.once
  · exact hc.inOrder
  · exact fun later hlater => run_final hlater
  · exact fun call turn hleaves => step_leaves call hleaves

/-- A dispatch failed for reasons unknown. -/
theorem turns_are_kept_indeterminate :
    TurnsKept sampleSha
      (Run.after (History.step sampleSha) (.start sampleState) (failedDispatch ⟨false, false⟩) 5) := by
  apply turns_are_kept sampleSha
    (show createCoordinatorState "abc" (.str "prj_a") (.nat 1) = .ok sampleState from rfl)
    (Run.after_reachable 5)
  unfold NoCollision
  decide +kernel

end ThreeXhaust.Core
