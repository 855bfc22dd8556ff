import ThreeXhaust.Harness.InboxPrograms
import ThreeXhaust.Lib.Run

/-!
# The inbox along every run

Every command of a session, in a commit of its own, keeps the inboxes and the submissions in agreement
(`World.step_consistent`), and takes each submission only along its moves.
-/

namespace ThreeXhaust.Harness

open Durable EStateM Tx Run

/-! ## What is committed -/

/-- The invariant between two commits. -/
structure Consistent (w : World) : Prop where
  sound : Sound [] w.storage.state.submissions w.inbox w.live w.storage.nextId
  requests : Memory.RequestsExact w.storage.state
  noted : Memory.Noted w.storage.state
  entries : ∀ id r e, w.storage.state.submissions id = some r → r.entry = some e →
    ∃ entry, w.storage.state.entries e = some entry ∧ entry.conversationId = r.conversationId

/-- Every submission stays, and has moved. -/
def Advances (w w' : World) : Prop :=
  ∀ id r, w.storage.state.submissions id = some r →
    ∃ r', w'.storage.state.submissions id = some r' ∧ Moves r r'

theorem Advances.refl (w : World) : Advances w w := fun _ r hr => ⟨r, hr, .refl⟩

theorem Advances.trans {w w' w'' : World} (h : Advances w w') (h' : Advances w' w'') :
    Advances w w'' := by
  intro id r hr
  obtain ⟨r', hr', hmoves⟩ := h id r hr
  obtain ⟨r'', hr'', hmoves'⟩ := h' id r' hr'
  exact ⟨r'', hr'', hmoves.trans hmoves'⟩

section

variable {w : World} {tx : Tx} {placed : List Nat} {staged : List (Nat × SubmissionRecord)} {c : Nat}

theorem Consistent.start (h : Consistent w) (conversationId taskId : Option Nat) :
    Good w [] [] (w.start conversationId taskId) [] where
  state := rfl
  seq := rfl
  next := le_refl _
  resolved := rfl
  keys := List.nodup_nil
  keyed := fun _ hmem => absurd hmem List.not_mem_nil
  writes := fun _ hmem => absurd hmem List.not_mem_nil
  entrySorted := List.Pairwise.nil
  moves := fun _ r hr => ⟨r, hr, .refl⟩
  entries := fun _ r _ hr he => .inl ⟨r, hr, he⟩
  sound := h.sound
  placed := fun _ hmem => absurd hmem List.not_mem_nil

theorem counted_start (w : World) (conversationId taskId : Option Nat) :
    Counted w (w.start conversationId taskId) := Nat.le_refl w.storage.nextId

theorem Consistent.failed (h : Consistent w) (hcounted : Counted w tx) : Consistent (w.failed tx) where
  sound := h.sound.mono hcounted
  requests := h.requests
  noted := ⟨h.noted.conversations, h.noted.entries⟩
  entries := h.entries

/-! ## Storing the batch -/

theorem submissionValues_append (writes more : List StorageWrite) :
    submissionValues (writes ++ more) = submissionValues writes ++ submissionValues more :=
  List.filterMap_append

theorem submissionValues_entries {writes : List StorageWrite} (h : ∀ write ∈ writes, ∃ e, write = .entry e) :
    submissionValues writes = [] := by
  apply List.filterMap_eq_nil_iff.mpr
  intro write hwrite
  obtain ⟨e, rfl⟩ := h write hwrite
  rfl

theorem submissionValues_tasks (table : Transaction) : submissionValues table.taskWrites = [] := by
  apply List.filterMap_eq_nil_iff.mpr
  intro write hwrite
  obtain ⟨task, _, heq⟩ := List.mem_filterMap.mp hwrite
  obtain ⟨taskWrite, _, rfl⟩ := Option.map_eq_some_iff.mp heq
  rfl

theorem submissionValues_staged (staged : List (Nat × SubmissionRecord)) :
    submissionValues (staged.map fun entry => .submission entry.2) = staged.map (·.2) := by
  induction staged with
  | nil => rfl
  | cons entry rest ih =>
    rw [List.map_cons, List.map_cons, ← ih]
    rfl

theorem Good.submissionValues (h : Good w [] placed tx staged) :
    Durable.submissionValues (batch tx.table staged) = staged.map (·.2) := by
  have hentries : Durable.submissionValues tx.table.writes = [] := by
    apply submissionValues_entries
    intro write hwrite
    obtain ⟨e, he, _⟩ := h.writes write hwrite
    exact ⟨e, he⟩
  rw [batch, submissionValues_append, submissionValues_append, hentries, submissionValues_staged,
    submissionValues_tasks, List.nil_append, List.append_nil]

theorem entryValues_mem_batch {e : EntryRecord} (h : .entry e ∈ tx.table.writes) :
    e ∈ entryValues (batch tx.table staged) :=
  List.mem_filterMap.mpr ⟨.entry e, List.mem_append_left _ (List.mem_append_left _ h), rfl⟩

theorem entryValues_batch (table : Transaction) (staged : List (Nat × SubmissionRecord)) :
    entryValues (batch table staged) = entryValues table.writes := by
  have hsubmissions : entryValues (staged.map fun entry => .submission entry.2) = [] := by
    apply List.filterMap_eq_nil_iff.mpr
    intro write hwrite
    obtain ⟨entry, _, rfl⟩ := List.mem_map.mp hwrite
    rfl
  have htasks : entryValues table.taskWrites = [] := by
    apply List.filterMap_eq_nil_iff.mpr
    intro write hwrite
    obtain ⟨task, _, heq⟩ := List.mem_filterMap.mp hwrite
    obtain ⟨taskWrite, _, rfl⟩ := Option.map_eq_some_iff.mp heq
    rfl
  rw [batch, entryValues_append, entryValues_append, hsubmissions, htasks, List.append_nil,
    List.append_nil]

theorem Good.ids_nodup (h : Good w [] placed tx staged) :
    ((staged.map (·.2)).map (·.id)).Nodup := by
  have hids : (staged.map (·.2)).map (·.id) = staged.map (·.1) := by
    rw [List.map_map]
    exact List.map_congr_left fun entry hentry => h.keyed entry hentry
  rw [hids]
  exact h.keys

/-- Storing what was staged gives what the transaction saw. -/
theorem Good.putAll_eq (h : Good w [] placed tx staged) :
    putAll (·.id) tx.storage.state.submissions (staged.map (·.2)) = view tx.storage staged := by
  funext id
  rw [view]
  cases hlookup : staged.lookup id with
  | none =>
    apply putAll_of_notMem
    rw [List.map_map]
    intro hmem
    obtain ⟨entry, hentry, hid⟩ := List.mem_map.mp hmem
    refine Assoc.lookup_eq_none_iff.mp hlookup (List.mem_map.mpr ⟨entry, hentry, ?_⟩)
    exact (h.keyed entry hentry).symm.trans hid
  | some r =>
    have hmem := Assoc.mem_of_lookup hlookup
    have hput : putAll (·.id) tx.storage.state.submissions (staged.map (·.2)) r.id = some r :=
      putAll_of_mem h.ids_nodup (List.mem_map.mpr ⟨_, hmem, rfl⟩)
    rw [h.keyed _ hmem] at hput
    exact hput

/-- **A commit that is stored** is consistent, and every submission has moved. -/
theorem Good.stored (h : Good w [] placed tx staged) (hw : Consistent w) {storage : Memory}
    (hstore : tx.storage.commitBatch (batch tx.table staged) = .ok storage) :
    Consistent ⟨storage, tx.inbox, tx.live⟩ ∧ Advances w ⟨storage, tx.inbox, tx.live⟩ := by
  obtain ⟨htables, hnext⟩ := Memory.commitAt_tables hstore
  have hsubmissions : storage.state.submissions = view tx.storage staged := by
    rw [htables.submissions, Memory.putTables_submissions, h.submissionValues, h.putAll_eq]
  have hkeeps : ∀ value ∈ staged.map (·.2), Memory.KeepsRequest tx.storage.state.submissions value := by
    intro value hvalue old hold
    obtain ⟨entry, hentry, rfl⟩ := List.mem_map.mp hvalue
    rw [h.state] at hold
    obtain ⟨r', hr', hmoves⟩ := h.moves _ old hold
    have hlookup : view tx.storage staged entry.2.id = some entry.2 := by
      rw [h.keyed entry hentry, view, Assoc.lookup_of_mem h.keys hentry]
      rfl
    rw [hlookup, Option.some.injEq] at hr'
    subst hr'
    exact ⟨hmoves.same.2.1.symm, hmoves.same.2.2.1.symm⟩
  refine ⟨⟨?_, ?_, ?_, ?_⟩, ?_⟩
  · show Sound [] storage.state.submissions tx.inbox tx.live storage.nextId
    rw [hsubmissions]
    exact h.sound.mono (Memory.le_nextId_putTables.trans hnext)
  · have hputs : Memory.RequestsExact (tx.storage.putTables tx.storage.nextSeq
        (batch tx.table staged)).state := by
      apply Memory.putTables_requests
      · rw [h.state]
        exact hw.requests
      · rw [h.submissionValues]
        exact h.ids_nodup
      · rw [h.submissionValues]
        exact hkeeps
      · rw [h.submissionValues, h.putAll_eq]
        exact h.sound.requests
    intro conversationId requestId id
    show storage.state.submissionIdsByRequest conversationId requestId = some id
      ↔ ∃ record, storage.state.submissions id = some record ∧ _
    rw [htables.requests, htables.submissions]
    exact hputs conversationId requestId id
  · apply Memory.Noted.commitAt _ hstore
    rw [h.state]
    exact hw.noted
  · intro id r e hr he
    change storage.state.submissions id = some r at hr
    rw [hsubmissions] at hr
    rcases h.entries id r e hr he with ⟨old, hold, holdEntry⟩ | ⟨rec, hrec, rfl, hconversation⟩
    · obtain ⟨entry, hentry, hsame⟩ := hw.entries id old e hold holdEntry
      obtain ⟨r', hr', hmoves⟩ := h.moves id old hold
      rw [hr, Option.some.injEq] at hr'
      subst hr'
      refine ⟨entry, ?_, hsame.trans hmoves.same.2.1.symm⟩
      apply Memory.commitAt_entries _ hstore
      · rw [h.state]
        exact hentry
      · rw [h.state]
        exact hw.noted
    · refine ⟨rec, ?_, hconversation⟩
      show storage.state.entries rec.id = some rec
      rw [htables.entries, Memory.putTables_entries]
      apply putAll_of_mem _ (entryValues_mem_batch hrec)
      rw [entryValues_batch, List.nodup_iff_pairwise_ne, List.pairwise_map]
      exact h.entrySorted.imp fun hlt => Nat.ne_of_lt hlt
  · intro id r hr
    obtain ⟨r', hr', hmoves⟩ := h.moves id r hr
    exact ⟨r', by rw [show (⟨storage, tx.inbox, tx.live⟩ : World).storage = storage from rfl,
      hsubmissions, hr'], hmoves⟩

/-- **A callback that is good to its end** makes a consistent commit. -/
theorem commit_consistent {α : Type} {callback : TxM α} {taskId : Option Nat} (hw : Consistent w)
    (h : Ensures (Counted w) callback (w.start none taskId) fun _ tx =>
      ∃ placed staged, Good w [] placed tx staged) :
    Consistent (w.commit taskId callback) ∧ Advances w (w.commit taskId callback) := by
  unfold World.commit
  unfold Ensures at h
  have hfailed : ∀ tx, Counted w tx → Consistent (w.failed tx) ∧ Advances w (w.failed tx) :=
    fun tx hcounted => ⟨hw.failed hcounted, fun _ r hr => ⟨r, hr, .refl⟩⟩
  cases hrun : callback (w.start none taskId) with
  | error e tx =>
    rw [hrun] at h
    exact hfailed tx h
  | ok value tx =>
    rw [hrun] at h
    obtain ⟨placed, staged, hgood⟩ := h
    simp only [World.finish, hgood.resolved]
    cases hstore : tx.storage.commitBatch (batch tx.table staged) with
    | error e => exact hfailed tx hgood.next
    | ok storage => exact hgood.stored hw hstore

/-! ## Admission -/

/-- The open commit before it has changed a submission; no submission of the conversation has the
request. -/
structure Ready (w : World) (c : Nat) (requestId : Option String) (tx : Tx)
    (staged : List (Nat × SubmissionRecord)) : Prop where
  good : Good w [] [] tx staged
  first : tx.table.submissionChanges = []
  requests : ∀ request, requestId = some request → ∀ other q, view tx.storage staged other = some q →
    q.conversationId = c → q.requestId ≠ some request

variable {requestId : Option String}

theorem Ready.creatable (h : Ready w c requestId tx staged) (type : SubmissionType)
    (status : SubmissionStatus) (entry : Option Nat) (reason : Option String)
    (hwell : WellFormed (newSubmission c requestId type status entry reason))
    (hentry : ∀ e, entry = some e → Spare tx staged c e) :
    Creatable tx staged (newSubmission c requestId type status entry reason) :=
  ⟨h.first, hwell, hentry, h.requests⟩

def Ended (w : World) (tx : Tx) : Prop := ∃ placed staged, Good w [] placed tx staged

theorem appendEntry_ready (h : Ready w c requestId tx staged) (draft : Transaction.EntryDraft) :
    Ensures (Counted w) (appendEntry c draft) tx fun e tx' =>
      Ready w c requestId tx' staged ∧ Spare tx' staged c e := by
  -- the view does not look at the counter
  have hview : ∀ tx' : Tx, Good w [] [] tx' staged → view tx'.storage staged = view tx.storage staged := by
    intro tx' hgood
    funext id
    rw [view, view, hgood.state, h.good.state]
  apply (appendEntry_ensures h.good draft).mono
  rintro e tx' ⟨hgood, hspare, _, _, hchanges⟩
  exact ⟨⟨hgood, hchanges.trans h.first, hview tx' hgood ▸ h.requests⟩, hspare⟩

theorem writeNow_ensures (h : Ready w c requestId tx staged) (entry : Transaction.EntryDraft) :
    Ensures (Counted w) (writeNow c requestId entry) tx fun _ tx' => Ended w tx' := by
  unfold writeNow
  apply (appendEntry_ready h entry).bind
  rintro e tx' ⟨hready, hspare⟩
  have hcreatable := hready.creatable .write .done (some e) none
    (by simp [WellFormed, newSubmission]) (by rintro _ ⟨⟩; exact hspare)
  apply (createSubmission_ensures hready.good hcreatable (by simp [newSubmission])).bind
  rintro id tx'' ⟨⟨staged', hgood⟩, _⟩
  exact ensures_pure ⟨_, staged', hgood⟩

theorem SubmissionBody.item_spec {body : SubmissionBody} (hbody : body.type ≠ .continue) (id : Nat) :
    ∃ item, body.item id = some item ∧ item.id = id ∧ item.type = body.type := by
  cases body with
  | input content whenBusy rejectIdle entry => exact ⟨_, rfl, rfl, rfl⟩
  | write entry => exact ⟨_, rfl, rfl, rfl⟩
  | «continue» => exact absurd rfl hbody

variable {draft : SubmissionDraft}

/-- **A submission that waits** is created with its item. -/
theorem queueSubmission_ensures (h : Ready w c draft.requestId tx staged)
    (hbody : draft.body.type ≠ .continue) :
    Ensures (Counted w) (queueSubmission c draft) tx fun _ tx' => ∃ staged', Good w [] [] tx' staged' := by
  unfold queueSubmission
  apply (createSubmission_created h.good.next _).bind
  rintro id tx' ⟨rfl, rfl⟩
  apply ensures_items
  apply ensures_setItems
  apply ensures_pure
  obtain ⟨item, hitem, hid, htype⟩ := SubmissionBody.item_spec hbody tx.storage.nextId
  have hcreatable := h.creatable draft.body.type .queued none none
    (by simpa [WellFormed, newSubmission] using hbody) (by rintro _ ⟨⟩)
  have hsound := h.good.sound.queue (hcreatable.new h.good) rfl hid htype.symm List.not_mem_nil
  rw [hitem]
  exact ⟨_, h.good.insert (r := { newSubmission c draft.requestId draft.body.type .queued none none with
    id := tx.storage.nextId }) h.first rfl (by rintro _ ⟨⟩) hsound⟩

theorem prepareBoundary_ensures {α : Type} {modes : QueueModes} {next : Boundary → TxM α}
    {post : α → Tx → Prop} (hcounted : Counted w tx)
    (h : ∀ boundary, Ensures (Counted w) (next boundary) tx post) :
    Ensures (Counted w) (prepareBoundary c modes >>= next) tx post := by
  have hone : Ensures (Counted w) (prepareBoundary c modes) tx fun _ tx' => tx' = tx := by
    unfold prepareBoundary
    apply ensures_tableRead hcounted
    exact fun _ _ => ensures_pure rfl
  apply hone.bind
  rintro boundary tx' rfl
  exact h boundary

/-- A `continue` starts a run at once, or is refused. -/
theorem admitContinue_ensures (h : Ready w c requestId tx staged) (live : LiveState) (now : Nat)
    (modes : QueueModes) :
    Ensures (Counted w) (admitContinue c requestId live now modes) tx fun _ tx' => Ended w tx' := by
  unfold admitContinue
  by_cases hrun : live.run.isSome
  · simp only [hrun, if_true]
    exact ensures_throw_bind h.good.next
  · simp only [hrun]
    apply prepareBoundary_ensures h.good.next
    intro boundary
    have hcreatable := h.creatable .continue .placed none none (by simp [WellFormed, newSubmission])
      (by rintro _ ⟨⟩)
    apply (createSubmission_ensures h.good hcreatable (by simp [newSubmission])).bind
    rintro id tx1 ⟨⟨staged1, hgood1⟩, _⟩
    apply (applyBoundary_ensures hgood1 boundary .final now).bind
    rintro result tx2 ⟨more, staged2, hgood2, husers⟩
    apply (startRun_ensures hgood2 _ _ _).bind
    · rintro _ tx3 ⟨hgood3, _⟩
      exact ensures_pure ⟨_, staged2, hgood3⟩
    · intro other hother
      rcases List.mem_append.mp hother with huser | hself
      · exact husers other huser
      · rw [List.mem_singleton.mp hself]
        exact List.mem_append_right _ List.mem_cons_self

/-- It waits behind the run. -/
theorem admitBehind_ensures (h : Ready w c draft.requestId tx staged)
    (hbody : draft.body.type ≠ .continue) (boundary : Boundary) (now : Nat) :
    Ensures (Counted w) (admitBehind c draft boundary now) tx fun _ tx' => Ended w tx' := by
  unfold admitBehind
  apply (queueSubmission_ensures h hbody).bind
  rintro id tx1 ⟨staged1, hgood1⟩
  apply (applyBoundary_ensures hgood1 boundary .final now).bind
  rintro result tx2 ⟨more, staged2, hgood2, husers⟩
  by_cases hempty : result.users.isEmpty
  · simp only [hempty]
    exact ensures_pure ⟨_, staged2, hgood2⟩
  · simp only [hempty]
    apply (startRun_ensures hgood2 husers _ _).bind
    rintro _ tx3 ⟨hgood3, _⟩
    exact ensures_pure ⟨_, staged2, hgood3⟩

/-- Nothing runs, and it is placed at once. -/
theorem admitIdle_ensures (h : Ready w c requestId tx staged) (boundary : Boundary) (now : Nat)
    (body : SubmissionBody) :
    Ensures (Counted w) (admitIdle c requestId boundary now body) tx fun _ tx' => Ended w tx' := by
  cases body with
  | write entry =>
    unfold admitIdle
    by_cases hstale : isStale boundary.head entry
    · simp only [hstale, if_true]
      have hcreatable := h.creatable .write .unanswered none (some "stale")
        (by simp [WellFormed, newSubmission]) (by rintro _ ⟨⟩)
      apply (createSubmission_ensures h.good hcreatable (by simp [newSubmission])).bind
      rintro id tx' ⟨⟨staged', hgood⟩, _⟩
      exact ensures_pure ⟨_, staged', hgood⟩
    · simp only [hstale]
      exact writeNow_ensures h entry
  | input content whenBusy rejectIdle input =>
    unfold admitIdle appendInput
    apply (appendEntry_ready h _).bind
    rintro e tx1 ⟨hready, hspare⟩
    have hcreatable := hready.creatable .input .placed (some e) none
      (by simp [WellFormed, newSubmission]) (by rintro _ ⟨⟩; exact hspare)
    apply (createSubmission_ensures hready.good hcreatable (by simp [newSubmission])).bind
    rintro id tx2 ⟨⟨staged2, hgood2⟩, _⟩
    apply (startRun_ensures hgood2 (by simp) _ _).bind
    rintro _ tx3 ⟨hgood3, _⟩
    exact ensures_pure ⟨_, staged2, hgood3⟩
  | «continue» => exact ensures_throw h.good.next

theorem refuse_ensures {α : Type} {next : Unit → TxM α} {post : α → Tx → Prop} (hcounted : Counted w tx)
    (busy : Bool) (body : SubmissionBody) (h : Ensures (Counted w) (next ()) tx post) :
    Ensures (Counted w) (body.refuse c busy >>= next) tx post := by
  cases body with
  | input content whenBusy rejectIdle entry =>
    unfold SubmissionBody.refuse
    by_cases hbusy : (busy && decide (whenBusy = some .reject)) = true
    · simp only [hbusy, if_true]
      exact ensures_throw_bind hcounted
    · simp only [hbusy]
      by_cases hidle : (!busy && rejectIdle) = true
      · simp only [hidle, if_true]
        exact ensures_throw_bind hcounted
      · simp only [hidle]
        exact h
  | write entry => exact h
  | «continue» => exact h

theorem admitOther_ensures (h : Ready w c draft.requestId tx staged) (now : Nat)
    (modes : QueueModes) :
    Ensures (Counted w) (admitOther c draft now modes) tx fun _ tx' => Ended w tx' := by
  have hqueue : draft.body.type ≠ .continue →
      Ensures (Counted w)
        (if (tx.live c).run.isSome then do
          let id ← queueSubmission c draft
          pure (⟨id, .queued⟩ : Admission)
        else do
          let boundary ← prepareBoundary c modes
          let items ← items c
          if items.isEmpty then admitIdle c draft.requestId boundary now draft.body
          else admitBehind c draft boundary now) tx fun _ tx' => Ended w tx' := by
    intro hbody
    by_cases hbusy : (tx.live c).run.isSome
    · simp only [hbusy, if_true]
      apply (queueSubmission_ensures h hbody).bind
      rintro id tx' ⟨staged', hgood⟩
      exact ensures_pure ⟨_, staged', hgood⟩
    · simp only [hbusy]
      apply prepareBoundary_ensures h.good.next
      intro boundary
      apply ensures_items
      by_cases hempty : (tx.inbox c).isEmpty
      · simp only [hempty, if_true]
        exact admitIdle_ensures h boundary now draft.body
      · simp only [hempty]
        exact admitBehind_ensures h hbody boundary now
  unfold admitOther
  apply ensures_liveDoc
  apply refuse_ensures h.good.next
  cases hbody : draft.body with
  | «continue» => exact admitContinue_ensures h _ now modes
  | input content whenBusy rejectIdle entry =>
    rw [hbody] at hqueue
    exact hqueue (by simp [SubmissionBody.type])
  | write entry =>
    rw [hbody] at hqueue
    exact hqueue (by simp [SubmissionBody.type])

/-- A request id that is known is not admitted again. -/
theorem findRequest_ensures (hw : Consistent w) {taskId : Option Nat} :
    Ensures (Counted w) (findRequest c draft) (w.start none taskId) fun existing tx' =>
      tx' = w.start none taskId ∧ (existing = none → Ready w c draft.requestId tx' []) := by
  have hready : (∀ request, draft.requestId = some request → ∀ other q,
      w.storage.state.submissions other = some q → q.conversationId = c → q.requestId ≠ some request) →
      Ready w c draft.requestId (w.start none taskId) [] :=
    fun h => ⟨hw.start none taskId, rfl, h⟩
  unfold findRequest
  cases hrequest : draft.requestId with
  | none =>
    refine ensures_pure ⟨rfl, fun _ => ?_⟩
    rw [hrequest] at hready
    exact hready (by rintro _ ⟨⟩)
  | some requestId =>
    apply ensures_tableRead (counted_start w none taskId)
    intro existing hread
    cases existing with
    | some existing =>
      simp only
      by_cases htype : existing.type ≠ draft.body.type
      · rw [if_pos htype]
        exact ensures_throw (counted_start w none taskId)
      · rw [if_neg htype]
        exact ensures_pure ⟨rfl, by rintro ⟨⟩⟩
    | none =>
      refine ensures_pure ⟨rfl, fun _ => ?_⟩
      rw [hrequest] at hready
      apply hready
      rintro request ⟨⟩ other q hq hconversation hqrequest
      -- the index would have found it
      have hindex := (hw.requests c requestId other).mpr ⟨q, hq, hconversation, hqrequest⟩
      have hnone : w.storage.state.submissionByRequest c requestId = none := Except.ok.inj hread
      rw [State.submissionByRequest, hindex, Option.bind_some, hq] at hnone
      cases hnone

theorem check_ensures {α : Type} {next : Unit → TxM α} {post : α → Tx → Prop} (hcounted : Counted w tx)
    (body : SubmissionBody) (h : Ensures (Counted w) (next ()) tx post) :
    Ensures (Counted w) (body.check >>= next) tx post := by
  cases body with
  | input content whenBusy rejectIdle entry =>
    cases entry with
    | none => exact h
    | some entry =>
      unfold SubmissionBody.check checkInputEntry
      by_cases hkind : (entry.kind.isEmpty || entry.kind.startsWith "pi.") = true
      · simp only [hkind, if_true]
        exact ensures_throw_bind hcounted
      · simp only [hkind]
        exact h
  | write entry => exact h
  | «continue» => exact h

/-- **An admission.** -/
theorem admitSubmission_ensures (hw : Consistent w) (draft : SubmissionDraft) (now : Nat)
    (modes : QueueModes) (taskId : Option Nat) :
    Ensures (Counted w) (admitSubmission c draft now modes) (w.start none taskId) fun _ tx' =>
      Ended w tx' := by
  unfold admitSubmission
  apply check_ensures (counted_start w none taskId)
  apply (findRequest_ensures hw).bind
  rintro existing tx' ⟨rfl, hready⟩
  cases existing with
  | some existing => exact ensures_pure ⟨[], [], hw.start none taskId⟩
  | none =>
    have hready := hready rfl
    apply ensures_items
    cases hbody : draft.body with
    | write entry =>
      simp only
      split
      · exact writeNow_ensures hready entry
      · exact admitOther_ensures hready now modes
    | input content whenBusy rejectIdle entry => exact admitOther_ensures hready now modes
    | «continue» => exact admitOther_ensures hready now modes

/-! ## Withdrawal -/

/-- The items that are left are those that are not gone. -/
structure Left (items left : List InboxItem) (gone : List Nat) : Prop where
  sublist : left.Sublist items
  mem : ∀ item ∈ items, item ∈ left ↔ item.id ∉ gone
  gone : ∀ id ∈ gone, ∃ item ∈ items, item.id = id

theorem Left.erase {items left : List InboxItem} {gone : List Nat} (h : Left items left gone)
    (hsorted : items.Pairwise (·.id < ·.id)) {index : Nat} {item : InboxItem}
    (hitem : left[index]? = some item) : Left items (left.eraseIdx index) (item.id :: gone) where
  sublist := (List.eraseIdx_sublist _ _).trans h.sublist
  mem := by
    intro other hother
    rw [List.mem_cons, not_or, ← h.mem other hother]
    have hleft := hsorted.sublist h.sublist
    rw [show left.eraseIdx index = [index].foldl List.eraseIdx left from rfl,
      Splice.mem_foldl_eraseIdx (List.pairwise_singleton _ _)]
    constructor
    · rintro ⟨i, hi, hget⟩
      refine ⟨?_, List.mem_of_getElem? hget⟩
      intro hid
      exact hi (by simpa using index_eq hleft hget hitem hid)
    · rintro ⟨hid, hmem⟩
      obtain ⟨i, hget⟩ := List.mem_iff_getElem?.mp hmem
      refine ⟨i, ?_, hget⟩
      rw [List.mem_singleton]
      rintro rfl
      rw [hitem, Option.some.injEq] at hget
      exact hid (by rw [hget])
  gone := by
    intro id hid
    rcases List.mem_cons.mp hid with rfl | hold
    · exact ⟨item, h.sublist.subset (List.mem_of_getElem? hitem), rfl⟩
    · exact h.gone id hold

theorem Left.all (items : List InboxItem) : Left items items [] :=
  ⟨List.Sublist.refl _, fun _ hitem => by simpa using hitem, fun _ hid => absurd hid List.not_mem_nil⟩

theorem Good.keepLeft {gone : List Nat} (h : Good w gone placed tx staged) {left : List InboxItem}
    (hleft : Left (tx.inbox c) left gone) :
    Good w [] placed { tx with inbox := Function.update tx.inbox c left } staged := by
  refine { h with sound := h.sound.drop hleft.sublist hleft.mem ?_ }
  intro c' item hitem hid
  obtain ⟨other, hother, heq⟩ := hleft.gone _ hid
  exact h.sound.item_eq hitem hother heq.symm

/-- The waiting inputs are withdrawn, one after the other. -/
theorem withdrawFrom_ensures {gone : List Nat} {items left : List InboxItem} (reason : String)
    (hsorted : items.Pairwise (·.id < ·.id)) (hleft : Left items left gone)
    (h : Placings w gone placed c items tx) (index : Nat) :
    Ensures (Counted w) (withdrawFrom reason index left) tx fun left' tx' =>
      ∃ gone', Placings w gone' placed c items tx' ∧ Left items left' gone' := by
  induction index generalizing gone left tx with
  | zero => exact ensures_pure ⟨gone, h, hleft⟩
  | succ index ih =>
    rw [withdrawFrom]
    cases hitem : left[index]? with
    | none => exact ih hleft h
    | some item =>
      cases item with
      | write id entry => exact ih hleft h
      | user id mode content entry =>
        obtain ⟨⟨staged, hgood⟩, hinbox⟩ := h
        have hin := List.mem_of_getElem? hitem
        have hmem := hleft.sublist.subset hin
        apply ensures_changeSubmission
        apply ih (hleft.erase hsorted hitem)
        exact ⟨hgood.withdraw (hinbox ▸ hmem) ((hleft.mem _ hmem).mp hin) reason none, hinbox⟩

theorem withdrawQueuedInputs_ensures (h : Good w [] placed tx staged) (reason : String) :
    Ensures (Counted w) (withdrawQueuedInputs c reason) tx fun _ tx' => Ended w tx' := by
  unfold withdrawQueuedInputs
  apply ensures_items
  apply (withdrawFrom_ensures reason (h.sound.sorted c) (Left.all _) ⟨⟨staged, h⟩, rfl⟩ _).bind
  rintro left tx' ⟨gone, ⟨⟨staged', hgood⟩, hinbox⟩, hleft⟩
  show Ended w { tx' with inbox := Function.update tx'.inbox c left }
  exact ⟨placed, staged', hgood.keepLeft (hinbox ▸ hleft)⟩

theorem removeInboxItem_ensures {item : InboxItem} (hitem : item ∈ tx.inbox c)
    (h : Good w [item.id] placed tx staged) :
    Ensures (Counted w) (removeInboxItem c item.id) tx fun _ tx' => Ended w tx' := by
  unfold removeInboxItem
  apply ensures_items
  have hindex : (tx.inbox c).findIdx (fun other => other.id = item.id) < (tx.inbox c).length :=
    List.findIdx_lt_length_of_exists ⟨item, hitem, by simp⟩
  simp only [hindex, if_true]
  obtain ⟨found, hfound⟩ : ∃ found, (tx.inbox c)[(tx.inbox c).findIdx fun other => other.id = item.id]?
      = some found := ⟨_, List.getElem?_eq_getElem hindex⟩
  have hid : found.id = item.id := by
    have hget := List.findIdx_getElem (w := hindex)
    rw [List.getElem?_eq_getElem hindex, Option.some.injEq] at hfound
    rw [hfound] at hget
    simpa using hget
  have hleft := (Left.all (tx.inbox c)).erase (h.sound.sorted c) hfound
  rw [hid] at hleft
  exact ⟨placed, staged, h.keepLeft hleft⟩

/-- **One submission is aborted.** -/
theorem abort_ensures (hw : Consistent w) (id : Nat) (conversationId taskId : Option Nat) :
    Ensures (Counted w) (abort id conversationId) (w.start none taskId) fun _ tx' => Ended w tx' := by
  have hstart := hw.start none taskId
  have hended : Ended w (w.start none taskId) := ⟨[], [], hstart⟩
  unfold abort
  apply ensures_tableRead (counted_start w none taskId)
  intro record hread
  have hrecord : w.storage.state.submissions id = record := Except.ok.inj hread
  cases record with
  | none => exact ensures_pure hended
  | some r =>
    simp only
    split
    · exact ensures_pure hended
    · cases hstatus : r.status with
      | queued =>
        apply ensures_changeSubmission
        obtain ⟨item, hitem, rfl⟩ := hw.sound.listed id r hrecord hstatus
        obtain ⟨staged, hgood⟩ := hstart.withdraw hitem List.not_mem_nil "aborted" none
        apply (removeInboxItem_ensures hitem hgood).bind
        exact fun _ _ h => ensures_pure h
      | placed => exact ensures_pure hended
      | done => exact ensures_pure hended
      | unanswered => exact ensures_pure hended

/-! ## Every command -/

theorem follow_ensures (hgood : Good w [] placed tx staged) {users : List Nat}
    (husers : ∀ id ∈ users, id ∈ placed) (first : Option Nat) (follow : Follow) :
    Ensures (Counted w)
      (match follow with
        | .join => joinRun c users
        | .start => if users.isEmpty then pure () else startRun c users first false
        | .leave => pure ()) tx fun _ tx' => Ended w tx' := by
  cases follow with
  | join =>
    apply (joinRun_ensures hgood husers).mono
    rintro _ tx' ⟨staged', hgood'⟩
    exact ⟨_, staged', hgood'⟩
  | start =>
    by_cases hempty : users.isEmpty
    · simp only [hempty, if_true]
      exact ensures_pure ⟨_, staged, hgood⟩
    · simp only [hempty]
      apply (startRun_ensures hgood husers _ _).mono
      rintro _ tx' ⟨hgood', _⟩
      exact ⟨_, staged, hgood'⟩
  | leave => exact ensures_pure ⟨_, staged, hgood⟩

/-- **A boundary** places what it selects, and the run goes on, ends or begins. -/
theorem runBoundary_ensures (h : Good w [] placed tx staged) (kind : BoundaryKind) (now : Nat)
    (modes : QueueModes) (ending : Option RunEnd) (follow : Follow) :
    Ensures (Counted w) (runBoundary c kind now modes ending follow) tx fun _ tx' => Ended w tx' := by
  unfold runBoundary
  apply prepareBoundary_ensures h.next
  intro boundary
  apply (applyBoundary_ensures h boundary kind now).bind
  rintro result tx1 ⟨more, staged1, hgood1, husers⟩
  cases ending with
  | none => exact follow_ensures hgood1 husers _ follow
  | some ending =>
    apply (endRun_ensures hgood1 ending).bind
    rintro _ tx2 ⟨hgood2, _⟩
    obtain ⟨staged2, hgood2⟩ := hgood2
    exact follow_ensures hgood2 husers _ follow

/-- What other parts of the session write. -/
theorem other_consistent (hw : Consistent w) (writes : List StorageWrite) :
    Consistent { w with storage := w.storage.store (writes.filter fun write => !isSubmission write) }
      ∧ Advances w { w with storage := w.storage.store (writes.filter fun write => !isSubmission write) } := by
  have hnone : submissionValues (writes.filter fun write => !isSubmission write) = [] := by
    apply List.filterMap_eq_nil_iff.mpr
    intro write hwrite
    have hkind := (List.mem_filter.mp hwrite).2
    cases write with
    | submission _ => cases hkind
    | conversation _ | entry _ | task _ | create _ _ _ | copy _ _ | change _ _ | retire _ => rfl
  unfold Memory.store
  cases hstore : w.storage.commitBatch (writes.filter fun write => !isSubmission write) with
  | error e => exact ⟨hw, Advances.refl w⟩
  | ok storage =>
    obtain ⟨htables, hnext⟩ := Memory.commitAt_tables hstore
    have hsubmissions : storage.state.submissions = w.storage.state.submissions := by
      rw [htables.submissions, Memory.putTables_submissions, hnone]
      rfl
    refine ⟨⟨?_, ?_, hw.noted.commitAt hstore, ?_⟩, ?_⟩
    · show Sound [] storage.state.submissions w.inbox w.live storage.nextId
      rw [hsubmissions]
      exact hw.sound.mono (Memory.le_nextId_putTables.trans hnext)
    · have hputs : Memory.RequestsExact (w.storage.putTables w.storage.nextSeq
          (writes.filter fun write => !isSubmission write)).state := by
        apply Memory.putTables_requests hw.requests
        · rw [hnone]
          exact List.nodup_nil
        · rw [hnone]
          exact fun _ hmem => absurd hmem List.not_mem_nil
        · rw [hnone]
          exact hw.sound.requests
      intro conversationId requestId id
      show storage.state.submissionIdsByRequest conversationId requestId = some id
        ↔ ∃ record, storage.state.submissions id = some record ∧ _
      rw [htables.requests, htables.submissions]
      exact hputs conversationId requestId id
    · intro id r e hr he
      change storage.state.submissions id = some r at hr
      rw [hsubmissions] at hr
      obtain ⟨entry, hentry, hsame⟩ := hw.entries id r e hr he
      exact ⟨entry, Memory.commitAt_entries hw.noted hstore hentry, hsame⟩
    · intro id r hr
      exact ⟨r, by rw [show ({ w with storage := storage } : World).storage = storage from rfl,
        hsubmissions, hr], .refl⟩

/-- **Every command** keeps the agreement and moves submissions only. -/
theorem World.step_consistent (hw : Consistent w) (command : Option Nat × Command) :
    Consistent (w.step command) ∧ Advances w (w.step command) := by
  obtain ⟨taskId, command⟩ := command
  cases command with
  | submit conversationId draft now modes =>
    exact commit_consistent hw (admitSubmission_ensures hw draft now modes taskId)
  | boundary conversationId kind now modes ending follow =>
    exact commit_consistent hw (runBoundary_ensures (hw.start none taskId) kind now modes ending follow)
  | abort id conversationId => exact commit_consistent hw (abort_ensures hw id conversationId taskId)
  | withdraw conversationId reason =>
    exact commit_consistent hw (withdrawQueuedInputs_ensures (hw.start none taskId) reason)
  | endRun conversationId ending =>
    apply commit_consistent hw ((endRun_ensures (hw.start none taskId) ending).mono _)
    rintro _ tx ⟨⟨staged, hgood⟩, _⟩
    exact ⟨[], staged, hgood⟩
  | holdRun conversationId answer =>
    apply commit_consistent hw ((holdRun_ensures (hw.start none taskId) answer).mono _)
    rintro _ tx ⟨staged, hgood⟩
    exact ⟨[], staged, hgood⟩
  | other writes => exact other_consistent hw writes
  | mint =>
    refine ⟨⟨hw.sound.mono (Nat.le_succ _), hw.requests, ⟨hw.noted.1, hw.noted.2⟩, hw.entries⟩, ?_⟩
    exact fun _ r hr => ⟨r, hr, .refl⟩

end

theorem World.init_consistent : Consistent World.init where
  sound :=
    { keyed := by rintro _ _ ⟨⟩
      wellFormed := by rintro _ _ ⟨⟩
      entries := by rintro _ _ _ ⟨⟩
      sorted := fun _ => List.Pairwise.nil
      owned := fun _ _ hitem => absurd hitem List.not_mem_nil
      listed := by rintro _ _ ⟨⟩
      entryUnique := by rintro _ _ _ _ _ ⟨⟩
      requests := by rintro _ _ _ _ _ ⟨⟩
      inputs := by rintro _ _ ⟨⟩ }
  requests := by
    intro conversationId requestId id
    constructor
    · rintro ⟨⟩
    · rintro ⟨_, ⟨⟩, _⟩
  noted := ⟨by rintro _ ⟨⟩, by rintro _ ⟨⟩⟩
  entries := by rintro _ _ _ ⟨⟩

theorem Reachable.consistent {w : World} (h : Reachable World.step always World.init w) : Consistent w :=
  h.invariant Consistent World.init_consistent fun _ command hw _ => (World.step_consistent hw command).1

theorem Reachable.advances {w w' : World} (hw : Consistent w) (h : Reachable World.step always w w') :
    Advances w w' :=
  h.relation Consistent Advances Advances.refl (fun _ _ _ => Advances.trans)
    (fun _ command hw _ => (World.step_consistent hw command).1)
    (fun _ command hw _ => (World.step_consistent hw command).2) hw

/-! ## Agreement along every run -/

/-- What a run says of the queue and of the submissions that have gone through it. -/
structure QueueExact (w : World) : Prop where
  /-- The items are in the order of their ids, so each is there once. -/
  sorted : ∀ c, (w.inbox c).Pairwise (·.id < ·.id)
  exact : ∀ c id, (∃ item ∈ w.inbox c, item.id = id)
    ↔ ∃ r, w.storage.state.submissions id = some r ∧ r.status = .queued ∧ r.conversationId = c
  /-- A placed or done submission that is no continue has an entry of its own. -/
  wellFormed : ∀ id r, w.storage.state.submissions id = some r → WellFormed r
  entries : ∀ id r e, w.storage.state.submissions id = some r → r.entry = some e →
    (∃ entry, w.storage.state.entries e = some entry ∧ entry.conversationId = r.conversationId)
      ∧ ∀ id' r', w.storage.state.submissions id' = some r' → r'.entry = some e → id' = id
  requests : ∀ id id' r r' request, w.storage.state.submissions id = some r →
    w.storage.state.submissions id' = some r' → r.conversationId = r'.conversationId →
    r.requestId = some request → r'.requestId = some request → id = id'

theorem Consistent.queueExact {w : World} (h : Consistent w) : QueueExact w where
  sorted := h.sound.sorted
  exact := by
    intro c id
    constructor
    · rintro ⟨item, hitem, rfl⟩
      obtain ⟨r, hr, hconversation, _, hqueued⟩ := h.sound.owned c item hitem
      exact ⟨r, hr, hqueued.mpr List.not_mem_nil, hconversation⟩
    · rintro ⟨r, hr, hqueued, rfl⟩
      exact h.sound.listed id r hr hqueued
  wellFormed := h.sound.wellFormed
  entries := by
    intro id r e hr he
    exact ⟨h.entries id r e hr he, fun id' r' hr' he' => h.sound.entryUnique id' id r' r e hr' hr he' he⟩
  requests := h.sound.requests

/-- **The queue is exact** in every state that a session reaches, and from there every submission only
moves: it stays, and keeps the entry that it was placed at. -/
theorem inbox_queue_exact {w : World} (h : Reachable World.step always World.init w) :
    QueueExact w ∧ ∀ w', Reachable World.step always w w' →
      ∀ id r, w.storage.state.submissions id = some r →
        ∃ r', w'.storage.state.submissions id = some r' ∧ Moves r r'
          ∧ ∀ e, r.entry = some e → r'.entry = some e := by
  have hw := Reachable.consistent h
  refine ⟨hw.queueExact, ?_⟩
  intro w' hrun id r hr
  obtain ⟨r', hr', hmoves⟩ := Reachable.advances hw hrun id r hr
  exact ⟨r', hr', hmoves, fun e he => hmoves.entry (hw.sound.wellFormed id r hr) he⟩

def steered : List (Option Nat × Command) :=
  [(none, .other [.conversation ⟨1, none, none⟩]),
    (none, .submit 1 ⟨none, .input (.str "first") none false none⟩ 0 ⟨.all, .all⟩),
    (none, .submit 1 ⟨some "request", .input (.str "second") (some .steer) false none⟩ 0 ⟨.all, .all⟩)]

theorem inbox_queue_exact_steered :
    ((after World.step World.init steered 3).inbox 1).length = 1
      ∧ QueueExact (after World.step World.init steered 3) :=
  ⟨by decide +kernel, (inbox_queue_exact (after_reachable 3)).1⟩

def continued : List (Option Nat × Command) :=
  [(none, .other [.conversation ⟨1, none, none⟩]),
    (none, .submit 1 ⟨none, .continue⟩ 0 ⟨.all, .all⟩)]

/-- A continue is placed without an entry. -/
theorem continue_placed_without_entry :
    ¬ ∀ w, Reachable World.step always World.init w → ∀ id r,
      w.storage.state.submissions id = some r → r.status = .placed → r.entry.isSome := by
  intro h
  have hplaced : ((after World.step World.init continued 2).storage.state.submissions 2).any
      (fun r => r.status = .placed && r.entry.isNone) = true := by decide +kernel
  cases hr : (after World.step World.init continued 2).storage.state.submissions 2 with
  | none =>
    rw [hr] at hplaced
    cases hplaced
  | some r =>
    rw [hr, Option.any_some, Bool.and_eq_true, decide_eq_true_eq] at hplaced
    have hentry := h _ (after_reachable 2) 2 r hr hplaced.1
    rw [Option.isNone_iff_eq_none.mp hplaced.2] at hentry
    cases hentry

end ThreeXhaust.Harness
