import ThreeXhaust.Durable.Memory
import ThreeXhaust.Lib.Except

/-!
# What a stored batch does to the tables

A batch that `MemoryStorage` accepts puts its records into the tables one after the other; documents
are the business of the actions behind them. `Put` is that for one table, and the lemmas here say of
each table what the batch makes of it.
-/

namespace ThreeXhaust.Durable

/-! ## One table -/

section Put

variable {α : Type} (key : α → Nat)

/-- The table after storing `values` in order. -/
def putAll (table : Nat → Option α) (values : List α) : Nat → Option α :=
  values.foldl (fun table value => Function.update table (key value) (some value)) table

variable {key} {table : Nat → Option α} {values : List α}

theorem putAll_cons (value : α) (values : List α) :
    putAll key table (value :: values)
      = putAll key (Function.update table (key value) (some value)) values := rfl

theorem putAll_of_notMem {id : Nat} (h : id ∉ values.map key) : putAll key table values id = table id := by
  induction values generalizing table with
  | nil => rfl
  | cons value rest ih =>
    simp only [List.map_cons, List.mem_cons, not_or] at h
    rw [putAll_cons, ih h.2, Function.update_of_ne h.1]

theorem putAll_of_mem (hn : (values.map key).Nodup) {value : α} (h : value ∈ values) :
    putAll key table values (key value) = some value := by
  induction values generalizing table with
  | nil => cases h
  | cons other rest ih =>
    rw [List.map_cons, List.nodup_cons] at hn
    rw [putAll_cons]
    rcases List.mem_cons.mp h with rfl | h
    · rw [putAll_of_notMem hn.1, Function.update_self]
    · exact ih hn.2 h

theorem putAll_cases {id : Nat} {value : α} (h : putAll key table values id = some value) :
    (value ∈ values ∧ key value = id) ∨ table id = some value := by
  induction values generalizing table with
  | nil => exact .inr h
  | cons other rest ih =>
    rw [putAll_cons] at h
    rcases ih h with ⟨hmem, hkey⟩ | hold
    · exact .inl ⟨List.mem_cons_of_mem _ hmem, hkey⟩
    · by_cases hid : id = key other
      · subst hid
        rw [Function.update_self, Option.some.injEq] at hold
        subst hold
        exact .inl ⟨List.mem_cons_self, rfl⟩
      · rw [Function.update_of_ne hid] at hold
        exact .inr hold

theorem putAll_isSome {id : Nat} (h : (table id).isSome) : (putAll key table values id).isSome := by
  induction values generalizing table with
  | nil => exact h
  | cons value rest ih =>
    rw [putAll_cons]
    apply ih
    by_cases hid : id = key value
    · rw [hid, Function.update_self]
      rfl
    · rw [Function.update_of_ne hid]
      exact h

end Put

/-! ## The records of a batch -/

def entryValues (writes : List StorageWrite) : List EntryRecord :=
  writes.filterMap fun write => match write with
    | .entry value => some value
    | _ => none

def submissionValues (writes : List StorageWrite) : List SubmissionRecord :=
  writes.filterMap fun write => match write with
    | .submission value => some value
    | _ => none

namespace Memory

variable {m m' : Memory} {writes : List StorageWrite} {seq : Nat}

def putTables (seq : Nat) (m : Memory) (writes : List StorageWrite) : Memory :=
  writes.foldl (applyWrite seq) m

theorem putTables_cons (write : StorageWrite) (writes : List StorageWrite) :
    m.putTables seq (write :: writes) = (applyWrite seq m write).putTables seq writes := rfl

theorem putTables_entries :
    (m.putTables seq writes).state.entries = putAll (·.id) m.state.entries (entryValues writes) := by
  induction writes generalizing m with
  | nil => rfl
  | cons write rest ih =>
    rw [putTables_cons, ih]
    cases write <;> rfl

theorem putTables_submissions :
    (m.putTables seq writes).state.submissions
      = putAll (·.id) m.state.submissions (submissionValues writes) := by
  induction writes generalizing m with
  | nil => rfl
  | cons write rest ih =>
    rw [putTables_cons, ih]
    cases write <;> rfl

theorem le_nextId_applyWrite (write : StorageWrite) : m.nextId ≤ (applyWrite seq m write).nextId := by
  cases write <;> first | exact le_max_left _ _ | exact le_refl _

theorem le_nextId_putTables : m.nextId ≤ (m.putTables seq writes).nextId := by
  induction writes generalizing m with
  | nil => exact le_refl _
  | cons write rest ih => exact (le_nextId_applyWrite write).trans ih

/-! ## A commit -/

structure SameTables (s t : State) : Prop where
  conversations : t.conversations = s.conversations
  entries : t.entries = s.entries
  tasks : t.tasks = s.tasks
  submissions : t.submissions = s.submissions
  requests : t.submissionIdsByRequest = s.submissionIdsByRequest

theorem applyDocumentAction_tables (entry : Nat × DocumentAction) :
    SameTables m.state (applyDocumentAction seq m entry).state
      ∧ m.nextId ≤ (applyDocumentAction seq m entry).nextId := by
  unfold applyDocumentAction
  split
  · exact ⟨⟨rfl, rfl, rfl, rfl, rfl⟩, le_max_left _ _⟩
  · rename_i stored _ _
    unfold changeDocument
    refine ⟨?_, le_refl _⟩
    cases entry.2.retire <;> exact ⟨rfl, rfl, rfl, rfl, rfl⟩
  · exact ⟨⟨rfl, rfl, rfl, rfl, rfl⟩, le_refl _⟩

theorem foldl_applyDocumentAction_tables (actions : List (Nat × DocumentAction)) :
    SameTables m.state (actions.foldl (applyDocumentAction seq) m).state
      ∧ m.nextId ≤ (actions.foldl (applyDocumentAction seq) m).nextId := by
  induction actions generalizing m with
  | nil => exact ⟨⟨rfl, rfl, rfl, rfl, rfl⟩, le_refl _⟩
  | cons entry rest ih =>
    have hstep : SameTables m.state (applyDocumentAction seq m entry).state
        ∧ m.nextId ≤ (applyDocumentAction seq m entry).nextId := applyDocumentAction_tables entry
    obtain ⟨hone, hle⟩ := hstep
    obtain ⟨hrest, hle'⟩ := ih (m := applyDocumentAction seq m entry)
    exact ⟨⟨hrest.1.trans hone.1, hrest.2.trans hone.2, hrest.3.trans hone.3, hrest.4.trans hone.4,
      hrest.5.trans hone.5⟩, hle.trans hle'⟩

variable {s : State}

theorem putTables_resolved {changed : List Nat} {resolved : List StorageWrite}
    (h : writes.mapM (resolveCopy s changed) = .ok resolved) :
    m.putTables seq resolved = m.putTables seq writes := by
  induction writes generalizing m resolved with
  | nil =>
    cases h
    rfl
  | cons write rest ih =>
    rw [List.mapM_cons] at h
    obtain ⟨first, hfirst, h⟩ := Except.bind_eq_ok.mp h
    obtain ⟨others, hothers, h⟩ := Except.bind_eq_ok.mp h
    cases h
    rw [putTables_cons, putTables_cons, ih hothers]
    congr 1
    cases write with
    | copy record source =>
      simp only [resolveCopy] at hfirst
      split at hfirst
      · cases hfirst
      · split at hfirst
        · split at hfirst
          · cases hfirst
            rfl
          · cases hfirst
        · cases hfirst
    | conversation _ | entry _ | task _ | submission _ | create _ _ _ | change _ _ | retire _ =>
      cases hfirst
      rfl

/-- **A commit that is stored** puts the records of its batch into the tables. -/
theorem commitAt_tables (h : m.commitAt writes seq = .ok m') :
    SameTables (m.putTables seq writes).state m'.state
      ∧ (m.putTables seq writes).nextId ≤ m'.nextId := by
  unfold commitAt at h
  rw [Except.ite_error_eq_ok] at h
  obtain ⟨resolved, hresolved, h⟩ := Except.bind_eq_ok.mp h.2
  obtain ⟨_, _, h⟩ := Except.bind_eq_ok.mp h
  obtain ⟨actions, _, h⟩ := Except.bind_eq_ok.mp h
  obtain ⟨_, _, h⟩ := Except.bind_eq_ok.mp h
  cases h
  rw [← putTables_resolved hresolved]
  exact foldl_applyDocumentAction_tables actions

/-! ## Ids -/

variable {table : TableName}

theorem checkId_ok {id : Nat} {existing earlier : Option TableName}
    (h : checkId table id existing earlier = .ok ()) :
    existing = none ∨ existing = some table ∧ table.writtenOnce = false := by
  cases existing with
  | none => exact .inl rfl
  | some other =>
    right
    simp only [checkId, Except.ite_error_eq_ok] at h
    obtain ⟨hnot, _⟩ := h
    rw [not_or, Bool.not_eq_true, ne_eq, not_not] at hnot
    exact ⟨by rw [hnot.2], hnot.1⟩

/-- A batch that passes the check stores a record under an id that is free, or that names a task or a
submission already. -/
theorem checkGlobalIds_ok {claimed : Nat → Option TableName} {id : Nat} {write : StorageWrite}
    (h : checkGlobalIds s claimed writes = .ok ()) (hwrite : write ∈ writes)
    (hclaims : write.claims = some (table, id)) :
    s.recordTypes id = none ∨ s.recordTypes id = some table ∧ table.writtenOnce = false := by
  induction writes generalizing claimed with
  | nil => cases hwrite
  | cons first rest ih =>
    rw [checkGlobalIds] at h
    rcases List.mem_cons.mp hwrite with rfl | hrest
    · rw [hclaims] at h
      obtain ⟨_, hid, _⟩ := Except.bind_eq_ok.mp h
      exact checkId_ok hid
    · cases hfirst : first.claims with
      | none =>
        rw [hfirst] at h
        exact ih h hrest
      | some claim =>
        rw [hfirst] at h
        obtain ⟨_, _, h⟩ := Except.bind_eq_ok.mp h
        exact ih h hrest

theorem resolveCopy_claims {changed : List Nat} {write resolved : StorageWrite}
    (h : resolveCopy s changed write = .ok resolved) : resolved.claims = write.claims := by
  cases write with
  | copy record source =>
    simp only [resolveCopy] at h
    split at h
    · cases h
    · split at h
      · split at h
        · cases h
          rfl
        · cases h
      · cases h
  | conversation _ | entry _ | task _ | submission _ | create _ _ _ | change _ _ | retire _ =>
    cases h
    rfl

theorem mem_mapM_ok {ε α β : Type} {f : α → Except ε β} {xs : List α} {ys : List β}
    (h : xs.mapM f = .ok ys) {x : α} (hx : x ∈ xs) : ∃ y ∈ ys, f x = .ok y := by
  induction xs generalizing ys with
  | nil => cases hx
  | cons first rest ih =>
    rw [List.mapM_cons] at h
    obtain ⟨y, hy, h⟩ := Except.bind_eq_ok.mp h
    obtain ⟨others, hothers, h⟩ := Except.bind_eq_ok.mp h
    cases h
    rcases List.mem_cons.mp hx with rfl | hx
    · exact ⟨y, List.mem_cons_self, hy⟩
    · obtain ⟨z, hz, hf⟩ := ih hothers hx
      exact ⟨z, List.mem_cons_of_mem _ hz, hf⟩

/-- **A commit that is stored** has a free id for every record, or one of its own table. -/
theorem commitAt_ids {id : Nat} {write : StorageWrite} (h : m.commitAt writes seq = .ok m')
    (hwrite : write ∈ writes) (hclaims : write.claims = some (table, id)) :
    m.state.recordTypes id = none
      ∨ m.state.recordTypes id = some table ∧ table.writtenOnce = false := by
  unfold commitAt at h
  rw [Except.ite_error_eq_ok] at h
  obtain ⟨resolved, hresolved, h⟩ := Except.bind_eq_ok.mp h.2
  obtain ⟨_, hids, _⟩ := Except.bind_eq_ok.mp h
  obtain ⟨other, hother, hcopy⟩ := mem_mapM_ok hresolved hwrite
  exact checkGlobalIds_ok hids hother ((resolveCopy_claims hcopy).trans hclaims)

structure Noted (s : State) : Prop where
  conversations : ∀ id, (s.conversations id).isSome → (s.recordTypes id).isSome
  entries : ∀ id, (s.entries id).isSome → (s.recordTypes id).isSome

theorem isSome_update {α : Type} {table : Nat → Option α} {id other : Nat} {value : α}
    (h : other = id ∨ (table other).isSome) :
    (Function.update table id (some value) other).isSome := by
  by_cases hid : other = id
  · rw [hid, Function.update_self]
    rfl
  · rw [Function.update_of_ne hid]
    exact h.resolve_left hid

theorem isSome_of_update {α : Type} {table : Nat → Option α} {id other : Nat} {value : α}
    (h : (Function.update table id (some value) other).isSome) : other = id ∨ (table other).isSome := by
  by_cases hid : other = id
  · exact .inl hid
  · rw [Function.update_of_ne hid] at h
    exact .inr h

theorem Noted.claim (h : Noted s) (table : TableName) (id : Nat) :
    Noted { s with recordTypes := Function.update s.recordTypes id (some table) } :=
  ⟨fun other hother => isSome_update (.inr (h.conversations other hother)),
    fun other hother => isSome_update (.inr (h.entries other hother))⟩

theorem Noted.applyWrite (h : Noted m.state) (write : StorageWrite) :
    Noted (applyWrite seq m write).state := by
  cases write with
  | conversation value =>
    refine ⟨fun id hid => ?_, fun id hid => isSome_update (.inr (h.entries id hid))⟩
    exact isSome_update ((isSome_of_update hid).imp_right (h.conversations id))
  | entry value =>
    refine ⟨fun id hid => isSome_update (.inr (h.conversations id hid)), fun id hid => ?_⟩
    exact isSome_update ((isSome_of_update hid).imp_right (h.entries id))
  | task value => exact ⟨(h.claim .task value.id).1, (h.claim .task value.id).2⟩
  | submission value => exact ⟨(h.claim .submission value.id).1, (h.claim .submission value.id).2⟩
  | create _ _ _ | copy _ _ | change _ _ | retire _ => exact h

theorem Noted.applyDocumentAction (h : Noted m.state) (entry : Nat × DocumentAction) :
    Noted (applyDocumentAction seq m entry).state := by
  unfold Memory.applyDocumentAction
  split
  · rename_i create _
    exact ⟨(h.claim .document create.id).1, (h.claim .document create.id).2⟩
  · unfold changeDocument
    cases entry.2.retire <;> exact ⟨h.1, h.2⟩
  · exact h

theorem Noted.commitAt (h : Noted m.state) (hm : m.commitAt writes seq = .ok m') : Noted m'.state := by
  unfold Memory.commitAt at hm
  rw [Except.ite_error_eq_ok] at hm
  obtain ⟨resolved, _, hm⟩ := Except.bind_eq_ok.mp hm.2
  obtain ⟨_, _, hm⟩ := Except.bind_eq_ok.mp hm
  obtain ⟨actions, _, hm⟩ := Except.bind_eq_ok.mp hm
  obtain ⟨_, _, hm⟩ := Except.bind_eq_ok.mp hm
  cases hm
  have hwrites : Noted (resolved.foldl (Memory.applyWrite seq) m).state :=
    List.foldlRecOn resolved _ (motive := fun m : Memory => Noted m.state) h fun _ hm _ _ => hm.applyWrite _
  exact List.foldlRecOn actions _ (motive := fun m : Memory => Noted m.state) hwrites
    fun _ hm _ _ => hm.applyDocumentAction _

theorem commitAt_entries (h : Noted m.state) (hm : m.commitAt writes seq = .ok m') {id : Nat}
    {entry : EntryRecord} (hentry : m.state.entries id = some entry) :
    m'.state.entries id = some entry := by
  rw [(commitAt_tables hm).1.entries, putTables_entries, putAll_of_notMem _, hentry]
  intro hmem
  obtain ⟨value, hvalue, rfl⟩ := List.mem_map.mp hmem
  obtain ⟨write, hwrite, heq⟩ := List.mem_filterMap.mp hvalue
  have hsome := h.entries value.id (by rw [hentry]; rfl)
  cases write with
  | entry other =>
    cases heq
    rcases commitAt_ids hm hwrite rfl with hnone | ⟨_, honce⟩
    · rw [hnone] at hsome
      cases hsome
    · cases honce
  | conversation _ | task _ | submission _ | create _ _ _ | copy _ _ | change _ _ | retire _ => cases heq

/-! ## Requests -/

def RequestsExact (s : State) : Prop :=
  ∀ conversationId requestId id, s.submissionIdsByRequest conversationId requestId = some id
    ↔ ∃ record, s.submissions id = some record ∧ record.conversationId = conversationId
      ∧ record.requestId = some requestId

def RequestsUnique (table : Nat → Option SubmissionRecord) : Prop :=
  ∀ id id' record record' requestId, table id = some record → table id' = some record' →
    record.conversationId = record'.conversationId → record.requestId = some requestId →
    record'.requestId = some requestId → id = id'

theorem RequestsExact.unique (h : RequestsExact s) : RequestsUnique s.submissions := by
  intro id id' record record' requestId hid hid' hconversation hrequest hrequest'
  have h1 := (h record.conversationId requestId id).mpr ⟨record, hid, rfl, hrequest⟩
  have h2 := (h record.conversationId requestId id').mpr ⟨record', hid', hconversation.symm, hrequest'⟩
  rw [h1, Option.some.injEq] at h2
  exact h2

def KeepsRequest (table : Nat → Option SubmissionRecord) (value : SubmissionRecord) : Prop :=
  ∀ old, table value.id = some old →
    old.conversationId = value.conversationId ∧ old.requestId = value.requestId

theorem addRequest_apply (index : Nat → String → Option Nat) (value : SubmissionRecord)
    (conversationId : Nat) (requestId : String) :
    addRequest index value conversationId requestId
      = if value.conversationId = conversationId ∧ value.requestId = some requestId then some value.id
        else index conversationId requestId := by
  unfold addRequest
  cases hrequest : value.requestId with
  | none => simp
  | some request =>
    simp only [Option.some.injEq]
    by_cases hconversation : value.conversationId = conversationId
    · subst hconversation
      rw [Function.update_self]
      by_cases hr : requestId = request
      · subst hr
        simp
      · rw [Function.update_of_ne hr]
        simp [Ne.symm hr]
    · rw [Function.update_of_ne (Ne.symm hconversation)]
      simp [hconversation]

theorem dropRequest_apply (index : Nat → String → Option Nat) (id : Nat)
    (previous : Option SubmissionRecord) (conversationId : Nat) (requestId : String) :
    dropRequest index id previous conversationId requestId
      = if index conversationId requestId = some id
          ∧ (∃ old, previous = some old ∧ old.conversationId = conversationId
            ∧ old.requestId = some requestId) then none
        else index conversationId requestId := by
  rcases previous with _ | ⟨_, oldConversation, _ | oldRequest, _, _, _, _, _, _⟩
  · simp [dropRequest]
  · simp [dropRequest]
  · simp only [dropRequest, Option.some.injEq, exists_eq_left', Option.some.injEq]
    by_cases hindex : index oldConversation oldRequest = some id
    · rw [if_pos hindex]
      by_cases hc : conversationId = oldConversation
      · subst hc
        rw [Function.update_self]
        by_cases hr : requestId = oldRequest
        · subst hr
          rw [Function.update_self]
          simp [hindex]
        · rw [Function.update_of_ne hr]
          simp [Ne.symm hr]
      · rw [Function.update_of_ne hc]
        simp [Ne.symm hc]
    · rw [if_neg hindex]
      split
      · rename_i hcase
        obtain ⟨hcase, rfl, rfl⟩ := hcase
        exact absurd hcase hindex
      · rfl

theorem putSubmission_requests {value : SubmissionRecord} (h : RequestsExact s)
    (hkeeps : KeepsRequest s.submissions value)
    (hfree : s.submissions value.id = none → ∀ requestId, value.requestId = some requestId →
      ∀ id record, s.submissions id = some record → record.conversationId = value.conversationId →
        record.requestId ≠ some requestId) : RequestsExact (putSubmission s value) := by
  intro conversationId requestId id
  show addRequest (dropRequest s.submissionIdsByRequest value.id (s.submissions value.id)) value
      conversationId requestId = some id ↔ ∃ record, Function.update s.submissions value.id
        (some value) id = some record ∧ _
  rw [addRequest_apply, dropRequest_apply]
  by_cases hvalue : value.conversationId = conversationId ∧ value.requestId = some requestId
  · rw [if_pos hvalue, Option.some.injEq]
    obtain ⟨rfl, hrequest⟩ := hvalue
    constructor
    · rintro rfl
      exact ⟨value, by rw [Function.update_self], rfl, hrequest⟩
    · rintro ⟨record, hrecord, hconversation, hrecordRequest⟩
      by_contra hne
      rw [Function.update_of_ne (Ne.symm hne)] at hrecord
      cases hold : s.submissions value.id with
      | none => exact hfree hold requestId hrequest id record hrecord hconversation hrecordRequest
      | some old =>
        -- the old record has the request too
        obtain ⟨hsame, hsameRequest⟩ := hkeeps old hold
        exact hne (h.unique _ _ old record requestId hold hrecord (hsame.trans hconversation.symm)
          (hsameRequest.trans hrequest) hrecordRequest)
  · rw [if_neg hvalue]
    by_cases hid : id = value.id
    · subst hid
      rw [Function.update_self]
      constructor
      · intro hindex
        split at hindex
        · cases hindex
        · rename_i hnot
          obtain ⟨old, hold, hconversation, hrequest⟩ := (h _ _ _).mp hindex
          exact absurd ⟨hindex, old, hold, hconversation, hrequest⟩ hnot
      · rintro ⟨record, hrecord, hconversation, hrequest⟩
        rw [Option.some.injEq] at hrecord
        subst hrecord
        exact absurd ⟨hconversation, hrequest⟩ hvalue
    · rw [Function.update_of_ne hid, ← h conversationId requestId id]
      split
      · rename_i hcase
        rw [hcase.1, Option.some.injEq]
        constructor
        · intro hnone
          cases hnone
        · rintro rfl
          exact absurd rfl hid
      · rfl

/-- The index stays exact along a batch whose records keep their requests, when no two records have a
request in common behind it. -/
theorem putTables_requests (h : RequestsExact m.state)
    (hn : ((submissionValues writes).map (·.id)).Nodup)
    (hkeeps : ∀ value ∈ submissionValues writes, KeepsRequest m.state.submissions value)
    (hunique : RequestsUnique (putAll (·.id) m.state.submissions (submissionValues writes))) :
    RequestsExact (m.putTables seq writes).state := by
  induction writes generalizing m with
  | nil => exact h
  | cons write rest ih =>
    rw [putTables_cons]
    cases write with
    | submission value =>
      have hvalues : submissionValues (.submission value :: rest) = value :: submissionValues rest := rfl
      rw [hvalues] at hn hkeeps hunique
      rw [List.map_cons, List.nodup_cons] at hn
      have hne : ∀ other ∈ submissionValues rest, other.id ≠ value.id := by
        intro other hother heq
        exact hn.1 (heq ▸ List.mem_map_of_mem (f := fun v : SubmissionRecord => v.id) hother)
      apply ih _ hn.2
      · intro other hother old hold
        apply hkeeps other (List.mem_cons_of_mem _ hother)
        rw [show (applyWrite seq m (.submission value)).state.submissions
            = Function.update m.state.submissions value.id (some value) from rfl,
          Function.update_of_ne (hne other hother)] at hold
        exact hold
      · exact hunique
      · show RequestsExact (putSubmission m.state value)
        apply putSubmission_requests h (hkeeps value List.mem_cons_self)
        intro hnone requestId hrequest id record hrecord hconversation hrecordRequest
        -- both are still there behind the batch, so they are one record
        have hlast : putAll (·.id) m.state.submissions (value :: submissionValues rest) value.id
            = some value := putAll_of_mem (by simpa using hn) List.mem_cons_self
        have hother : ∃ later, putAll (·.id) m.state.submissions (value :: submissionValues rest) id
            = some later ∧ later.conversationId = record.conversationId
              ∧ later.requestId = record.requestId := by
          cases hlater : putAll (·.id) m.state.submissions (value :: submissionValues rest) id with
          | none =>
            have hstays : (putAll (fun v : SubmissionRecord => v.id) m.state.submissions
                (value :: submissionValues rest) id).isSome := by
              apply putAll_isSome
              rw [hrecord]
              rfl
            rw [hlater] at hstays
            cases hstays
          | some later =>
            refine ⟨later, rfl, ?_⟩
            rcases putAll_cases hlater with ⟨hmem, hkey⟩ | hold
            · obtain ⟨h1, h2⟩ := hkeeps later hmem record (by rw [hkey]; exact hrecord)
              exact ⟨h1.symm, h2.symm⟩
            · rw [hrecord, Option.some.injEq] at hold
              subst hold
              exact ⟨rfl, rfl⟩
        obtain ⟨later, hlater, hsame, hsameRequest⟩ := hother
        have hid := hunique id value.id later value requestId hlater hlast
          (hsame.trans hconversation) (hsameRequest.trans hrecordRequest) hrequest
        rw [← hid, hrecord] at hnone
        cases hnone
    | conversation _ | entry _ | task _ =>
      exact ih h hn hkeeps hunique
    | create _ _ _ | copy _ _ | change _ _ | retire _ => exact ih h hn hkeeps hunique

end Memory

end ThreeXhaust.Durable
