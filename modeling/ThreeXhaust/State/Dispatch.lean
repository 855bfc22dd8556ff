import ThreeXhaust.State.Stores

/-!
# One dispatch for one preparation

The outbox row of a request is a small state machine, spread over the `WHERE` clauses of ten
update statements. `OutboxMove` is that machine; a call moves the row of every request along
one of its edges or leaves it.

* **`step_outbox`** — the edge a call takes, for every call and every request.
-/

namespace ThreeXhaust.State

/-! ## The outbox row of a request -/

def Database.outboxState (db : Database) (requestId : String) : Option OutboxState :=
  (db.outbox? requestId).map (·.state)

def Database.OutboxKeyed (db : Database) : Prop := (db.providerOutbox.map (·.requestId)).Nodup

variable {db db' : Database}

theorem Database.updateOutbox_ok {p : OutboxRow → Bool} {f : OutboxRow → OutboxRow}
    {message : String} (h : db.updateOutbox p f message = .ok db') (hn : db.OutboxKeyed)
    {id : String} (hp : ∀ r, p r = true → r.requestId = id)
    (hf : ∀ r, (f r).requestId = r.requestId) :
    db' = { db with providerOutbox := Table.update p f db.providerOutbox } ∧ db'.OutboxKeyed
      ∧ ∃ row, p row = true ∧ db.outbox? id = some row ∧ db'.outbox? id = some (f row)
        ∧ ∀ k, k ≠ id → db'.outbox? k = db.outbox? k := by
  obtain ⟨hcount, hdb⟩ := Except.ite_error_eq_ok.mp h
  have hdb' : db' = { db with providerOutbox := Table.update p f db.providerOutbox } := by
    simpa using hdb.symm
  obtain ⟨row, hrow, hbefore, hafter, hothers⟩ := Table.update_one hn hp hf (not_not.mp hcount)
  refine ⟨hdb', ?_, row, hrow, hbefore, ?_, ?_⟩
  · rw [hdb', Database.OutboxKeyed, Table.map_key_update hf]
    exact hn
  · rw [hdb']
    exact hafter
  · rw [hdb']
    exact hothers

def StateCall.marksDispatching (requestId : String) : StateCall → Bool
  | .markDispatching id _ _ => id = requestId
  | _ => false

def StateCall.settles (requestId : String) : StateCall → Bool
  | .settle id _ _ => id = requestId
  | .settleAndCheckpoint id _ _ _ _ _ => id = requestId
  | _ => false

def StateCall.prepares (requestId : String) : StateCall → Bool
  | .prepareDispatch id _ _ _ _ _ => id = requestId
  | _ => false

/-- The edges of the outbox row of a request, each with the call that takes it. -/
inductive OutboxMove (requestId : String) (call : StateCall) :
    Option OutboxState → Option OutboxState → Prop where
  | stay {state : Option OutboxState} (other : call.marksDispatching requestId = false) :
      OutboxMove requestId call state state
  | create (other : call.marksDispatching requestId = false) :
      OutboxMove requestId call none (some .queued)
  | dispatch (marks : call.marksDispatching requestId = true) :
      OutboxMove requestId call (some .queued) (some .dispatching)
  | settle (settles : call.settles requestId = true) :
      OutboxMove requestId call (some .dispatching) (some .settled)
  | prepare (prepares : call.prepares requestId = true) :
      OutboxMove requestId call (some .settled) (some .queued)
  | lose {state : OutboxState} (other : call.marksDispatching requestId = false)
      (lost : state = .dispatching ∨ state = .accepted) :
      OutboxMove requestId call (some state) (some .indeterminate)

/-! ## Calls that leave the outbox alone -/

variable {checkpoint : ResumeCheckpoint} {now : String}

theorem claimCheckpoint_sameOutbox (h : claimCheckpoint db checkpoint now = .ok db') :
    db'.providerOutbox = db.providerOutbox := by
  obtain ⟨-, h⟩ := Except.ite_error_eq_ok.mp h
  cases h
  rfl

variable {sessionId projectPath : Option String}

theorem claim_ok {pick : Nat} {c : Option ResumeCheckpoint}
    (h : claim db sessionId projectPath pick now = .ok (c, db')) :
    (c = none ∧ db' = db) ∨ ∃ checkpoint, c = some checkpoint
      ∧ find db sessionId projectPath pick = some checkpoint
      ∧ (checkpoint.outboxState = .queued ∨ checkpoint.outboxState = .settled)
      ∧ claimCheckpoint db checkpoint now = .ok db' := by
  unfold claim at h
  cases hfind : find db sessionId projectPath pick with
  | none =>
    rw [hfind] at h
    cases h
    exact .inl ⟨rfl, rfl⟩
  | some checkpoint =>
    rw [hfind] at h
    obtain ⟨⟨⟩, hsafe, h⟩ := Except.bind_eq_ok.mp h
    obtain ⟨db1, hclaim, h⟩ := Except.bind_eq_ok.mp h
    cases h
    obtain ⟨-, hsafe⟩ := Except.ite_error_eq_ok.mp hsafe
    obtain ⟨hsafe, -⟩ := Except.ite_error_eq_ok.mp hsafe
    refine .inr ⟨checkpoint, rfl, rfl, ?_, hclaim⟩
    tauto

theorem claim_sameOutbox {pick : Nat} {c : Option ResumeCheckpoint}
    (h : claim db sessionId projectPath pick now = .ok (c, db')) :
    db'.providerOutbox = db.providerOutbox := by
  obtain ⟨-, rfl⟩ | ⟨checkpoint, -, -, -, hclaim⟩ := claim_ok h
  · rfl
  · exact claimCheckpoint_sameOutbox hclaim

theorem claimExplicit_sameOutbox {pick : Nat} {c : Option ExplicitResumeClaim}
    (h : claimExplicit db sessionId projectPath pick now = .ok (c, db')) :
    db'.providerOutbox = db.providerOutbox := by
  unfold claimExplicit at h
  cases hfind : find db sessionId projectPath pick with
  | none =>
    rw [hfind] at h
    cases h
    rfl
  | some checkpoint =>
    rw [hfind] at h
    simp only at h
    split at h
    · obtain ⟨db1, hretire, h⟩ := Except.bind_eq_ok.mp h
      cases h
      obtain ⟨-, hretire⟩ := Except.ite_error_eq_ok.mp hretire
      obtain ⟨-, hretire⟩ := Except.ite_error_eq_ok.mp hretire
      cases hretire
      rfl
    · obtain ⟨⟨⟩, -, h⟩ := Except.bind_eq_ok.mp h
      obtain ⟨db1, hclaim, h⟩ := Except.bind_eq_ok.mp h
      cases h
      exact claimCheckpoint_sameOutbox hclaim

theorem recordPatch_sameOutbox {sessionId patchId baseRevision : String} {state : PatchState}
    {payload : String}
    (h : recordPatch db sessionId patchId baseRevision state payload now = .ok db') :
    db'.providerOutbox = db.providerOutbox := by
  unfold recordPatch at h
  split at h
  · cases h
    rfl
  · obtain ⟨-, h⟩ := Except.ite_error_eq_ok.mp h
    cases h
    rfl

/-! ## The edge of a call -/

/-- Every request moves along an edge, and the key of the outbox stays one. -/
def OutboxMoves (call : StateCall) (db db' : Database) : Prop :=
  db'.OutboxKeyed ∧ ∀ r, OutboxMove r call (db.outboxState r) (db'.outboxState r)

theorem OutboxMoves.same {call : StateCall} (hn : db.OutboxKeyed)
    (hother : ∀ r, call.marksDispatching r = false) (hsame : db'.providerOutbox = db.providerOutbox)
    : OutboxMoves call db db' := by
  refine ⟨by rw [Database.OutboxKeyed, hsame]; exact hn, ?_⟩
  intro r
  have hstate : db'.outboxState r = db.outboxState r := by
    rw [Database.outboxState, Database.outbox?, hsame]
    rfl
  rw [hstate]
  exact .stay (hother r)

theorem OutboxMoves.updated {call : StateCall} {db1 : Database} {p : OutboxRow → Bool}
    {f : OutboxRow → OutboxRow} {message : String} (id : String) (hn : db.OutboxKeyed)
    (h : db.updateOutbox p f message = .ok db1) (hp : ∀ r, p r = true → r.requestId = id)
    (hf : ∀ r, (f r).requestId = r.requestId) (hsame : db'.providerOutbox = db1.providerOutbox)
    (hother : ∀ r, r ≠ id → call.marksDispatching r = false)
    (hmove : ∀ row, p row = true → OutboxMove id call (some row.state) (some (f row).state)) :
    OutboxMoves call db db' := by
  obtain ⟨-, hkeyed, row, hrow, hbefore, hafter, hothers⟩ := Database.updateOutbox_ok h hn hp hf
  have hlookup (k : String) : db'.outbox? k = db1.outbox? k := by
    rw [Database.outbox?, hsame]
    rfl
  refine ⟨by rw [Database.OutboxKeyed, hsame]; exact hkeyed, ?_⟩
  intro r
  rw [Database.outboxState, Database.outboxState, hlookup]
  by_cases hr : r = id
  · subst hr
    rw [hbefore, hafter]
    exact hmove row hrow
  · rw [hothers r hr]
    exact .stay (hother r hr)

theorem begin_outbox {input : BeginRunInput} (hn : db.OutboxKeyed)
    (h : begin db input now = .ok db') : OutboxMoves (.begin input now) db db' := by
  unfold begin at h
  have hproject : (db.insertProject input.projectId input.projectPath now).providerOutbox
      = db.providerOutbox := by
    unfold Database.insertProject
    split <;> rfl
  obtain ⟨-, h⟩ := Except.ite_error_eq_ok.mp h
  obtain ⟨-, h⟩ := Except.ite_error_eq_ok.mp h
  obtain ⟨-, h⟩ := Except.ite_error_eq_ok.mp h
  obtain ⟨-, h⟩ := Except.ite_error_eq_ok.mp h
  obtain ⟨-, h⟩ := Except.ite_error_eq_ok.mp h
  obtain ⟨hfresh, h⟩ := Except.ite_error_eq_ok.mp h
  rw [hproject] at hfresh
  have houtbox : db'.providerOutbox = db.providerOutbox
      ++ [⟨input.requestId, input.generation, .queued, input.fingerprint, none, now⟩] := by
    have := Except.ok.inj h
    rw [← this, ← hproject]
  have hnew : input.requestId ∉ db.providerOutbox.map (·.requestId) := by
    intro hin
    obtain ⟨row, hrow, hid⟩ := List.mem_map.mp hin
    exact hfresh (List.any_eq_true.mpr ⟨row, hrow, decide_eq_true hid⟩)
  refine ⟨?_, ?_⟩
  · rw [Database.OutboxKeyed, houtbox]
    exact Table.nodup_insert hn hnew
  · intro r
    have hlookup : db'.outbox? r = if r = input.requestId then
        some ⟨input.requestId, input.generation, .queued, input.fingerprint, none, now⟩
        else db.outbox? r := by
      rw [Database.outbox?, houtbox]
      exact Table.find?_insert hnew r
    rw [Database.outboxState, Database.outboxState, hlookup]
    by_cases hr : r = input.requestId
    · have hnone : db.outbox? r = none := by
        rw [Database.outbox?, List.find?_eq_none]
        intro row hrow hid
        exact hnew (List.mem_map.mpr ⟨row, hrow, (of_decide_eq_true hid).trans hr⟩)
      rw [if_pos hr, hnone]
      exact .create rfl
    · rw [if_neg hr]
      exact .stay rfl

theorem recover_outbox (hn : db.OutboxKeyed) :
    OutboxMoves .recoverInterrupted db (recoverInterrupted db) := by
  have hkey (r : OutboxRow) : ({ r with state := .indeterminate } : OutboxRow).requestId
      = r.requestId := rfl
  refine ⟨?_, ?_⟩
  · rw [Database.OutboxKeyed, recoverInterrupted, Table.map_key_update hkey]
    exact hn
  · intro r
    have hlookup : (recoverInterrupted db).outbox? r = (db.outbox? r).map fun row =>
        if row.state = .dispatching || row.state = .accepted then
          { row with state := .indeterminate }
        else row :=
      Table.find?_update hkey db.providerOutbox r
    rw [Database.outboxState, Database.outboxState, hlookup]
    cases db.outbox? r with
    | none => exact .stay rfl
    | some row =>
      by_cases hlost : row.state = .dispatching ∨ row.state = .accepted
      · simpa [hlost] using OutboxMove.lose rfl hlost
      · simpa [hlost] using OutboxMove.stay rfl

/-- **The edge of a call that returns.** -/
theorem transaction_outbox {call : StateCall} {reply : StateReply} (hn : db.OutboxKeyed)
    (h : call.transaction db = .ok (reply, db')) : OutboxMoves call db db' := by
  cases call with
  | begin input now =>
    obtain ⟨db1, h1, h⟩ := Except.map_eq_ok.mp h
    cases h
    exact begin_outbox hn h1
  | markDispatching id generation now =>
    obtain ⟨db1, h1, h⟩ := Except.map_eq_ok.mp h
    cases h
    refine .updated id hn h1 ?_ (fun _ => rfl) rfl ?_ ?_
    · intro r hr
      simp only [Bool.and_eq_true, decide_eq_true_eq] at hr
      exact hr.1.1
    · intro r hr
      simpa [StateCall.marksDispatching] using Ne.symm hr
    · intro row hrow
      simp only [Bool.and_eq_true, decide_eq_true_eq] at hrow
      rw [hrow.2]
      exact .dispatch (by simp [StateCall.marksDispatching])
  | settle id providerRequestId now =>
    obtain ⟨db1, h1, h⟩ := Except.map_eq_ok.mp h
    cases h
    refine .updated id hn h1 ?_ (fun _ => rfl) rfl (fun _ _ => rfl) ?_
    · intro r hr
      simp only [Bool.and_eq_true, decide_eq_true_eq] at hr
      exact hr.1
    · intro row hrow
      simp only [Bool.and_eq_true, decide_eq_true_eq] at hrow
      rw [hrow.2]
      exact .settle (by simp [StateCall.settles])
  | settleAndCheckpoint id sessionId generation providerRequestId checkpoint now =>
    obtain ⟨db2, h2, h⟩ := Except.map_eq_ok.mp h
    cases h
    obtain ⟨db1, h1, h2⟩ := Except.bind_eq_ok.mp h2
    cases h2
    refine .updated id hn h1 ?_ (fun _ => rfl) rfl (fun _ _ => rfl) ?_
    · intro r hr
      simp only [Bool.and_eq_true, decide_eq_true_eq] at hr
      exact hr.1.1
    · intro row hrow
      simp only [Bool.and_eq_true, decide_eq_true_eq] at hrow
      rw [hrow.2]
      exact .settle (by simp [StateCall.settles])
  | prepareDispatch id sessionId generation payloadDigest checkpoint now =>
    obtain ⟨db2, h2, h⟩ := Except.map_eq_ok.mp h
    cases h
    obtain ⟨db1, h1, h2⟩ := Except.bind_eq_ok.mp h2
    cases h2
    refine .updated id hn h1 ?_ (fun _ => rfl) rfl (fun _ _ => rfl) ?_
    · intro r hr
      simp only [Bool.and_eq_true, decide_eq_true_eq] at hr
      exact hr.1
    · intro row hrow
      simp only [Bool.and_eq_true, decide_eq_true_eq] at hrow
      rw [hrow.2]
      exact .prepare (by simp [StateCall.prepares])
  | updateCheckpoint sessionId generation checkpoint now =>
    obtain ⟨db1, h1, h⟩ := Except.map_eq_ok.mp h
    cases h
    obtain ⟨-, h1⟩ := Except.ite_error_eq_ok.mp h1
    cases h1
    exact .same hn (fun _ => rfl) rfl
  | recoverInterrupted =>
    cases h
    exact recover_outbox hn
  | claim sessionId projectPath pick now =>
    obtain ⟨⟨c, db1⟩, h1, h⟩ := Except.map_eq_ok.mp h
    cases h
    exact .same hn (fun _ => rfl) (claim_sameOutbox h1)
  | claimExplicit sessionId projectPath pick now =>
    obtain ⟨⟨c, db1⟩, h1, h⟩ := Except.map_eq_ok.mp h
    cases h
    exact .same hn (fun _ => rfl) (claimExplicit_sameOutbox h1)
  | complete sessionId requestId status now =>
    cases h
    exact .same hn (fun _ => rfl) rfl
  | recordObservation sessionId observationId payload now =>
    obtain ⟨db1, h1, h⟩ := Except.map_eq_ok.mp h
    cases h
    obtain ⟨-, h1⟩ := Except.ite_error_eq_ok.mp h1
    obtain ⟨-, h1⟩ := Except.ite_error_eq_ok.mp h1
    cases h1
    exact .same hn (fun _ => rfl) rfl
  | recordPatch sessionId patchId baseRevision state payload now =>
    obtain ⟨db1, h1, h⟩ := Except.map_eq_ok.mp h
    cases h
    exact .same hn (fun _ => rfl) (recordPatch_sameOutbox h1)

variable {r : String}

theorem OutboxMove.of_marks {call : StateCall} {s s' : Option OutboxState}
    (h : OutboxMove r call s s') (hmarks : call.marksDispatching r = true) :
    s = some .queued ∧ s' = some .dispatching := by
  cases h with
  | stay other => simp [hmarks] at other
  | create other => simp [hmarks] at other
  | dispatch marks => exact ⟨rfl, rfl⟩
  | settle settles => cases call <;> simp [StateCall.settles, StateCall.marksDispatching] at *
  | prepare prepares => cases call <;> simp [StateCall.prepares, StateCall.marksDispatching] at *
  | lose other lost => simp [hmarks] at other

/-! ## Runs -/

/-- The database after the first `n` of the calls that were made. -/
abbrev after (calls : List StateCall) (n : Nat) : Database :=
  Run.after StateCall.step Database.empty calls n

/-- The call number `n` is of the given kind and returns. -/
def happens (calls : List StateCall) (n : Nat) (kind : StateCall → Bool) : Prop :=
  ∃ call, calls[n]? = some call ∧ kind call = true ∧ call.succeeds (after calls n) = true

theorem step_of_succeeds {call : StateCall} (h : call.succeeds db = true) :
    ∃ reply, call.transaction db = .ok (reply, call.step db) := by
  unfold StateCall.succeeds at h
  unfold StateCall.step
  cases ht : call.transaction db with
  | error message => simp [ht, Except.isOk, Except.toBool] at h
  | ok result => exact ⟨result.1, rfl⟩

theorem step_of_fails {call : StateCall} (h : call.succeeds db = false) : call.step db = db := by
  unfold StateCall.succeeds at h
  unfold StateCall.step
  cases ht : call.transaction db with
  | error message => rfl
  | ok result => simp [ht, Except.isOk, Except.toBool] at h

theorem step_keyed (call : StateCall) (hn : db.OutboxKeyed) : (call.step db).OutboxKeyed := by
  cases hs : call.succeeds db with
  | true =>
    obtain ⟨reply, ht⟩ := step_of_succeeds hs
    exact (transaction_outbox hn ht).1
  | false =>
    rw [step_of_fails hs]
    exact hn

theorem after_keyed (calls : List StateCall) (n : Nat) : (after calls n).OutboxKeyed := by
  refine (Run.after_reachable n).invariant Database.OutboxKeyed ?_ fun s i hs _ => step_keyed i hs
  exact List.nodup_nil

/-- **The step in a run**: nothing happens to the row, or a returning call takes an edge. -/
theorem after_outbox (calls : List StateCall) (n : Nat) (r : String) :
    (after calls (n + 1)).outboxState r = (after calls n).outboxState r
      ∨ ∃ call, calls[n]? = some call ∧ call.succeeds (after calls n) = true
        ∧ OutboxMove r call ((after calls n).outboxState r)
          ((after calls (n + 1)).outboxState r) := by
  cases hcall : calls[n]? with
  | none =>
    rw [after, Run.after_succ_of_length_le hcall]
    exact .inl rfl
  | some call =>
    rw [after, Run.after_succ hcall]
    cases hs : call.succeeds (after calls n) with
    | false =>
      rw [step_of_fails hs]
      exact .inl rfl
    | true =>
      obtain ⟨reply, ht⟩ := step_of_succeeds hs
      exact .inr ⟨call, rfl, hs, (transaction_outbox (after_keyed calls n) ht).2 r⟩

theorem happens_marks {calls : List StateCall} {n : Nat}
    (h : happens calls n (·.marksDispatching r)) :
    (after calls n).outboxState r = some .queued
      ∧ (after calls (n + 1)).outboxState r = some .dispatching := by
  obtain ⟨call, hcall, hmarks, hs⟩ := h
  obtain ⟨reply, ht⟩ := step_of_succeeds hs
  have hmove := (transaction_outbox (after_keyed calls n) ht).2 r
  rw [after, after, Run.after_succ hcall]
  exact hmove.of_marks hmarks

/-- What the row of `r` has been through since its dispatch by call `i`. -/
inductive Since (calls : List StateCall) (r : String) (i m : Nat) : Prop where
  | inFlight (state : (after calls m).outboxState r = some .dispatching
      ∨ (after calls m).outboxState r = some .indeterminate)
  | settled {k : Nat} (state : (after calls m).outboxState r = some .settled) (hik : i < k)
      (hkm : k < m) (settle : happens calls k (·.settles r))
  | prepared {k l : Nat} (hik : i < k) (hkl : k < l) (hlm : l < m)
      (settle : happens calls k (·.settles r)) (prepare : happens calls l (·.prepares r))

variable {i : Nat}

theorem Since.succ {calls : List StateCall} {m : Nat} (him : i < m) (h : Since calls r i m)
    : Since calls r i (m + 1) := by
  cases h with
  | prepared hik hkl hlm settle prepare =>
    exact .prepared hik hkl (by omega) settle prepare
  | inFlight state =>
    rcases after_outbox calls m r with hsame | ⟨call, hcall, hs, hmove⟩
    · exact .inFlight (hsame ▸ state)
    · -- an edge out of `dispatching` is a settlement or a loss; none leaves `indeterminate`
      generalize (after calls m).outboxState r = s at state hmove
      generalize hs' : (after calls (m + 1)).outboxState r = s' at hmove
      cases hmove with
      | stay other => exact .inFlight (hs' ▸ state)
      | create other => simp at state
      | dispatch marks => simp at state
      | settle settles => exact .settled hs' him (by omega) ⟨call, hcall, settles, hs⟩
      | prepare prepares => simp at state
      | lose other lost => exact .inFlight (.inr hs')
  | @settled k state hik hkm settle =>
    rcases after_outbox calls m r with hsame | ⟨call, hcall, hs, hmove⟩
    · exact .settled (hsame.trans state) hik (by omega) settle
    · -- the only edge out of `settled` is a preparation
      rw [state] at hmove
      generalize hs' : (after calls (m + 1)).outboxState r = s' at hmove
      cases hmove with
      | stay other => exact .settled hs' hik (by omega) settle
      | prepare prepares =>
        exact .prepared hik hkm (by omega) settle ⟨call, hcall, prepares, hs⟩
      | lose other lost => simp at lost

/-- **The run.** Between two dispatches of a request it is settled and prepared again. -/
theorem dispatched_twice {calls : List StateCall} {j : Nat} (hij : i < j)
    (hi : happens calls i (·.marksDispatching r)) (hj : happens calls j (·.marksDispatching r)) :
    ∃ k l, i < k ∧ k < l ∧ l < j ∧ happens calls k (·.settles r)
      ∧ happens calls l (·.prepares r) := by
  have hsince : ∀ m, i < m → Since calls r i m := by
    intro m
    induction m with
    | zero => intro him; omega
    | succ m ih =>
      intro him
      rcases Nat.lt_or_ge i m with hlt | hge
      · exact (ih hlt).succ hlt
      · obtain rfl : m = i := by omega
        exact .inFlight (.inl (happens_marks hi).2)
  have hqueued := (happens_marks hj).1
  cases hsince j hij with
  | inFlight state => rcases state with state | state <;> rw [state] at hqueued <;> cases hqueued
  | settled state hik hkm settle => rw [state] at hqueued; cases hqueued
  | @prepared k l hik hkl hlm settle prepare => exact ⟨k, l, hik, hkl, hlm, settle, prepare⟩

/-- **The run.** An indeterminate row stays indeterminate. -/
theorem indeterminate_stays {calls : List StateCall} {j : Nat} (hij : i ≤ j)
    (hi : (after calls i).outboxState r = some .indeterminate) :
    (after calls j).outboxState r = some .indeterminate := by
  induction j, hij using Nat.le_induction with
  | base => exact hi
  | succ m _ ih =>
    rcases after_outbox calls m r with hsame | ⟨call, -, -, hmove⟩
    · exact hsame.trans ih
    · rw [ih] at hmove
      generalize (after calls (m + 1)).outboxState r = s' at hmove ⊢
      cases hmove with
      | stay other => rfl
      | lose other lost => rfl

/-! ## Claims -/

theorem resumable_outbox (h : checkpoint ∈ db.resumable sessionId projectPath) :
    ∃ row ∈ db.providerOutbox, row.requestId = checkpoint.requestId
      ∧ row.state = checkpoint.outboxState := by
  simp only [Database.resumable, List.mem_flatMap, List.mem_map, List.mem_filter] at h
  obtain ⟨_, -, _, -, _, -, request, -, row, ⟨hrow, hid⟩, rfl⟩ := h
  exact ⟨row, hrow, of_decide_eq_true hid, rfl⟩

theorem find_mem {pick : Nat} (h : find db sessionId projectPath pick = some checkpoint) :
    checkpoint ∈ db.resumable sessionId projectPath :=
  List.mem_of_mem_filter (List.mem_of_getElem? h)

theorem claim_safe (hn : db.OutboxKeyed) {pick : Nat}
    (h : claim db sessionId projectPath pick now = .ok (some checkpoint, db')) :
    (checkpoint.outboxState = .queued ∨ checkpoint.outboxState = .settled)
      ∧ db.outboxState checkpoint.requestId = some checkpoint.outboxState := by
  obtain ⟨hnone, -⟩ | ⟨found, hsome, hfind, hsafe, -⟩ := claim_ok h
  · cases hnone
  · cases hsome
    refine ⟨hsafe, ?_⟩
    obtain ⟨row, hrow, hid, hstate⟩ := resumable_outbox (find_mem hfind)
    have hlookup : db.outbox? row.requestId = some row := Table.find?_key hn hrow
    rw [Database.outboxState, ← hid, hlookup, Option.map_some, hstate]

/-- **Dispatches are prepared.** Along every list of calls by any number of processes: between
two successful dispatches of a request it was settled and then prepared again; an outbox row
that is indeterminate stays so; and a claim returns a checkpoint only while the request's
outbox row is queued or settled. -/
theorem dispatches_are_prepared (calls : List StateCall) (r : String) :
    (∀ i j, i < j → happens calls i (·.marksDispatching r) →
        happens calls j (·.marksDispatching r) →
        ∃ k l, i < k ∧ k < l ∧ l < j ∧ happens calls k (·.settles r)
          ∧ happens calls l (·.prepares r))
    ∧ (∀ i j, i ≤ j → (after calls i).outboxState r = some .indeterminate →
        (after calls j).outboxState r = some .indeterminate)
    ∧ ∀ i sessionId projectPath pick now checkpoint db',
        claim (after calls i) sessionId projectPath pick now = .ok (some checkpoint, db') →
        (checkpoint.outboxState = .queued ∨ checkpoint.outboxState = .settled)
          ∧ (after calls i).outboxState checkpoint.requestId = some checkpoint.outboxState := by
  refine ⟨?_, ?_, ?_⟩
  · intro i j hij hi hj
    exact dispatched_twice hij hi hj
  · intro i j hij hi
    exact indeterminate_stays hij hi
  · intro i sessionId projectPath pick now checkpoint db' h
    exact claim_safe (after_keyed calls i) h

def followedUpSample : List StateCall :=
  [.begin ⟨"p", "/p", "s", "r", "f", "", "", 1⟩ "0", .markDispatching "r" 1 "1",
    .settleAndCheckpoint "r" "s" 1 none "" "2", .prepareDispatch "r" "s" 2 "d" "" "3",
    .markDispatching "r" 2 "4"]

theorem dispatches_are_prepared_followedUp :
    happens followedUpSample 1 (·.marksDispatching "r")
      ∧ happens followedUpSample 4 (·.marksDispatching "r")
      ∧ ∃ k l, 1 < k ∧ k < l ∧ l < 4 ∧ happens followedUpSample k (·.settles "r")
        ∧ happens followedUpSample l (·.prepares "r") := by
  have hfirst : happens followedUpSample 1 (·.marksDispatching "r") :=
    ⟨_, rfl, by decide, by decide⟩
  have hsecond : happens followedUpSample 4 (·.marksDispatching "r") :=
    ⟨_, rfl, by decide, by decide⟩
  exact ⟨hfirst, hsecond,
    (dispatches_are_prepared followedUpSample "r").1 1 4 (by decide) hfirst hsecond⟩

end ThreeXhaust.State
