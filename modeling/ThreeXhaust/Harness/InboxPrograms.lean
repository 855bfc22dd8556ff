import ThreeXhaust.Harness.InboxCommits

/-!
# The operations on the inbox keep it sound

One lemma for each operation of `Inbox`, in the order in which they call each other: what it leaves of
the open commit (`Good`), or the counter of ids when it throws (`Counted`).
-/

namespace ThreeXhaust.Harness

open Durable EStateM Tx
open Durable.Transaction (EntryDraft)

/-! ## One operation in front of others -/

section

variable {failed : Tx → Prop} {tx : Tx} {α : Type} {post : α → Tx → Prop}

theorem ensures_modifyTable {f : Transaction → Transaction} {next : Unit → TxM α}
    (h : Ensures failed (next ()) { tx with table := f tx.table } post) :
    Ensures failed (modifyTable f >>= next) tx post := h

theorem ensures_mintId {next : Nat → TxM α}
    (h : Ensures failed (next tx.storage.nextId)
      { tx with storage := { tx.storage with nextId := tx.storage.nextId + 1 } } post) :
    Ensures failed (mintId >>= next) tx post := h

theorem ensures_changeSubmission {id : Nat} {change : SubmissionChange} {next : Unit → TxM α}
    (h : Ensures failed (next ()) (pushed tx id change) post) :
    Ensures failed (changeSubmission id change >>= next) tx post := h

variable {c : Nat}

theorem ensures_items {next : List InboxItem → TxM α}
    (h : Ensures failed (next (tx.inbox c)) tx post)
    : Ensures failed (items c >>= next) tx post := h

theorem ensures_setItems {kept : List InboxItem} {next : Unit → TxM α}
    (h : Ensures failed (next ()) { tx with inbox := Function.update tx.inbox c kept } post) :
    Ensures failed (setItems c kept >>= next) tx post := h

theorem ensures_liveDoc {next : LiveState → TxM α} (h : Ensures failed (next (tx.live c)) tx post)
    : Ensures failed (liveDoc c >>= next) tx post := h

theorem ensures_setLive {live : LiveState} {post : Unit → Tx → Prop}
    (h : post () { tx with live := Function.update tx.live c live }) :
    Ensures failed (setLive c live) tx post := h

theorem ensures_requireConversation {next : Unit → TxM α} (hfailed : failed tx)
    (h : Ensures failed (next ()) tx post)
    : Ensures failed (requireConversation c >>= next) tx post := by
  have hone : Ensures failed (requireConversation c) tx fun _ tx' => tx' = tx := by
    unfold Ensures requireConversation
    split
    · rename_i heq
      split at heq
      · cases heq
        rfl
      · cases heq
    · rename_i heq
      split at heq
      · cases heq
      · cases heq
        exact hfailed
  apply hone.bind
  rintro ⟨⟩ tx' rfl
  exact h

theorem ensures_tableRead {r : Read} {next : r.Result → TxM α} (hfailed : failed tx)
    (h : ∀ value, tx.storage.state.read r = .ok value → Ensures failed (next value) tx post) :
    Ensures failed (tableRead r >>= next) tx post := by
  have hone : Ensures failed (tableRead r) tx fun value tx' =>
      tx' = tx ∧ tx.storage.state.read r = .ok value := by
    unfold Ensures tableRead
    cases tx.table.hasTableWrite with
    | true => exact hfailed
    | false =>
      cases hread : tx.storage.state.read r with
      | error e => exact hfailed
      | ok value => exact ⟨rfl, rfl⟩
  apply hone.bind
  rintro value tx' ⟨rfl, hread⟩
  exact h value hread

end

section

variable {w : World} {gone placed : List Nat} {tx : Tx} {staged : List (Nat × SubmissionRecord)}
  {c : Nat}

/-! ## Entries and submissions -/

/-- An entry is appended, and no submission has it yet. -/
theorem appendEntry_ensures (h : Good w gone placed tx staged) (draft : EntryDraft) :
    Ensures (Counted w) (appendEntry c draft) tx fun e tx' =>
      Good w gone placed tx' staged ∧ Spare tx' staged c e ∧ tx'.inbox = tx.inbox
        ∧ tx'.live = tx.live ∧ tx'.table.submissionChanges = tx.table.submissionChanges := by
  unfold appendEntry
  apply ensures_modifyTable
  apply ensures_requireConversation h.next
  apply ensures_mintId
  apply ensures_modifyTable
  apply ensures_pure
  refine ⟨?_, ⟨?_, _, List.mem_append_right _ List.mem_cons_self, rfl, rfl⟩, rfl, rfl, rfl⟩
  · exact h.noteWrite.mint.entry (Nat.lt_succ_self _) (fun e he => h.entry_lt he) rfl
  · intro other q hq hentry
    exact absurd (h.sound.entries other q _ hq hentry) (lt_irrefl _)

/-- What a submission that is created must be. -/
structure Creatable (tx : Tx) (staged : List (Nat × SubmissionRecord)) (r : SubmissionRecord) : Prop where
  first : tx.table.submissionChanges = []
  wellFormed : WellFormed r
  entries : ∀ e, r.entry = some e → Spare tx staged r.conversationId e
  requests : ∀ request, r.requestId = some request → ∀ other q, view tx.storage staged other = some q →
    q.conversationId = r.conversationId → q.requestId ≠ some request

theorem Creatable.new (h : Good w gone placed tx staged) {r : SubmissionRecord}
    (hr : Creatable tx staged r) :
    New (view tx.storage staged) tx.storage.nextId { r with id := tx.storage.nextId } where
  id := rfl
  wellFormed := hr.wellFormed
  entries := by
    intro e he
    obtain ⟨rec, hrec, rfl, _⟩ := (hr.entries e he).staged
    exact ⟨h.entry_lt hrec, (hr.entries _ he).free⟩
  requests := hr.requests

theorem createSubmission_created (hcounted : w.storage.nextId ≤ tx.storage.nextId) (r : SubmissionRecord) :
    Ensures (Counted w) (createSubmission r) tx fun id tx' =>
      id = tx.storage.nextId ∧ tx' = created tx { r with id := tx.storage.nextId } tx.inbox := by
  unfold createSubmission
  apply ensures_modifyTable
  refine ensures_requireConversation hcounted ?_
  apply ensures_mintId
  apply ensures_modifyTable
  exact ensures_pure ⟨rfl, rfl⟩

/-- **A submission is created** that does not wait in the inbox. -/
theorem createSubmission_ensures (h : Good w gone placed tx staged) {r : SubmissionRecord}
    (hr : Creatable tx staged r) (hstatus : r.status ≠ .queued) :
    Ensures (Counted w) (createSubmission r) tx fun id tx' =>
      (∃ staged', Good w gone (id :: placed) tx' staged') ∧ tx'.inbox = tx.inbox
        ∧ tx'.live = tx.live := by
  apply (createSubmission_created h.next r).mono
  rintro id tx' ⟨rfl, rfl⟩
  have hsound := h.sound.create (hr.new h) hstatus
  have hgood := h.insert (r := { r with id := tx.storage.nextId }) hr.first rfl
    (fun e he => (hr.entries e he).staged) hsound
  refine ⟨⟨_, hgood.notePlaced (r := { r with id := tx.storage.nextId }) ?_ hstatus⟩, rfl, rfl⟩
  show view tx.storage (Assoc.set staged tx.storage.nextId _) tx.storage.nextId = _
  rw [view_set, Function.update_self]

/-! ## Runs -/

theorem createGeneration_ensures (h : Good w gone placed tx staged) :
    Ensures (Counted w) (createGeneration c) tx fun _ tx' =>
      Good w gone placed tx' staged ∧ tx'.inbox = tx.inbox ∧ tx'.live = tx.live := by
  unfold createGeneration
  apply ensures_modifyTable
  apply ensures_requireConversation h.next
  apply ensures_mintId
  apply ensures_modifyTable
  apply ensures_pure
  exact ⟨{ h.mint with }, rfl, rfl⟩

theorem Good.setRun (h : Good w gone placed tx staged) {live : LiveState}
    (hrun : ∀ run, live.run = some run → ∀ id ∈ run.inputs, Placed (view tx.storage staged) id) :
    Good w gone placed { tx with live := Function.update tx.live c live } staged :=
  { h with sound := h.sound.setRun hrun }

/-- A run begins with inputs that were placed. -/
theorem startRun_ensures (h : Good w gone placed tx staged) {inputs : List Nat}
    (hinputs : ∀ id ∈ inputs, id ∈ placed) (first : Option Nat) (keepFailure : Bool) :
    Ensures (Counted w) (startRun c inputs first keepFailure) tx fun _ tx' =>
      Good w gone placed tx' staged ∧ tx'.inbox = tx.inbox := by
  unfold startRun
  apply (createGeneration_ensures h).bind
  rintro taskId tx' ⟨hgood, hinbox, _⟩
  apply ensures_liveDoc
  apply ensures_setLive
  refine ⟨hgood.setRun ?_, hinbox⟩
  intro run hrun id hid
  cases hrun
  exact hgood.placed id (hinputs id hid)

/-- Submissions that were placed are settled together. -/
theorem settleAll_ensures {ids : List Nat} {settlement : SubmissionChange}
    (hsettlement : ∀ e, settlement ≠ .placed e)
    (h : ∃ staged, Good w gone placed tx staged ∧ ∀ id ∈ ids, Placed (view tx.storage staged) id) :
    Ensures (Counted w) (settleAll ids settlement) tx fun _ tx' =>
      (∃ staged, Good w gone placed tx' staged) ∧ tx'.inbox = tx.inbox ∧ tx'.live = tx.live := by
  unfold settleAll
  apply (ensures_forM (fun rest tx' => (∃ staged, Good w gone (rest ++ placed) tx' staged)
    ∧ tx'.inbox = tx.inbox ∧ tx'.live = tx.live) ?_ ?_).mono fun _ _ hpost => hpost
  · rintro id rest tx' ⟨⟨staged, hgood⟩, hrest⟩
    obtain ⟨staged', hgood'⟩ := hgood.settle (hgood.placed id List.mem_cons_self) hsettlement
    show (∃ staged, Good w gone (rest ++ placed) (pushed tx' id settlement) staged) ∧ _
    exact ⟨⟨staged', { hgood' with
      placed := fun other hother => hgood'.placed other (List.mem_cons_of_mem _ hother) }⟩, hrest⟩
  · obtain ⟨staged, hgood, hids⟩ := h
    refine ⟨⟨staged, { hgood with placed := ?_ }⟩, rfl, rfl⟩
    intro id hid
    rcases List.mem_append.mp hid with hmem | hmem
    · exact hids id hmem
    · exact hgood.placed id hmem

theorem RunEnd.settlement_ne (ending : RunEnd) (e : Nat) : ending.settlement ≠ .placed e := by
  cases ending <;> simp [RunEnd.settlement]

theorem Good.runInputs (h : Good w gone placed tx staged) {run : LiveRun}
    (hrun : (tx.live c).run = some run) :
    ∃ staged, Good w gone placed tx staged ∧ ∀ id ∈ run.inputs, Placed (view tx.storage staged) id :=
  ⟨staged, h, h.sound.inputs c run hrun⟩

/-- **A run ends**, and its inputs with it. -/
theorem endRun_ensures (h : Good w gone placed tx staged) (ending : RunEnd) :
    Ensures (Counted w) (endRun c ending) tx fun _ tx' =>
      (∃ staged, Good w gone placed tx' staged) ∧ tx'.inbox = tx.inbox := by
  unfold endRun
  apply ensures_liveDoc
  cases hrun : (tx.live c).run with
  | none => exact ensures_pure ⟨⟨staged, h⟩, rfl⟩
  | some run =>
    cases ending with
    | done answer =>
      apply (settleAll_ensures (RunEnd.settlement_ne _) (h.runInputs hrun)).bind
      rintro _ tx' ⟨⟨staged', hgood⟩, hinbox, _⟩
      apply ensures_setLive
      exact ⟨⟨staged', hgood.setRun (by rintro _ ⟨⟩)⟩, hinbox⟩
    | unanswered reason detail =>
      by_cases hafter : run.afterRun
      · simp only [hafter, if_true]
        apply ensures_setLive
        exact ⟨⟨staged, h.setRun (by rintro _ ⟨⟩)⟩, rfl⟩
      · simp only [hafter]
        apply (settleAll_ensures (RunEnd.settlement_ne _) (h.runInputs hrun)).bind
        rintro _ tx' ⟨⟨staged', hgood⟩, hinbox, _⟩
        apply ensures_setLive
        exact ⟨⟨staged', hgood.setRun (by rintro _ ⟨⟩)⟩, hinbox⟩

theorem holdRun_ensures (h : Good w gone placed tx staged) (answer : Nat) :
    Ensures (Counted w) (holdRun c answer) tx fun _ tx' => ∃ staged, Good w gone placed tx' staged := by
  unfold holdRun
  apply ensures_liveDoc
  cases hrun : (tx.live c).run with
  | none => exact ensures_pure ⟨staged, h⟩
  | some run =>
    apply (settleAll_ensures (fun e => by simp) (h.runInputs hrun)).bind
    rintro _ tx' ⟨⟨staged', hgood⟩, _, _⟩
    apply ensures_setLive
    refine ⟨staged', hgood.setRun ?_⟩
    rintro other ⟨⟩ id hid
    cases hid

/-- Inputs join the run. -/
theorem joinRun_ensures (h : Good w gone placed tx staged) {users : List Nat}
    (husers : ∀ id ∈ users, id ∈ placed) :
    Ensures (Counted w) (joinRun c users) tx fun _ tx' => ∃ staged, Good w gone placed tx' staged := by
  unfold joinRun
  apply ensures_liveDoc
  cases hrun : (tx.live c).run with
  | none => exact ensures_pure ⟨staged, h⟩
  | some run =>
    apply ensures_setLive
    refine ⟨staged, h.setRun ?_⟩
    rintro other ⟨⟩ id hid
    rcases List.mem_append.mp hid with hold | hnew
    · exact h.sound.inputs c run hrun id hold
    · exact h.placed id (husers id hnew)

/-! ## Boundaries -/

variable {indexes : List Nat}

section Select

variable {items : List InboxItem}

variable {i : Nat}

theorem mem_pick {mode : InputMode} {queueMode : QueueMode} (h : i ∈ pick items mode queueMode)
    : ∃ item, items[i]? = some item ∧ item.hasMode mode := by
  cases queueMode with
  | all => exact Splice.mem_positions.mp h
  | oneAtATime => exact Splice.mem_positions.mp (List.mem_of_mem_take h)

theorem nodup_pick (mode : InputMode) (queueMode : QueueMode) : (pick items mode queueMode).Nodup := by
  cases queueMode with
  | all => exact Splice.nodup_positions _
  | oneAtATime => exact (Splice.nodup_positions _).sublist (List.take_sublist _ _)

theorem positions_disjoint (keep keep' : InboxItem → Bool) (hne : ∀ item, keep item → ¬ keep' item)
    {xs ys : List Nat} (hxs : ∀ i ∈ xs, ∃ item, items[i]? = some item ∧ keep item)
    (hys : ∀ i ∈ ys, ∃ item, items[i]? = some item ∧ keep' item) : xs.Disjoint ys := by
  intro i hx hy
  obtain ⟨item, hitem, hkeep⟩ := hxs i hx
  obtain ⟨item', hitem', hkeep'⟩ := hys i hy
  rw [hitem, Option.some.injEq] at hitem'
  exact hne item hkeep (hitem' ▸ hkeep')

theorem InboxItem.hasMode_ne {item : InboxItem} (h : item.hasMode .steer) :
    ¬ item.hasMode .followUp := by
  cases item with
  | user id mode content entry =>
    simp only [InboxItem.hasMode, decide_eq_true_eq] at h ⊢
    simp [h]
  | write id entry => cases h

theorem mem_selectUsers {modes : QueueModes} {final : Bool} (h : i ∈ selectUsers items modes final) :
    ∃ item, items[i]? = some item ∧ item.isWrite = false := by
  have huser : ∀ mode queueMode, i ∈ pick items mode queueMode →
      ∃ item, items[i]? = some item ∧ item.isWrite = false := by
    intro mode queueMode hmem
    obtain ⟨item, hitem, hmode⟩ := mem_pick hmem
    refine ⟨item, hitem, ?_⟩
    cases item with
    | user _ _ _ _ => rfl
    | write _ _ => cases hmode
  rw [selectUsers, List.mem_mergeSort, List.mem_append] at h
  rcases h with h | h
  · exact huser _ _ h
  · cases final with
    | true => exact huser _ _ h
    | false => cases h

theorem nodup_selectUsers (modes : QueueModes) (final : Bool) :
    (selectUsers items modes final).Nodup := by
  rw [selectUsers, (List.mergeSort_perm _ _).nodup_iff]
  cases final with
  | false => simpa using nodup_pick .steer modes.steeringMode
  | true =>
    refine (nodup_pick .steer _).append (nodup_pick .followUp _) ?_
    exact positions_disjoint (·.hasMode .steer) (·.hasMode .followUp) (fun _ => InboxItem.hasMode_ne)
      (fun _ => mem_pick) fun _ => mem_pick

/-- No item is selected twice. -/
theorem nodup_selected (modes : QueueModes) (final : Bool) :
    (Splice.positions (·.isWrite) items ++ selectUsers items modes final).Nodup := by
  refine (Splice.nodup_positions _).append (nodup_selectUsers modes final) ?_
  apply positions_disjoint (·.isWrite) (fun item => !item.isWrite)
  · intro item h hnot
    simp [h] at hnot
  · exact fun _ => Splice.mem_positions.mp
  · intro i hi
    obtain ⟨item, hitem, hwrite⟩ := mem_selectUsers hi
    exact ⟨item, hitem, by simp [hwrite]⟩

def idsAt (items : List InboxItem) (indexes : List Nat) : List Nat :=
  indexes.filterMap fun index => items[index]?.map (·.id)

theorem idsAt_append (xs ys : List Nat) : idsAt items (xs ++ ys) = idsAt items xs ++ idsAt items ys :=
  List.filterMap_append

theorem mem_idsAt {id : Nat} :
    id ∈ idsAt items indexes ↔ ∃ i ∈ indexes, ∃ item, items[i]? = some item ∧ item.id = id := by
  simp only [idsAt, List.mem_filterMap, Option.map_eq_some_iff]

theorem index_eq (hsorted : items.Pairwise (·.id < ·.id)) {j : Nat} {item item' : InboxItem}
    (hi : items[i]? = some item) (hj : items[j]? = some item') (hid : item.id = item'.id)
    : i = j := by
  rw [List.pairwise_iff_getElem] at hsorted
  obtain ⟨hi', rfl⟩ := List.getElem?_eq_some_iff.mp hi
  obtain ⟨hj', rfl⟩ := List.getElem?_eq_some_iff.mp hj
  rcases Nat.lt_trichotomy i j with hlt | heq | hgt
  · exact absurd hid (Nat.ne_of_lt (hsorted i j hi' hj' hlt))
  · exact heq
  · exact absurd hid.symm (Nat.ne_of_lt (hsorted j i hj' hi' hgt))

end Select

/-- What holds while a boundary places the items it selected. -/
structure Placings (w : World) (gone placed : List Nat) (c : Nat) (items : List InboxItem) (tx : Tx) :
    Prop where
  good : ∃ staged, Good w gone placed tx staged
  inbox : tx.inbox c = items

/-- A write is placed. -/
theorem placeWrite_ensures {items : List InboxItem} (h : Placings w gone placed c items tx) {index : Nat}
    {item : InboxItem} (hitem : items[index]? = some item) (hwrite : item.isWrite)
    (hgone : item.id ∉ gone) (placing : Placing) :
    Ensures (Counted w) (placeWrite c items placing index) tx fun _ tx' =>
      Placings w (item.id :: gone) placed c items tx' := by
  obtain ⟨⟨staged, hgood⟩, hinbox⟩ := h
  have hmem : item ∈ tx.inbox c := hinbox ▸ List.mem_of_getElem? hitem
  cases item with
  | user _ _ _ _ => cases hwrite
  | write id draft =>
    unfold placeWrite
    rw [hitem]
    by_cases hstale : isStale placing.head draft
    · simp only [hstale, if_true]
      apply ensures_changeSubmission
      exact ensures_pure ⟨hgood.withdraw hmem hgone "stale" none, hinbox⟩
    · simp only [hstale]
      apply (appendEntry_ensures hgood draft).bind
      rintro e tx' ⟨hgood', hspare, hinbox', _⟩
      apply ensures_changeSubmission
      obtain ⟨staged', hplaced⟩ := hgood'.place (hinbox' ▸ hmem) hgone hspare
      refine ensures_pure ⟨⟨staged', { hplaced with placed := ?_ }⟩, hinbox' ▸ hinbox⟩
      exact fun other hother => hplaced.placed other (List.mem_cons_of_mem _ hother)

/-- An input is placed. -/
theorem placeUser_ensures {items : List InboxItem} (h : Placings w gone placed c items tx) {index : Nat}
    {item : InboxItem} (hitem : items[index]? = some item) (hwrite : item.isWrite = false)
    (hgone : item.id ∉ gone) (now : Nat) (users : PlacedUsers) (husers : ∀ id ∈ users.users, id ∈ placed) :
    Ensures (Counted w) (placeUser c items now users index) tx fun users' tx' =>
      Placings w (item.id :: gone) (item.id :: placed) c items tx'
        ∧ ∀ id ∈ users'.users, id ∈ item.id :: placed := by
  obtain ⟨⟨staged, hgood⟩, hinbox⟩ := h
  have hmem : item ∈ tx.inbox c := hinbox ▸ List.mem_of_getElem? hitem
  cases item with
  | write _ _ => cases hwrite
  | user id mode content entry =>
    unfold placeUser
    rw [hitem]
    apply (appendEntry_ensures hgood _).bind
    rintro e tx' ⟨hgood', hspare, hinbox', _⟩
    apply ensures_changeSubmission
    refine ensures_pure ⟨⟨hgood'.place (hinbox' ▸ hmem) hgone hspare, hinbox' ▸ hinbox⟩, ?_⟩
    intro other hother
    rcases List.mem_append.mp hother with hold | hnew
    · exact List.mem_cons_of_mem _ (husers other hold)
    · rw [List.mem_singleton.mp hnew]
      exact List.mem_cons_self

/-- The items at `indexes` are still waiting. -/
def Waiting (items : List InboxItem) (gone indexes : List Nat) : Prop :=
  indexes.Nodup ∧ ∀ i ∈ indexes, ∀ item, items[i]? = some item → item.id ∉ gone

theorem Waiting.rest {items : List InboxItem} (hsorted : items.Pairwise (·.id < ·.id)) {index : Nat}
    (h : Waiting items gone (index :: indexes)) {item : InboxItem}
    (hitem : items[index]? = some item) : Waiting items (item.id :: gone) indexes := by
  have hn := List.nodup_cons.mp h.1
  refine ⟨hn.2, ?_⟩
  intro i hi other hother
  rw [List.mem_cons, not_or]
  refine ⟨?_, h.2 i (List.mem_cons_of_mem _ hi) other hother⟩
  intro hid
  exact hn.1 (index_eq hsorted hother hitem hid ▸ hi)

theorem idsAt_cons {items : List InboxItem} {index : Nat} {item : InboxItem}
    (hitem : items[index]? = some item) :
    idsAt items (index :: indexes) = item.id :: idsAt items indexes := by
  simp [idsAt, hitem]

theorem placeWrites_ensures {items : List InboxItem} (hsorted : items.Pairwise (·.id < ·.id))
    (hwrites : ∀ i ∈ indexes, ∃ item, items[i]? = some item ∧ item.isWrite)
    (hwaiting : Waiting items gone indexes) (h : Placings w gone placed c items tx)
    (placing : Placing) :
    Ensures (Counted w) (indexes.foldlM (placeWrite c items) placing) tx fun _ tx' =>
      Placings w ((idsAt items indexes).reverse ++ gone) placed c items tx' := by
  induction indexes generalizing gone tx placing with
  | nil => exact ensures_pure h
  | cons index indexes ih =>
    obtain ⟨item, hitem, hwrite⟩ := hwrites index List.mem_cons_self
    rw [List.foldlM_cons, idsAt_cons hitem]
    apply (placeWrite_ensures h hitem hwrite (hwaiting.2 index List.mem_cons_self item hitem) placing).bind
    intro placing' tx' h'
    have hrest := ih (fun i hi => hwrites i (List.mem_cons_of_mem _ hi)) (hwaiting.rest hsorted hitem)
      h' placing'
    simpa using hrest

/-- **The selected inputs**, one after the other. -/
theorem placeUsers_ensures {items : List InboxItem} (hsorted : items.Pairwise (·.id < ·.id))
    (hinputs : ∀ i ∈ indexes, ∃ item, items[i]? = some item ∧ item.isWrite = false)
    (hwaiting : Waiting items gone indexes) (h : Placings w gone placed c items tx) (now : Nat)
    (users : PlacedUsers) (husers : ∀ id ∈ users.users, id ∈ placed) :
    Ensures (Counted w) (indexes.foldlM (placeUser c items now) users) tx fun users' tx' =>
      ∃ more, Placings w ((idsAt items indexes).reverse ++ gone) (more ++ placed) c items tx'
        ∧ ∀ id ∈ users'.users, id ∈ more ++ placed := by
  induction indexes generalizing gone placed tx users with
  | nil => exact ensures_pure ⟨[], h, husers⟩
  | cons index indexes ih =>
    obtain ⟨item, hitem, hwrite⟩ := hinputs index List.mem_cons_self
    rw [List.foldlM_cons, idsAt_cons hitem]
    apply (placeUser_ensures h hitem hwrite (hwaiting.2 index List.mem_cons_self item hitem) now users
      husers).bind
    rintro users' tx' ⟨h', husers'⟩
    apply (ih (fun i hi => hinputs i (List.mem_cons_of_mem _ hi)) (hwaiting.rest hsorted hitem) h' users'
      husers').mono
    rintro users'' tx'' ⟨more, hplacings, hmore⟩
    refine ⟨more ++ [item.id], ?_, ?_⟩
    · simpa using hplacings
    · simpa using hmore

/-- **A boundary** places what it selects and takes exactly that out of the inbox. -/
theorem applyBoundary_ensures (h : Good w [] placed tx staged) (boundary : Boundary) (kind : BoundaryKind)
    (now : Nat) :
    Ensures (Counted w) (applyBoundary c boundary kind now) tx fun result tx' =>
      ∃ more staged', Good w [] (more ++ placed) tx' staged' ∧ ∀ id ∈ result.users, id ∈ more ++ placed := by
  unfold applyBoundary
  apply ensures_items
  have hsorted := h.sound.sorted c
  set writes := Splice.positions (·.isWrite) (tx.inbox c) with hwrites
  set selected := selectUsers (tx.inbox c) boundary.modes (kind = .final || hasQueuedReset (tx.inbox c))
    with hselected
  have hn : (writes ++ selected).Nodup := nodup_selected _ _
  obtain ⟨hnw, hnu, hdisjoint⟩ := List.nodup_append.mp hn
  apply (placeWrites_ensures hsorted (fun _ => Splice.mem_positions.mp)
    ⟨hnw, fun _ _ _ _ => List.not_mem_nil⟩ ⟨⟨staged, h⟩, rfl⟩ _).bind
  intro placing tx1 h1
  have hwaiting : Waiting (tx.inbox c) ((idsAt (tx.inbox c) writes).reverse ++ []) selected := by
    refine ⟨hnu, ?_⟩
    intro i hi item hitem hmem
    rw [List.append_nil, List.mem_reverse, mem_idsAt] at hmem
    obtain ⟨j, hj, other, hother, hid⟩ := hmem
    exact hdisjoint j hj i hi (index_eq hsorted hother hitem hid)
  apply (placeUsers_ensures hsorted (fun _ => mem_selectUsers) hwaiting h1 now ⟨[], placing.first⟩
    (by simp)).bind
  rintro users tx2 ⟨more, ⟨⟨staged2, hgood2⟩, hinbox2⟩, husers⟩
  apply ensures_setItems
  refine ensures_pure ⟨more, staged2, { hgood2 with sound := ?_ }, husers⟩
  -- gone are the ids at the positions that are spliced out
  have hgone : ∀ id, id ∈ (idsAt (tx.inbox c) selected).reverse
        ++ ((idsAt (tx.inbox c) writes).reverse ++ [])
      ↔ ∃ i ∈ writes ++ selected, ∃ item, (tx.inbox c)[i]? = some item ∧ item.id = id := by
    intro id
    rw [← mem_idsAt, idsAt_append, List.mem_append, List.append_nil, List.mem_append,
      List.mem_reverse, List.mem_reverse, or_comm]
  apply hgood2.sound.drop (c := c)
  · rw [hinbox2]
    exact Splice.removeAll_sublist _
  · intro item hitem
    rw [hinbox2] at hitem
    obtain ⟨j, hj⟩ := List.mem_iff_getElem?.mp hitem
    rw [Splice.mem_removeAll hn, hgone]
    constructor
    · rintro ⟨i, hi, hget⟩ ⟨i', hi', other, hother, hid⟩
      exact hi (index_eq hsorted hother hget hid ▸ hi')
    · intro hnot
      exact ⟨j, fun hmem => hnot ⟨j, hmem, item, hj, rfl⟩, hj⟩
  · intro c' item hitem hmem
    obtain ⟨i, _, other, hother, hid⟩ := (hgone item.id).mp hmem
    have hin : other ∈ tx2.inbox c := hinbox2 ▸ List.mem_of_getElem? hother
    exact hgood2.sound.item_eq hitem hin hid.symm

end

end ThreeXhaust.Harness
