import ThreeXhaust.Harness.InboxSound
import ThreeXhaust.Lib.Ensures

/-!
# What a commit does to the inbox

Each operation of `Inbox` is followed through its commit. `Good` is what holds of the open commit at
every point: the table that its changes resolve to is sound, every record in it has moved from the one
that is stored, and an entry that a record names is stored or staged. The operations that place items
leave some behind as `gone`, until the inbox is spliced.
-/

namespace ThreeXhaust.Harness

open Durable EStateM

/-! ## The open commit -/

def view (storage : Memory) (staged : List (Nat × SubmissionRecord)) : Submissions := fun id =>
  (staged.lookup id).or (storage.state.submissions id)

theorem view_set (storage : Memory) (staged : List (Nat × SubmissionRecord)) (id : Nat)
    (r : SubmissionRecord) :
    view storage (Assoc.set staged id r) = Function.update (view storage staged) id (some r) := by
  funext other
  rw [view, Assoc.lookup_set]
  by_cases hother : other = id
  · rw [if_pos hother, hother, Function.update_self]
    rfl
  · rw [if_neg hother, Function.update_of_ne hother]
    rfl

/-- What an open commit of `w` has staged; `staged` are its submissions with every change resolved. -/
structure Staged (w : World) (tx : Tx) (staged : List (Nat × SubmissionRecord)) : Prop where
  state : tx.storage.state = w.storage.state
  seq : tx.storage.nextSeq = w.storage.nextSeq
  next : w.storage.nextId ≤ tx.storage.nextId
  resolved : resolveSubmissions tx.storage tx.table = .ok staged
  keys : (staged.map (·.1)).Nodup
  keyed : ∀ entry ∈ staged, entry.2.id = entry.1
  writes : ∀ write ∈ tx.table.writes, ∃ e, write = .entry e ∧ e.id < tx.storage.nextId
  entrySorted : (entryValues tx.table.writes).Pairwise (·.id < ·.id)
  moves : ∀ id r, w.storage.state.submissions id = some r →
    ∃ r', view tx.storage staged id = some r' ∧ Moves r r'
  entries : ∀ id r e, view tx.storage staged id = some r → r.entry = some e →
    (∃ old, w.storage.state.submissions id = some old ∧ old.entry = some e)
      ∨ ∃ rec, .entry rec ∈ tx.table.writes ∧ rec.id = e ∧ rec.conversationId = r.conversationId

/-- An open commit of `w`; `placed` are submissions that wait no longer. -/
structure Good (w : World) (gone placed : List Nat) (tx : Tx) (staged : List (Nat × SubmissionRecord)) :
    Prop extends Staged w tx staged where
  sound : Sound gone (view tx.storage staged) tx.inbox tx.live tx.storage.nextId
  placed : ∀ id ∈ placed, Placed (view tx.storage staged) id

structure Spare (tx : Tx) (staged : List (Nat × SubmissionRecord)) (c e : Nat) : Prop where
  free : ∀ other q, view tx.storage staged other = some q → q.entry ≠ some e
  staged : ∃ rec, .entry rec ∈ tx.table.writes ∧ rec.id = e ∧ rec.conversationId = c

def Counted (w : World) (tx : Tx) : Prop := w.storage.nextId ≤ tx.storage.nextId

section

variable {w : World} {gone placed : List Nat} {tx : Tx} {staged : List (Nat × SubmissionRecord)}

/-! ## Steps -/

theorem Good.noteWrite (h : Good w gone placed tx staged) :
    Good w gone placed { tx with table := Transaction.noteWrite tx.table } staged :=
  { h with }

theorem Good.mint (h : Good w gone placed tx staged) :
    Good w gone placed { tx with storage := { tx.storage with nextId := tx.storage.nextId + 1 } } staged where
  state := h.state
  seq := h.seq
  next := Nat.le_succ_of_le h.next
  resolved := h.resolved
  keys := h.keys
  keyed := h.keyed
  writes := by
    intro write hwrite
    obtain ⟨e, he, hlt⟩ := h.writes write hwrite
    exact ⟨e, he, Nat.lt_succ_of_lt hlt⟩
  entrySorted := h.entrySorted
  moves := h.moves
  entries := h.entries
  sound := h.sound.mono (Nat.le_succ _)
  placed := h.placed

theorem entryValues_append (writes more : List StorageWrite) :
    entryValues (writes ++ more) = entryValues writes ++ entryValues more := List.filterMap_append

theorem Good.entry (h : Good w gone placed tx staged) {id : Nat} (hid : id < tx.storage.nextId)
    (hless : ∀ e, .entry e ∈ tx.table.writes → e.id < id) {entry : EntryRecord} (hentry : entry.id = id) :
    Good w gone placed { tx with table := { tx.table with writes := tx.table.writes ++ [.entry entry] } }
      staged :=
  { h with
    writes := by
      intro write hwrite
      rcases List.mem_append.mp hwrite with hold | hnew
      · exact h.writes write hold
      · exact ⟨entry, List.mem_singleton.mp hnew, hentry ▸ hid⟩
    entrySorted := by
      show (entryValues (tx.table.writes ++ [.entry entry])).Pairwise _
      rw [entryValues_append, List.pairwise_append]
      refine ⟨h.entrySorted, List.pairwise_singleton _ _, ?_⟩
      intro e he last hlast
      have hlast' : last = entry := by simpa [entryValues] using hlast
      rw [hlast', hentry]
      obtain ⟨write, hwrite, heq⟩ := List.mem_filterMap.mp he
      cases write with
      | entry other =>
        cases heq
        exact hless e hwrite
      | conversation _ | task _ | submission _ | create _ _ _ | copy _ _ | change _ _ | retire _ =>
        cases heq
    entries := by
      intro id r e hr he
      rcases h.entries id r e hr he with hold | ⟨rec, hrec, hrest⟩
      · exact .inl hold
      · exact .inr ⟨rec, List.mem_append_left _ hrec, hrest⟩ }

theorem Good.entry_lt (h : Good w gone placed tx staged) {e : EntryRecord}
    (he : .entry e ∈ tx.table.writes) : e.id < tx.storage.nextId := by
  obtain ⟨other, heq, hlt⟩ := h.writes _ he
  cases heq
  exact hlt

def pushed (tx : Tx) (id : Nat) (change : SubmissionChange) : Tx :=
  { tx with
    table := { tx.table with
      hasTableWrite := true
      submissionChanges := tx.table.submissionChanges ++ [(id, change)] } }

theorem resolve_pushed (h : resolveSubmissions tx.storage tx.table = .ok staged) (id : Nat)
    (change : SubmissionChange) :
    resolveSubmissions (pushed tx id change).storage (pushed tx id change).table
      = resolveChange tx.storage staged (id, change) := by
  show (tx.table.submissionChanges ++ [(id, change)]).foldlM (resolveChange tx.storage)
    tx.table.submissions = _
  rw [List.foldlM_append, show tx.table.submissionChanges.foldlM (resolveChange tx.storage)
    tx.table.submissions = .ok staged from h]
  rw [Except.ok_bind, List.foldlM_cons]
  cases resolveChange tx.storage staged (id, change) with
  | error e => rfl
  | ok next => rfl

variable {r : SubmissionRecord}

/-- **A change that moves its submission.** -/
theorem Good.push (h : Good w gone placed tx staged) {id : Nat} {change : SubmissionChange}
    {r' : SubmissionRecord} (hr : view tx.storage staged id = some r)
    (happly : Transaction.applySubmissionChange r change = .ok (some r'))
    (hentry : ∀ e, r'.entry = some e → r.entry = some e
      ∨ (∀ other q, view tx.storage staged other = some q → q.entry ≠ some e)
        ∧ ∃ rec, .entry rec ∈ tx.table.writes ∧ rec.id = e ∧ rec.conversationId = r.conversationId) :
    Good w (id :: gone) placed (pushed tx id change) (Assoc.set staged id r') := by
  have hmove : Move r r' := by
    apply applySubmissionChange_move happly
    intro hqueued
    have hwell := h.sound.wellFormed id r hr
    unfold WellFormed at hwell
    rw [hqueued] at hwell
    exact hwell.2
  have hview : view tx.storage (Assoc.set staged id r')
      = Function.update (view tx.storage staged) id (some r') := view_set _ _ _ _
  have hid : r'.id = id := hmove.same.1.trans (h.sound.keyed id r hr).1
  constructor
  · constructor
    case state => exact h.state
    case seq => exact h.seq
    case next => exact h.next
    case resolved =>
      have hcurrent : (staged.lookup id).or (tx.storage.state.submissions id) = some r := hr
      rw [resolve_pushed h.resolved]
      simp only [resolveChange, hcurrent, happly]
    case keys => exact Assoc.nodup_set h.keys
    case keyed =>
      intro entry hmem
      rcases Assoc.mem_set hmem with rfl | hold
      · exact hid
      · exact h.keyed entry hold
    case writes => exact h.writes
    case entrySorted => exact h.entrySorted
    case moves =>
      intro other old hold
      obtain ⟨q, hq, hmoves⟩ := h.moves other old hold
      show ∃ q', view tx.storage (Assoc.set staged id r') other = some q' ∧ Moves old q'
      rw [hview]
      by_cases hother : other = id
      · subst hother
        rw [hr, Option.some.injEq] at hq
        subst hq
        exact ⟨r', by rw [Function.update_self], hmoves.tail hmove⟩
      · exact ⟨q, by rw [Function.update_of_ne hother, hq], hmoves⟩
    case entries =>
      intro other q e hq he
      change view tx.storage (Assoc.set staged id r') other = some q at hq
      rw [hview] at hq
      by_cases hother : other = id
      · subst hother
        rw [Function.update_self, Option.some.injEq] at hq
        subst hq
        rw [hmove.same.2.1]
        rcases hentry e he with hsame | ⟨_, hrec⟩
        · exact h.entries _ r e hr hsame
        · exact .inr hrec
      · rw [Function.update_of_ne hother] at hq
        exact h.entries other q e hq he
  case sound =>
    show Sound (id :: gone) (view tx.storage (Assoc.set staged id r')) tx.inbox tx.live tx.storage.nextId
    rw [hview]
    apply h.sound.change hr hmove
    intro e he
    rcases hentry e he with hsame | ⟨hfree, rec, hrec, rfl, _⟩
    · exact .inl hsame
    · exact .inr ⟨h.entry_lt hrec, hfree⟩
  case placed =>
    intro other hother
    show Placed (view tx.storage (Assoc.set staged id r')) other
    rw [hview]
    exact (h.placed other hother).update hmove.notQueued

theorem Good.notePlaced (h : Good w gone placed tx staged) {id : Nat}
    (hr : view tx.storage staged id = some r) (hstatus : r.status ≠ .queued) :
    Good w gone (id :: placed) tx staged :=
  { h with
    placed := by
      intro other hother
      rcases List.mem_cons.mp hother with rfl | hold
      · exact ⟨r, hr, hstatus⟩
      · exact h.placed other hold }

theorem Good.push_settled (h : Good w gone placed tx staged) {id : Nat} {change : SubmissionChange}
    (hr : view tx.storage staged id = some r)
    (happly : Transaction.applySubmissionChange r change = .ok none) :
    Good w gone placed (pushed tx id change) staged :=
  { h with
    resolved := by
      have hcurrent : (staged.lookup id).or (tx.storage.state.submissions id) = some r := hr
      rw [resolve_pushed h.resolved]
      simp only [resolveChange, hcurrent, happly] }

/-- The commit with one more submission, under the id that is minted for it. -/
def created (tx : Tx) (r : SubmissionRecord) (inbox : Nat → List InboxItem) : Tx where
  table := { tx.table with
    submissions := Assoc.set tx.table.submissions tx.storage.nextId r
    hasTableWrite := true }
  storage := { tx.storage with nextId := tx.storage.nextId + 1 }
  inbox := inbox
  live := tx.live

/-- **A submission is staged**, before any change. -/
theorem Good.insert (h : Good w gone placed tx staged) (hnone : tx.table.submissionChanges = [])
    (hid : r.id = tx.storage.nextId) (hentry : ∀ e, r.entry = some e →
      ∃ rec, .entry rec ∈ tx.table.writes ∧ rec.id = e ∧ rec.conversationId = r.conversationId)
    {inbox : Nat → List InboxItem}
    (hsound : Sound gone (Function.update (view tx.storage staged) tx.storage.nextId (some r)) inbox
      tx.live (tx.storage.nextId + 1)) :
    Good w gone placed (created tx r inbox) (Assoc.set staged tx.storage.nextId r) := by
  have hview : view tx.storage (Assoc.set staged tx.storage.nextId r)
      = Function.update (view tx.storage staged) tx.storage.nextId (some r) := view_set _ _ _ _
  have hfresh : view tx.storage staged tx.storage.nextId = none := by
    cases hold : view tx.storage staged tx.storage.nextId with
    | none => rfl
    | some q => exact absurd (h.sound.keyed _ q hold).2 (lt_irrefl _)
  have hsubmissions : tx.table.submissions = staged := by
    have hresolved := h.resolved
    unfold resolveSubmissions at hresolved
    rw [hnone, List.foldlM_nil] at hresolved
    cases hresolved
    rfl
  constructor
  · constructor
    case state => exact h.state
    case seq => exact h.seq
    case next => exact Nat.le_succ_of_le h.next
    case resolved =>
      show tx.table.submissionChanges.foldlM _ (Assoc.set tx.table.submissions _ r) = _
      rw [hnone, hsubmissions]
      rfl
    case keys => exact Assoc.nodup_set h.keys
    case keyed =>
      intro entry hmem
      rcases Assoc.mem_set hmem with rfl | hold
      · exact hid
      · exact h.keyed entry hold
    case writes =>
      intro write hwrite
      obtain ⟨e, he, hlt⟩ := h.writes write hwrite
      exact ⟨e, he, Nat.lt_succ_of_lt hlt⟩
    case entrySorted => exact h.entrySorted
    case moves =>
      intro other old hold
      obtain ⟨q, hq, hmoves⟩ := h.moves other old hold
      refine ⟨q, ?_, hmoves⟩
      show view tx.storage (Assoc.set staged tx.storage.nextId r) other = some q
      have hne : other ≠ tx.storage.nextId := by
        rintro rfl
        rw [hfresh] at hq
        cases hq
      rw [hview, Function.update_of_ne hne, hq]
    case entries =>
      intro other q e hq he
      change view tx.storage (Assoc.set staged tx.storage.nextId r) other = some q at hq
      rw [hview] at hq
      by_cases hother : other = tx.storage.nextId
      · rw [hother, Function.update_self, Option.some.injEq] at hq
        subst hq
        exact .inr (hentry e he)
      · rw [Function.update_of_ne hother] at hq
        exact h.entries other q e hq he
  case sound =>
    show Sound gone (view tx.storage (Assoc.set staged tx.storage.nextId r)) inbox tx.live
      (tx.storage.nextId + 1)
    rw [hview]
    exact hsound
  case placed =>
    intro other hother
    show Placed (view tx.storage (Assoc.set staged tx.storage.nextId r)) other
    rw [hview]
    exact (h.placed other hother).insert hfresh

theorem Good.forget {more : List Nat} (h : Good w more placed tx staged)
    (hless : ∀ c, ∀ item ∈ tx.inbox c, item.id ∉ more ↔ item.id ∉ gone) :
    Good w gone placed tx staged :=
  { h with sound := h.sound.forget hless }

/-! ## What happens to one submission -/

theorem applySubmissionChange_placed (hstatus : r.status = .queued) (e : Nat) :
    Transaction.applySubmissionChange r (.placed e)
      = .ok (some { r with
          status := if r.type = .input then .placed else .done
          entry := some e }) := by
  simp [Transaction.applySubmissionChange, hstatus]

theorem applySubmissionChange_unanswered (hstatus : r.status = .queued ∨ r.status = .placed)
    (reason : String) (detail : Option Json.Value) :
    Transaction.applySubmissionChange r (.unanswered reason detail)
      = .ok (some { r with status := .unanswered, reason := some reason, detail := detail }) := by
  rcases hstatus with hstatus | hstatus
  · simp [Transaction.applySubmissionChange, hstatus]
  · simp [Transaction.applySubmissionChange, hstatus]

theorem applySubmissionChange_done (hstatus : r.status = .placed) (answer : Nat) :
    Transaction.applySubmissionChange r (.done answer)
      = .ok (some { r with status := .done, answer := some answer }) := by
  simp [Transaction.applySubmissionChange, hstatus]

theorem applySubmissionChange_settled (hstatus : r.status = .done ∨ r.status = .unanswered)
    (change : SubmissionChange) : Transaction.applySubmissionChange r change = .ok none := by
  simp [Transaction.applySubmissionChange, hstatus]

/-- **A queued item is placed** at an entry that is staged for it. -/
theorem Good.place (h : Good w gone placed tx staged) {c e : Nat} {item : InboxItem}
    (hitem : item ∈ tx.inbox c) (hgone : item.id ∉ gone) (hspare : Spare tx staged c e) :
    ∃ staged', Good w (item.id :: gone) (item.id :: placed) (pushed tx item.id (.placed e)) staged' := by
  obtain ⟨r, hr, hconversation, _, hqueued⟩ := h.sound.owned c item hitem
  have hpush := h.push hr (applySubmissionChange_placed (hqueued.mpr hgone) e) ?_
  · refine ⟨_, hpush.notePlaced (r := _) (view_set _ _ _ _ ▸ Function.update_self _ _ _) ?_⟩
    show (if r.type = .input then SubmissionStatus.placed else .done) ≠ .queued
    split <;> simp
  · intro e' he'
    rw [Option.some.injEq] at he'
    subst he'
    exact .inr ⟨hspare.free, hconversation ▸ hspare.staged⟩

/-- **A queued item is withdrawn**, or stale. -/
theorem Good.withdraw (h : Good w gone placed tx staged) {c : Nat} {item : InboxItem}
    (hitem : item ∈ tx.inbox c) (hgone : item.id ∉ gone) (reason : String) (detail : Option Json.Value) :
    ∃ staged', Good w (item.id :: gone) placed (pushed tx item.id (.unanswered reason detail)) staged' := by
  obtain ⟨r, hr, _, _, hqueued⟩ := h.sound.owned c item hitem
  refine ⟨_, h.push hr (applySubmissionChange_unanswered (.inl (hqueued.mpr hgone)) reason detail) ?_⟩
  exact fun e he => .inl he

/-- **A submission is settled** that waits no longer. -/
theorem Good.settle (h : Good w gone placed tx staged) {id : Nat}
    (hid : Placed (view tx.storage staged) id) {settlement : SubmissionChange}
    (hsettlement : ∀ e, settlement ≠ .placed e) :
    ∃ staged', Good w gone placed (pushed tx id settlement) staged' := by
  obtain ⟨r, hr, hstatus⟩ := hid
  -- an item of it has been gone before
  have hforget : ∀ c, ∀ item ∈ tx.inbox c, item.id ∉ id :: gone ↔ item.id ∉ gone := by
    intro c item hitem
    obtain ⟨q, hq, _, _, hqueued⟩ := h.sound.owned c item hitem
    rw [List.mem_cons, not_or]
    constructor
    · exact fun hnot => hnot.2
    · intro hnot
      refine ⟨?_, hnot⟩
      rintro heq
      rw [heq, hr, Option.some.injEq] at hq
      exact hstatus (hq ▸ hqueued.mpr hnot)
  cases hcase : r.status with
  | queued => exact absurd hcase hstatus
  | placed =>
    cases settlement with
    | placed e => exact absurd rfl (hsettlement e)
    | done answer =>
      have hpush := h.push hr (applySubmissionChange_done hcase answer) fun e he => .inl he
      exact ⟨_, hpush.forget hforget⟩
    | unanswered reason detail =>
      have hpush := h.push hr (applySubmissionChange_unanswered (.inr hcase) reason detail)
        fun e he => .inl he
      exact ⟨_, hpush.forget hforget⟩
  | done => exact ⟨_, h.push_settled hr (applySubmissionChange_settled (.inl hcase) _)⟩
  | unanswered => exact ⟨_, h.push_settled hr (applySubmissionChange_settled (.inr hcase) _)⟩

end

end ThreeXhaust.Harness
