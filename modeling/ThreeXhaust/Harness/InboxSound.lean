import ThreeXhaust.Durable.Tables
import ThreeXhaust.Harness.Inbox

/-!
# Submissions and the inboxes they wait in

The queue of a conversation is kept twice, as the items of its inbox and as the submissions with
status `queued`. `Sound` is their agreement, on the table of submissions as data: a table that a
commit has staged is sound as well as a stored one. While a boundary places items it has changed the
records of some whose items are still in the inbox; these ids are `gone`.

* `Move` — one change of a submission; `Moves` is any number of them.
-/

namespace ThreeXhaust.Harness

open Durable
open Durable.Transaction (applySubmissionChange)

/-! ## Submissions -/

inductive Move : SubmissionRecord → SubmissionRecord → Prop where
  | place (r : SubmissionRecord) (entry : Nat) (hstatus : r.status = .queued) (htype : r.type = .input) :
      Move r { r with status := .placed, entry := some entry }
  | write (r : SubmissionRecord) (entry : Nat) (hstatus : r.status = .queued) (htype : r.type = .write) :
      Move r { r with status := .done, entry := some entry }
  | withdraw (r : SubmissionRecord) (reason : String) (detail : Option Json.Value)
      (hstatus : r.status = .queued) :
      Move r { r with status := .unanswered, reason := some reason, detail := detail }
  | answer (r : SubmissionRecord) (answer : Nat) (hstatus : r.status = .placed) :
      Move r { r with status := .done, answer := some answer }
  | fail (r : SubmissionRecord) (reason : String) (detail : Option Json.Value)
      (hstatus : r.status = .placed) :
      Move r { r with status := .unanswered, reason := some reason, detail := detail }

abbrev Moves := Relation.ReflTransGen Move

/-- The entry of a submission by its status: a queued one has none, a placed or done one has one, but a
continue never has. -/
def WellFormed (r : SubmissionRecord) : Prop :=
  match r.status with
  | .queued => r.entry = none ∧ r.type ≠ .continue
  | .placed => (r.entry.isSome ↔ r.type ≠ .continue) ∧ r.type ≠ .write
  | .done => r.entry.isSome ↔ r.type ≠ .continue
  | .unanswered => r.type ≠ .input → r.entry = none

section Move

variable {r r' : SubmissionRecord}

theorem Move.same (h : Move r r') :
    r'.id = r.id ∧ r'.conversationId = r.conversationId ∧ r'.requestId = r.requestId
      ∧ r'.type = r.type := by
  cases h <;> exact ⟨rfl, rfl, rfl, rfl⟩

theorem Move.notQueued (h : Move r r') : r'.status ≠ .queued := by
  cases h <;> simp

theorem Move.wellFormed (h : Move r r') (hr : WellFormed r) : WellFormed r' := by
  unfold WellFormed at hr ⊢
  cases h with
  | place entry hstatus htype =>
    rw [hstatus] at hr
    simp [htype]
  | write entry hstatus htype =>
    rw [hstatus] at hr
    simp [htype]
  | withdraw reason detail hstatus =>
    rw [hstatus] at hr
    exact fun _ => hr.1
  | answer answer hstatus =>
    rw [hstatus] at hr
    exact hr.1
  | fail reason detail hstatus =>
    rw [hstatus] at hr
    intro htype
    cases hkind : r.type with
    | input => exact absurd hkind htype
    | write => exact absurd hkind hr.2
    | «continue» =>
      have hnone : ¬ r.entry.isSome := fun hsome => hr.1.mp hsome hkind
      simpa using hnone

theorem Move.entry (h : Move r r') (hr : WellFormed r) :
    r'.entry = r.entry ∨ r.entry = none ∧ r.status = .queued := by
  unfold WellFormed at hr
  cases h with
  | place entry hstatus _ | write entry hstatus _ =>
    rw [hstatus] at hr
    exact .inr ⟨hr.1, hstatus⟩
  | withdraw _ _ _ | answer _ _ | fail _ _ _ => exact .inl rfl

theorem Moves.same (h : Moves r r') :
    r'.id = r.id ∧ r'.conversationId = r.conversationId ∧ r'.requestId = r.requestId
      ∧ r'.type = r.type := by
  induction h with
  | refl => exact ⟨rfl, rfl, rfl, rfl⟩
  | tail _ hmove ih =>
    obtain ⟨h1, h2, h3, h4⟩ := hmove.same
    exact ⟨h1.trans ih.1, h2.trans ih.2.1, h3.trans ih.2.2.1, h4.trans ih.2.2.2⟩

/-- **Placed at most once**: the entry of a submission never changes. -/
theorem Moves.entry (h : Moves r r') (hr : WellFormed r) {e : Nat} (he : r.entry = some e) :
    r'.entry = some e := by
  have hboth : WellFormed r' ∧ r'.entry = some e := by
    induction h with
    | refl => exact ⟨hr, he⟩
    | tail _ hmove ih =>
      refine ⟨hmove.wellFormed ih.1, ?_⟩
      rcases hmove.entry ih.1 with hsame | ⟨hnone, _⟩
      · exact hsame.trans ih.2
      · rw [ih.2] at hnone
        cases hnone
  exact hboth.2

theorem applySubmissionChange_move {change : SubmissionChange}
    (h : applySubmissionChange r change = .ok (some r')) (htype : r.status = .queued → r.type ≠ .continue) :
    Move r r' := by
  unfold applySubmissionChange at h
  split at h
  · cases h
  · rename_i hopen
    rw [not_or] at hopen
    have hcases : r.status = .queued ∨ r.status = .placed := by
      cases hstatus : r.status with
      | queued => exact .inl rfl
      | placed => exact .inr rfl
      | done => exact absurd hstatus hopen.1
      | unanswered => exact absurd hstatus hopen.2
    cases change with
    | placed entry =>
      simp only at h
      split at h
      · cases h
      · rename_i hqueued
        rw [ne_eq, not_not] at hqueued
        cases h
        cases hkind : r.type with
        | input => simpa [hkind] using Move.place r entry hqueued hkind
        | write => simpa [hkind] using Move.write r entry hqueued hkind
        | «continue» => exact absurd hkind (htype hqueued)
    | done answer =>
      simp only at h
      split at h
      · cases h
      · rename_i hplaced
        rw [ne_eq, not_not] at hplaced
        cases h
        exact .answer r answer hplaced
    | unanswered reason detail =>
      cases h
      rcases hcases with hqueued | hplaced
      · exact .withdraw r reason detail hqueued
      · exact .fail r reason detail hplaced

end Move

/-! ## The inbox and the table -/

def InboxItem.type : InboxItem → SubmissionType
  | .user _ _ _ _ => .input
  | .write _ _ => .write

abbrev Submissions := Nat → Option SubmissionRecord

def Placed (submissions : Submissions) (id : Nat) : Prop :=
  ∃ r, submissions id = some r ∧ r.status ≠ .queued

/-- The inboxes agree with the table, but for the items of the submissions that are `gone`. -/
structure Sound (gone : List Nat) (submissions : Submissions) (inbox : Nat → List InboxItem)
    (live : Nat → LiveState) (nextId : Nat) : Prop where
  keyed : ∀ id r, submissions id = some r → r.id = id ∧ id < nextId
  wellFormed : ∀ id r, submissions id = some r → WellFormed r
  entries : ∀ id r e, submissions id = some r → r.entry = some e → e < nextId
  sorted : ∀ c, (inbox c).Pairwise (·.id < ·.id)
  owned : ∀ c, ∀ item ∈ inbox c, ∃ r, submissions item.id = some r ∧ r.conversationId = c
    ∧ r.type = item.type ∧ (r.status = .queued ↔ item.id ∉ gone)
  listed : ∀ id r, submissions id = some r → r.status = .queued →
    ∃ item ∈ inbox r.conversationId, item.id = id
  entryUnique : ∀ id id' r r' e, submissions id = some r → submissions id' = some r' →
    r.entry = some e → r'.entry = some e → id = id'
  requests : Memory.RequestsUnique submissions
  inputs : ∀ c run, (live c).run = some run → ∀ id ∈ run.inputs, Placed submissions id

section Sound

variable {gone : List Nat} {submissions : Submissions} {inbox : Nat → List InboxItem}
  {live : Nat → LiveState} {nextId : Nat}

theorem Sound.mono (h : Sound gone submissions inbox live nextId) {later : Nat} (hle : nextId ≤ later) :
    Sound gone submissions inbox live later :=
  { h with
    keyed := fun id r hr => ⟨(h.keyed id r hr).1, (h.keyed id r hr).2.trans_le hle⟩
    entries := fun id r e hr he => (h.entries id r e hr he).trans_le hle }

theorem Placed.update {id : Nat} {r' : SubmissionRecord} (hr' : r'.status ≠ .queued) {other : Nat}
    (h : Placed submissions other) : Placed (Function.update submissions id (some r')) other := by
  by_cases hid : other = id
  · rw [hid]
    exact ⟨r', by rw [Function.update_self], hr'⟩
  · obtain ⟨r, hr, hstatus⟩ := h
    exact ⟨r, by rw [Function.update_of_ne hid, hr], hstatus⟩

theorem Placed.insert {id : Nat} {r' : SubmissionRecord} (hid : submissions id = none) {other : Nat}
    (h : Placed submissions other) : Placed (Function.update submissions id (some r')) other := by
  obtain ⟨r, hr, hstatus⟩ := h
  have hne : other ≠ id := by
    rintro rfl
    rw [hid] at hr
    cases hr
  exact ⟨r, by rw [Function.update_of_ne hne, hr], hstatus⟩

variable {c : Nat}

theorem Sound.item_eq (h : Sound gone submissions inbox live nextId) {c' : Nat}
    {item item' : InboxItem} (hitem : item ∈ inbox c) (hitem' : item' ∈ inbox c')
    (hid : item.id = item'.id) : c = c' := by
  obtain ⟨r, hr, hc, _⟩ := h.owned c item hitem
  obtain ⟨r', hr', hc', _⟩ := h.owned c' item' hitem'
  rw [hid, hr', Option.some.injEq] at hr
  rw [← hc, ← hc', hr]

/-- **A submission moves.** Its item, if it has one, is gone; a new entry is one that no other
submission has. -/
theorem Sound.change (h : Sound gone submissions inbox live nextId) {id : Nat} {r r' : SubmissionRecord}
    (hr : submissions id = some r) (hmove : Move r r')
    (hentry : ∀ e, r'.entry = some e → r.entry = some e
      ∨ e < nextId ∧ ∀ other q, submissions other = some q → q.entry ≠ some e) :
    Sound (id :: gone) (Function.update submissions id (some r')) inbox live nextId := by
  obtain ⟨hid, hconversation, hrequest, htype⟩ := hmove.same
  have hnot := hmove.notQueued
  -- a record behind the change is the moved one or an old one
  have hcases : ∀ other q, Function.update submissions id (some r') other = some q →
      other = id ∧ q = r' ∨ other ≠ id ∧ submissions other = some q := by
    intro other q hq
    by_cases hother : other = id
    · rw [hother, Function.update_self, Option.some.injEq] at hq
      exact .inl ⟨hother, hq.symm⟩
    · rw [Function.update_of_ne hother] at hq
      exact .inr ⟨hother, hq⟩
  constructor
  case keyed =>
    intro other q hq
    rcases hcases other q hq with ⟨rfl, rfl⟩ | ⟨_, hold⟩
    · rw [hid]
      exact h.keyed _ r hr
    · exact h.keyed other q hold
  case wellFormed =>
    intro other q hq
    rcases hcases other q hq with ⟨rfl, rfl⟩ | ⟨_, hold⟩
    · exact hmove.wellFormed (h.wellFormed _ r hr)
    · exact h.wellFormed other q hold
  case entries =>
    intro other q e hq he
    rcases hcases other q hq with ⟨rfl, rfl⟩ | ⟨_, hold⟩
    · rcases hentry e he with hsame | ⟨hlt, _⟩
      · exact h.entries _ r e hr hsame
      · exact hlt
    · exact h.entries other q e hold he
  case sorted => exact h.sorted
  case owned =>
    intro c item hitem
    obtain ⟨q, hq, hc, hkind, hqueued⟩ := h.owned c item hitem
    by_cases hother : item.id = id
    · rw [hother, hr, Option.some.injEq] at hq
      subst hq
      refine ⟨r', by rw [hother, Function.update_self], hconversation.trans hc, htype.trans hkind, ?_⟩
      simp [hother, hnot]
    · refine ⟨q, by rw [Function.update_of_ne hother, hq], hc, hkind, ?_⟩
      simp [hother, hqueued]
  case listed =>
    intro other q hq hqueued
    rcases hcases other q hq with ⟨rfl, rfl⟩ | ⟨_, hold⟩
    · exact absurd hqueued hnot
    · exact h.listed other q hold hqueued
  case entryUnique =>
    intro a b q q' e hq hq' he he'
    rcases hcases a q hq with ⟨rfl, rfl⟩ | ⟨_, hold⟩
    · rcases hcases b q' hq' with ⟨rfl, rfl⟩ | ⟨_, hold'⟩
      · rfl
      · rcases hentry e he with hsame | ⟨_, hfree⟩
        · exact h.entryUnique _ b r q' e hr hold' hsame he'
        · exact absurd he' (hfree b q' hold')
    · rcases hcases b q' hq' with ⟨rfl, rfl⟩ | ⟨_, hold'⟩
      · rcases hentry e he' with hsame | ⟨_, hfree⟩
        · exact h.entryUnique a _ q r e hold hr he hsame
        · exact absurd he (hfree a q hold)
      · exact h.entryUnique a b q q' e hold hold' he he'
  case requests =>
    intro a b q q' request hq hq' hsame hqr hqr'
    rcases hcases a q hq with ⟨rfl, rfl⟩ | ⟨_, hold⟩
    · rcases hcases b q' hq' with ⟨rfl, rfl⟩ | ⟨_, hold'⟩
      · rfl
      · exact h.requests _ b r q' request hr hold' (hconversation.symm.trans hsame)
          (hrequest.symm.trans hqr) hqr'
    · rcases hcases b q' hq' with ⟨rfl, rfl⟩ | ⟨_, hold'⟩
      · exact h.requests a _ q r request hold hr (hsame.trans hconversation) hqr
          (hrequest.symm.trans hqr')
      · exact h.requests a b q q' request hold hold' hsame hqr hqr'
  case inputs => exact fun c run hrun other hother => (h.inputs c run hrun other hother).update hnot

theorem Sound.forget (h : Sound gone submissions inbox live nextId) {less : List Nat}
    (hless : ∀ c, ∀ item ∈ inbox c, item.id ∉ gone ↔ item.id ∉ less) :
    Sound less submissions inbox live nextId :=
  { h with
    owned := by
      intro c item hitem
      obtain ⟨r, hr, hc, hkind, hqueued⟩ := h.owned c item hitem
      exact ⟨r, hr, hc, hkind, hqueued.trans (hless c item hitem)⟩ }

structure New (submissions : Submissions) (nextId : Nat) (r : SubmissionRecord) : Prop where
  id : r.id = nextId
  wellFormed : WellFormed r
  entries : ∀ e, r.entry = some e → e < nextId ∧ ∀ other q, submissions other = some q → q.entry ≠ some e
  requests : ∀ request, r.requestId = some request → ∀ other q, submissions other = some q →
    q.conversationId = r.conversationId → q.requestId ≠ some request

variable {r : SubmissionRecord}

theorem Sound.insert (h : Sound gone submissions inbox live nextId)
    (hnew : New submissions nextId r) {inbox' : Nat → List InboxItem}
    (hsorted : ∀ c, (inbox' c).Pairwise (·.id < ·.id)) (howned : ∀ c, ∀ item ∈ inbox' c, ∃ q,
      Function.update submissions nextId (some r) item.id = some q ∧ q.conversationId = c
        ∧ q.type = item.type ∧ (q.status = .queued ↔ item.id ∉ gone))
    (hlisted : ∀ id q, Function.update submissions nextId (some r) id = some q → q.status = .queued →
      ∃ item ∈ inbox' q.conversationId, item.id = id) :
    Sound gone (Function.update submissions nextId (some r)) inbox' live (nextId + 1) := by
  have hnone : submissions nextId = none := by
    cases hold : submissions nextId with
    | none => rfl
    | some q => exact absurd (h.keyed _ q hold).2 (lt_irrefl _)
  have hcases : ∀ other q, Function.update submissions nextId (some r) other = some q →
      other = nextId ∧ q = r ∨ submissions other = some q := by
    intro other q hq
    by_cases hother : other = nextId
    · rw [hother, Function.update_self, Option.some.injEq] at hq
      exact .inl ⟨hother, hq.symm⟩
    · rw [Function.update_of_ne hother] at hq
      exact .inr hq
  constructor
  case keyed =>
    intro other q hq
    rcases hcases other q hq with ⟨rfl, rfl⟩ | hold
    · exact ⟨hnew.id, Nat.lt_succ_self _⟩
    · exact ⟨(h.keyed other q hold).1, (h.keyed other q hold).2.trans (Nat.lt_succ_self _)⟩
  case wellFormed =>
    intro other q hq
    rcases hcases other q hq with ⟨rfl, rfl⟩ | hold
    · exact hnew.wellFormed
    · exact h.wellFormed other q hold
  case entries =>
    intro other q e hq he
    rcases hcases other q hq with ⟨rfl, rfl⟩ | hold
    · exact (hnew.entries e he).1.trans (Nat.lt_succ_self _)
    · exact (h.entries other q e hold he).trans (Nat.lt_succ_self _)
  case sorted => exact hsorted
  case owned => exact howned
  case listed => exact hlisted
  case entryUnique =>
    intro a b q q' e hq hq' he he'
    rcases hcases a q hq with ⟨rfl, rfl⟩ | hold
    · rcases hcases b q' hq' with ⟨rfl, rfl⟩ | hold'
      · rfl
      · exact absurd he' ((hnew.entries e he).2 b q' hold')
    · rcases hcases b q' hq' with ⟨rfl, rfl⟩ | hold'
      · exact absurd he ((hnew.entries e he').2 a q hold)
      · exact h.entryUnique a b q q' e hold hold' he he'
  case requests =>
    intro a b q q' request hq hq' hsame hqr hqr'
    rcases hcases a q hq with ⟨rfl, rfl⟩ | hold
    · rcases hcases b q' hq' with ⟨rfl, rfl⟩ | hold'
      · rfl
      · exact absurd hqr' (hnew.requests request hqr b q' hold' hsame.symm)
    · rcases hcases b q' hq' with ⟨rfl, rfl⟩ | hold'
      · exact absurd hqr (hnew.requests request hqr' a q hold hsame)
      · exact h.requests a b q q' request hold hold' hsame hqr hqr'
  case inputs => exact fun c run hrun other hother => (h.inputs c run hrun other hother).insert hnone

theorem Sound.item_lt (h : Sound gone submissions inbox live nextId) {item : InboxItem}
    (hitem : item ∈ inbox c) : item.id < nextId := by
  obtain ⟨r, hr, _⟩ := h.owned c item hitem
  exact (h.keyed _ r hr).2

/-- **A submission is created** that does not wait. -/
theorem Sound.create (h : Sound gone submissions inbox live nextId)
    (hnew : New submissions nextId r) (hstatus : r.status ≠ .queued) :
    Sound gone (Function.update submissions nextId (some r)) inbox live (nextId + 1) := by
  apply h.insert hnew h.sorted
  · intro c item hitem
    obtain ⟨q, hq, hrest⟩ := h.owned c item hitem
    refine ⟨q, ?_, hrest⟩
    rw [Function.update_of_ne (Nat.ne_of_lt (h.item_lt hitem)), hq]
  · intro id q hq hqueued
    by_cases hid : id = nextId
    · rw [hid, Function.update_self, Option.some.injEq] at hq
      exact absurd hqueued (hq ▸ hstatus)
    · rw [Function.update_of_ne hid] at hq
      exact h.listed id q hq hqueued

/-- **A submission is queued**: its item goes behind the others of its conversation. -/
theorem Sound.queue (h : Sound gone submissions inbox live nextId) {item : InboxItem}
    (hnew : New submissions nextId r) (hstatus : r.status = .queued) (hitem : item.id = nextId)
    (htype : r.type = item.type) (hgone : nextId ∉ gone) :
    Sound gone (Function.update submissions nextId (some r))
      (Function.update inbox r.conversationId (inbox r.conversationId ++ [item])) live (nextId + 1) := by
  have hmem : ∀ c, ∀ other ∈ Function.update inbox r.conversationId
      (inbox r.conversationId ++ [item]) c, other ∈ inbox c ∨ c = r.conversationId ∧ other = item := by
    intro c other hother
    by_cases hc : c = r.conversationId
    · subst hc
      rw [Function.update_self, List.mem_append, List.mem_singleton] at hother
      exact hother.imp_right fun heq => ⟨rfl, heq⟩
    · rw [Function.update_of_ne hc] at hother
      exact .inl hother
  apply h.insert hnew
  · intro c
    by_cases hc : c = r.conversationId
    · subst hc
      rw [Function.update_self, List.pairwise_append]
      refine ⟨h.sorted _, List.pairwise_singleton _ _, ?_⟩
      intro other hother last hlast
      rw [List.mem_singleton.mp hlast, hitem]
      exact h.item_lt hother
    · rw [Function.update_of_ne hc]
      exact h.sorted c
  · intro c other hother
    rcases hmem c other hother with hold | ⟨rfl, rfl⟩
    · obtain ⟨q, hq, hrest⟩ := h.owned c other hold
      refine ⟨q, ?_, hrest⟩
      rw [Function.update_of_ne (Nat.ne_of_lt (h.item_lt hold)), hq]
    · refine ⟨r, by rw [hitem, Function.update_self], rfl, htype, ?_⟩
      simp [hstatus, hitem, hgone]
  · intro id q hq hqueued
    by_cases hid : id = nextId
    · rw [hid, Function.update_self, Option.some.injEq] at hq
      subst hq
      refine ⟨item, ?_, hitem.trans hid.symm⟩
      rw [Function.update_self]
      exact List.mem_append_right _ List.mem_cons_self
    · rw [Function.update_of_ne hid] at hq
      obtain ⟨other, hother, heq⟩ := h.listed id q hq hqueued
      refine ⟨other, ?_, heq⟩
      by_cases hc : q.conversationId = r.conversationId
      · rw [hc] at hother ⊢
        rw [Function.update_self]
        exact List.mem_append_left _ hother
      · rw [Function.update_of_ne hc]
        exact hother

/-- **The items that are gone leave the inbox** of the conversation they were in. -/
theorem Sound.drop (h : Sound gone submissions inbox live nextId) {kept : List InboxItem}
    (hsub : kept.Sublist (inbox c)) (hkept : ∀ item ∈ inbox c, item ∈ kept ↔ item.id ∉ gone)
    (hgone : ∀ c', ∀ item ∈ inbox c', item.id ∈ gone → c' = c) :
    Sound [] submissions (Function.update inbox c kept) live nextId :=
  { h with
    sorted := by
      intro c'
      by_cases hc : c' = c
      · rw [hc, Function.update_self]
        exact (h.sorted c).sublist hsub
      · rw [Function.update_of_ne hc]
        exact h.sorted c'
    owned := by
      intro c' item hitem
      by_cases hc : c' = c
      · rw [hc, Function.update_self] at hitem
        have hin := hsub.subset hitem
        obtain ⟨r, hr, hconversation, hkind, hqueued⟩ := h.owned c item hin
        exact ⟨r, hr, hconversation.trans hc.symm, hkind,
          by simpa using hqueued.mpr ((hkept item hin).mp hitem)⟩
      · rw [Function.update_of_ne hc] at hitem
        obtain ⟨r, hr, hconversation, hkind, hqueued⟩ := h.owned c' item hitem
        have hnot : item.id ∉ gone := fun hmem => hc (hgone c' item hitem hmem)
        exact ⟨r, hr, hconversation, hkind, by simpa using hqueued.mpr hnot⟩
    listed := by
      intro id r hr hqueued
      obtain ⟨item, hitem, hid⟩ := h.listed id r hr hqueued
      refine ⟨item, ?_, hid⟩
      by_cases hc : r.conversationId = c
      · rw [hc] at hitem ⊢
        rw [Function.update_self, hkept item hitem]
        obtain ⟨q, hq, _, _, hq'⟩ := h.owned c item hitem
        rw [hid, hr, Option.some.injEq] at hq
        subst hq
        exact hq'.mp hqueued
      · rw [Function.update_of_ne hc]
        exact hitem }

theorem Sound.setRun (h : Sound gone submissions inbox live nextId) {state : LiveState}
    (hrun : ∀ run, state.run = some run → ∀ id ∈ run.inputs, Placed submissions id) :
    Sound gone submissions inbox (Function.update live c state) nextId :=
  { h with
    inputs := by
      intro c' run hlive id hid
      by_cases hc : c' = c
      · rw [hc, Function.update_self] at hlive
        exact hrun run hlive id hid
      · rw [Function.update_of_ne hc] at hlive
        exact h.inputs c' run hlive id hid }

end Sound

end ThreeXhaust.Harness
