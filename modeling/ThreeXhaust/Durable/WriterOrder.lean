import ThreeXhaust.Durable.Writer
import Mathlib.Data.List.Range
import Mathlib.Data.Prod.Lex

/-!
# Parts are published and settled in order

The parts whose outcome is settled are always the first ones, and so are those that were published.
The rest stand, in order, in the call and behind it in the queue (`Core`). As long as neither the
session nor the call has failed, publication is never behind settlement (`StageKept`).

* **`step_kept`** — every input keeps that.
* **`step_stopped`** — behind a failure nothing is published.
* **`settles_eventually`** — every part is settled.
-/

namespace ThreeXhaust.Durable

namespace Writer

variable {ε : Type}

/-! ## The log -/

def publishedIds (w : Writer ε) : List Nat :=
  w.log.filterMap fun event => match event with
    | .published id _ => some id
    | _ => none

def settledIds (w : Writer ε) : List Nat :=
  w.log.filterMap fun event => match event with
    | .settled id _ => some id
    | _ => none

def openedIds (w : Writer ε) : List Nat :=
  w.log.filterMap fun event => match event with
    | .opened id => some id
    | _ => none

def receivedIds (w : Writer ε) : List Nat :=
  w.log.filterMap fun event => match event with
    | .received id _ => some id
    | _ => none

-- what a call of the writer does to these lists is read off its definition
attribute [local simp] publishedIds settledIds openedIds receivedIds record settle unpublish
  unregister openGate fail

theorem done_iff {w : Writer ε} {id : Nat} : w.done id = true ↔ id ∈ w.settledIds := by
  unfold done settledIds
  rw [List.any_eq_true, List.mem_filterMap]
  constructor
  · rintro ⟨event, hevent, hdone⟩
    refine ⟨event, hevent, ?_⟩
    cases event with
    | settled other outcome => simpa using hdone
    | _ => cases hdone
  · rintro ⟨event, hevent, hid⟩
    refine ⟨event, hevent, ?_⟩
    cases event with
    | settled other outcome => simpa using hid
    | _ => cases hid

/-! ## The parts that are not settled -/

/-- The parts of the call under way that are not settled yet. -/
def inCall : Stage ε → List Part
  | .idle => []
  | .storing parts _ => parts
  | .publishing loop => loop.failing.map (·.part) ++ loop.rest
  | .ran loop part _ _ => loop.failing.map (·.part) ++ part :: loop.rest
  | .failing loop => loop.failing.map (·.part)
  | .ending => []

/-- The first `k` parts are settled and the first `n` are published; `pending` are the others. -/
structure Core (w : Writer ε) (k n : Nat) (pending : List Part) : Prop where
  ids : w.admitted.map (·.id) = List.range w.admitted.length
  pending : w.admitted.drop k = pending
  inside : k ≤ w.admitted.length ∧ n ≤ w.admitted.length
  settled : w.settledIds = List.range k
  published : w.publishedIds = List.range n
  opened : ∀ id, id ∈ w.openedIds ↔ id < k
  received : ∀ part ∈ w.admitted, part.id < n → part.stored = true → part.id ∈ w.receivedIds
  -- a key that is registered belongs to its newest writer, which is neither settled nor published
  registered : ∀ key id, w.unpublished key = some id → k ≤ id ∧ n ≤ id
    ∧ (∃ part ∈ w.admitted, part.id = id ∧ key ∈ part.keys)
    ∧ ∀ part ∈ w.admitted, key ∈ part.keys → part.id ≤ id
  newest : ∀ id, w.newest = some id → k ≤ id ∧ id + 1 = w.admitted.length

variable {w' : Writer ε}

section Core

variable {w : Writer ε} {k n : Nat} {part : Part} {pending : List Part}

theorem Core.length (h : Core w k n pending) : w.admitted.length = k + pending.length := by
  have hlength := congrArg List.length h.pending
  rw [List.length_drop] at hlength
  have := h.inside.1
  omega

theorem Core.id_eq (h : Core w k n pending) {i : Nat} (hpart : w.admitted[i]? = some part) :
    part.id = i := by
  have hmap : (w.admitted.map (·.id))[i]? = some part.id := by
    rw [List.getElem?_map, hpart]
    rfl
  rw [h.ids, List.getElem?_eq_some_iff] at hmap
  obtain ⟨hi, hget⟩ := hmap
  rw [List.getElem_range] at hget
  exact hget.symm

theorem Core.id_lt (h : Core w k n pending) (hpart : part ∈ w.admitted) :
    part.id < w.admitted.length := by
  obtain ⟨i, hi⟩ := List.mem_iff_getElem?.mp hpart
  rw [h.id_eq hi]
  exact (List.getElem?_eq_some_iff.mp hi).1

theorem Core.pending_id (h : Core w k n pending) {i : Nat} (hpart : pending[i]? = some part) :
    part.id = k + i := by
  rw [← h.pending, List.getElem?_drop] at hpart
  exact h.id_eq hpart

theorem Core.unique (h : Core w k n pending) {a b : Part} (ha : a ∈ w.admitted)
    (hb : b ∈ w.admitted) (hid : a.id = b.id) : a = b := by
  obtain ⟨i, hi⟩ := List.mem_iff_getElem?.mp ha
  obtain ⟨j, hj⟩ := List.mem_iff_getElem?.mp hb
  rw [h.id_eq hi, h.id_eq hj] at hid
  subst hid
  exact Option.some.inj (hi.symm.trans hj)

theorem Core.pending_mem (h : Core w k n pending) (hpart : part ∈ pending) : part ∈ w.admitted := by
  rw [← h.pending] at hpart
  exact List.mem_of_mem_drop hpart

theorem Core.tail (h : Core w k n (part :: pending)) :
    w.admitted.drop (k + 1) = pending ∧ k + 1 ≤ w.admitted.length := by
  have hlength := h.length
  have hdrop := congrArg (List.drop 1) h.pending
  rw [List.drop_drop] at hdrop
  simp only [List.length_cons] at hlength
  exact ⟨hdrop, by omega⟩

theorem Core.congr (h : Core w k n pending) (hadmitted : w'.admitted = w.admitted)
    (hsettled : w'.settledIds = w.settledIds) (hpublished : w'.publishedIds = w.publishedIds)
    (hopened : w'.openedIds = w.openedIds) (hreceived : ∀ id ∈ w.receivedIds, id ∈ w'.receivedIds)
    (hunpublished : w'.unpublished = w.unpublished) (hnewest : w'.newest = w.newest) :
    Core w' k n pending := by
  constructor
  · rw [hadmitted]
    exact h.ids
  · rw [hadmitted]
    exact h.pending
  · rw [hadmitted]
    exact h.inside
  · rw [hsettled]
    exact h.settled
  · rw [hpublished]
    exact h.published
  · rw [hopened]
    exact h.opened
  · rw [hadmitted]
    intro part hpart hlt hstored
    exact hreceived _ (h.received part hpart hlt hstored)
  · rw [hadmitted, hunpublished]
    exact h.registered
  · rw [hadmitted, hnewest]
    exact h.newest

/-- The first part that is pending is settled. -/
theorem Core.next (h : Core w k n (part :: pending)) (hadmitted : w'.admitted = w.admitted)
    (hsettled : w'.settledIds = w.settledIds ++ [part.id])
    (hpublished : w'.publishedIds = w.publishedIds)
    (hopened : ∀ id, id ∈ w'.openedIds ↔ id ∈ w.openedIds ∨ id = part.id)
    (hreceived : w'.receivedIds = w.receivedIds)
    (hunpublished : ∀ key id, w'.unpublished key = some id →
      w.unpublished key = some id ∧ id ≠ part.id)
    (hnewest : ∀ id, w'.newest = some id → w.newest = some id ∧ id ≠ part.id) :
    Core w' (k + 1) n pending := by
  have hid : part.id = k := h.pending_id (i := 0) rfl
  obtain ⟨hdrop, hinside⟩ := h.tail
  constructor
  · rw [hadmitted]
    exact h.ids
  · rw [hadmitted]
    exact hdrop
  · rw [hadmitted]
    exact ⟨hinside, h.inside.2⟩
  · rw [hsettled, h.settled, hid, List.range_succ]
  · rw [hpublished]
    exact h.published
  · intro id
    rw [hopened, h.opened, hid]
    omega
  · rw [hadmitted, hreceived]
    exact h.received
  · rw [hadmitted]
    intro key id hkey
    obtain ⟨hkey, hne⟩ := hunpublished key id hkey
    obtain ⟨hk, hn, hwriter⟩ := h.registered key id hkey
    exact ⟨by omega, hn, hwriter⟩
  · rw [hadmitted]
    intro id hnew
    obtain ⟨hnew, hne⟩ := hnewest id hnew
    obtain ⟨hk, hlast⟩ := h.newest id hnew
    exact ⟨by omega, hlast⟩

theorem openGate_newest {w : Writer ε} {part : Part} {id : Nat}
    (h : (w.openGate part).newest = some id) : w.newest = some id ∧ id ≠ part.id := by
  simp only [openGate] at h
  split at h
  · cases h
  · next hne =>
    refine ⟨h, ?_⟩
    rintro rfl
    exact hne h

/-- **A part that will never be published** leaves its keys and opens its gate. -/
theorem Core.unpublish (h : Core w k n (part :: pending)) (outcome : Outcome ε) :
    Core (w.unpublish part outcome) (k + 1) n pending := by
  refine h.next rfl ?_ ?_ ?_ ?_ ?_ fun id hnew => openGate_newest hnew
  · simp
  · simp
  · intro id
    simp
  · simp
  · intro key id hkey
    have hkey : (if key ∈ part.keys ∧ w.unpublished key = some part.id then none
        else w.unpublished key) = some id := hkey
    split at hkey
    · cases hkey
    · next hnot =>
      refine ⟨hkey, ?_⟩
      rintro rfl
      -- the part that is registered for the key writes it
      obtain ⟨-, -, ⟨writer, hwriter, hid, hwrites⟩, -⟩ := h.registered key part.id hkey
      have hsame := h.unique hwriter (h.pending_mem List.mem_cons_self) hid
      exact hnot ⟨hsame ▸ hwrites, hkey⟩

/-- **A part that was published** settles. -/
theorem Core.settle (h : Core w k n (part :: pending)) (hn : k < n) (outcome : Outcome ε) :
    Core ((w.settle part outcome).openGate part) (k + 1) n pending := by
  have hid : part.id = k := h.pending_id (i := 0) rfl
  refine h.next rfl ?_ ?_ ?_ ?_ ?_ fun id hnew => openGate_newest hnew
  · simp
  · simp
  · intro id
    simp
  · simp
  · intro key id hkey
    have hkey : w.unpublished key = some id := hkey
    obtain ⟨-, hlt, -⟩ := h.registered key id hkey
    exact ⟨hkey, by omega⟩

/-- **The next part is published**: its keys leave. -/
theorem Core.publish (h : Core w k n pending) (hpart : pending[n - k]? = some part) (hkn : k ≤ n)
    (hreceived : part.stored = true → part.id ∈ w.receivedIds)
    (failure : Option (PublishFailure ε)) :
    Core ((w.unregister part).record (.published part.id failure)) k (n + 1) pending := by
  have hid : part.id = n := by
    have := h.pending_id hpart
    omega
  have hmem : part ∈ w.admitted := h.pending_mem (List.mem_of_getElem? hpart)
  have hlt : n - k < pending.length := (List.getElem?_eq_some_iff.mp hpart).1
  constructor
  · exact h.ids
  · exact h.pending
  · have hlength := h.length
    exact ⟨h.inside.1, show n + 1 ≤ w.admitted.length by omega⟩
  · have hsettled : ((w.unregister part).record (.published part.id failure)).settledIds
        = w.settledIds := by
      simp
    rw [hsettled]
    exact h.settled
  · have hpublished : ((w.unregister part).record (.published part.id failure)).publishedIds
        = w.publishedIds ++ [part.id] := by
      simp
    rw [hpublished, h.published, hid, List.range_succ]
  · have hopened : ((w.unregister part).record (.published part.id failure)).openedIds
        = w.openedIds := by
      simp
    rw [hopened]
    exact h.opened
  · have hrec : ((w.unregister part).record (.published part.id failure)).receivedIds
        = w.receivedIds := by
      simp
    rw [hrec]
    intro other hother hlt hstored
    by_cases heq : other.id = n
    · have hsame := h.unique hother hmem (heq.trans hid.symm)
      subst hsame
      exact hreceived hstored
    · exact h.received other hother (by omega) hstored
  · intro key id hkey
    have hkey : (if key ∈ part.keys ∧ w.unpublished key = some part.id then none
        else w.unpublished key) = some id := hkey
    split at hkey
    · cases hkey
    · next hnot =>
      obtain ⟨hk, hn, ⟨writer, hwriter, hwid, hwrites⟩, hlast⟩ := h.registered key id hkey
      refine ⟨hk, ?_, ⟨writer, hwriter, hwid, hwrites⟩, hlast⟩
      rcases Nat.lt_or_eq_of_le hn with hlt | rfl
      · exact hlt
      · -- the registered writer would be the part itself
        have hsame := h.unique hwriter hmem (hwid.trans hid.symm)
        exact absurd ⟨hsame ▸ hwrites, hid ▸ hkey⟩ hnot
  · exact h.newest

theorem Core.unpublishAll (parts : List Part) (h : Core w k n (parts ++ pending))
    (outcome : Outcome ε) :
    Core (w.unpublishAll parts outcome) (k + parts.length) n pending := by
  induction parts generalizing w k with
  | nil => exact h
  | cons part parts ih =>
    have hnext := ih (h.unpublish outcome)
    rw [List.length_cons, show k + (parts.length + 1) = k + 1 + parts.length by omega]
    exact hnext

end Core

/-! ## Where the writer waits -/

/-- A part that has its number was received. -/
def Receipts (received : List Nat) (parts : List Part) (seqs : List (Nat × Nat)) : Prop :=
  ∀ i seq, seqs.lookup i = some seq →
    ∃ part, (parts.filter (·.stored))[i]? = some part ∧ part.id ∈ received

/-- The loop of a publication; `current` is the part that is being published, if any. -/
structure LoopKept (received : List Nat) (k n : Nat) (loop : Loop ε) (current : List Part) :
    Prop where
  receipts : Receipts received loop.parts loop.seqs
  stored : loop.rest.filter (·.stored)
    = (loop.parts.filter (·.stored)).drop loop.storedIndex
  failing : loop.failing ≠ [] → loop.rejected.isSome ∨ loop.stop.isSome
  published : ∀ j f, loop.failing[j]? = some f → f.published = true → k + j < n
  -- the parts of the call that are settled come first
  settled : ∃ before, loop.parts = before ++ (loop.failing.map (·.part) ++ (current ++ loop.rest))
    ∧ ∀ part ∈ before, part.id < k

/-- Publication is never behind settlement while nothing has failed. -/
def StageKept (w : Writer ε) (k n : Nat) : Prop :=
  match w.stage with
  | .idle => w.queue = [] ∧ (w.failure = none → n = k)
  | .ending => w.failure = none → n = k
  | .storing parts seqs => (w.failure = none → n = k) ∧ Receipts w.receivedIds parts seqs
  | .publishing loop => LoopKept w.receivedIds k n loop []
    ∧ (w.failure = none → loop.stop = none → n = k + loop.failing.length)
  | .ran loop part external _ => LoopKept w.receivedIds k n loop [part] ∧ loop.stop = none
    ∧ (external = none → n = k + loop.failing.length + 1)
    ∧ (external ≠ none → w.failure ≠ none)
  | .failing loop => LoopKept w.receivedIds k n loop [] ∧ loop.rest = []
    ∧ (loop.rejected.isSome ∨ loop.stop.isSome)
    ∧ (w.failure = none → loop.stop = none → n = k + loop.failing.length)

/-- The invariant of a writer. -/
def Kept (w : Writer ε) : Prop :=
  ∃ k n, Core w k n (inCall w.stage ++ w.queue) ∧ StageKept w k n

variable {a b : Writer ε} {loop : Loop ε} {failure : Option (PublishFailure ε)}

section Steps

variable {w : Writer ε} {k n : Nat} {pending : List Part}

theorem init_kept : Kept (init : Writer ε) := by
  refine ⟨0, 0, ?_, rfl, fun _ => rfl⟩
  constructor <;> simp [init, inCall, settledIds, publishedIds, openedIds]

/-- A writer that differs in its stage, its queue or its session's failure only. -/
theorem Core.same (h : Core w k n pending) (hadmitted : w'.admitted = w.admitted)
    (hlog : w'.log = w.log) (hunpublished : w'.unpublished = w.unpublished)
    (hnewest : w'.newest = w.newest) : Core w' k n pending := by
  apply h.congr hadmitted
  · rw [settledIds, hlog]
    rfl
  · rw [publishedIds, hlog]
    rfl
  · rw [openedIds, hlog]
    rfl
  · intro id hid
    rw [receivedIds, hlog]
    exact hid
  · exact hunpublished
  · exact hnewest

/-- What settling parts leaves as it is. -/
structure Settles (w w' : Writer ε) : Prop where
  admitted : w'.admitted = w.admitted
  queue : w'.queue = w.queue
  failure : w'.failure = w.failure
  published : w'.publishedIds = w.publishedIds
  received : w'.receivedIds = w.receivedIds

theorem Settles.refl (w : Writer ε) : Settles w w := ⟨rfl, rfl, rfl, rfl, rfl⟩

theorem Settles.trans {c : Writer ε} (h : Settles a b) (h' : Settles b c) : Settles a c :=
  ⟨h'.admitted.trans h.admitted, h'.queue.trans h.queue, h'.failure.trans h.failure,
    h'.published.trans h.published, h'.received.trans h.received⟩

theorem settles_unpublish (w : Writer ε) (part : Part) (outcome : Outcome ε) :
    Settles w (w.unpublish part outcome) := by
  constructor
  · rfl
  · rfl
  · rfl
  · simp
  · simp

theorem settles_settle (w : Writer ε) (part : Part) (outcome : Outcome ε) :
    Settles w ((w.settle part outcome).openGate part) := by
  constructor
  · rfl
  · rfl
  · rfl
  · simp
  · simp

theorem settles_foldl {α : Type} (f : Writer ε → α → Writer ε) (hf : ∀ w a, Settles w (f w a))
    (xs : List α) (w : Writer ε) : Settles w (xs.foldl f w) := by
  induction xs generalizing w with
  | nil => exact .refl w
  | cons x xs ih => exact (hf w x).trans (ih (f w x))

theorem settles_unpublishAll (w : Writer ε) (parts : List Part) (outcome : Outcome ε) :
    Settles w (w.unpublishAll parts outcome) :=
  settles_foldl _ (fun w part => settles_unpublish w part outcome) parts w

theorem settles_settleFailing (w : Writer ε) (loop : Loop ε) (failing : Failing ε) :
    Settles w (w.settleFailing loop failing) := by
  unfold settleFailing
  split
  · exact settles_settle w failing.part _
  · exact settles_unpublish w failing.part _

/-- The parts whose publication failed are settled first, in order. -/
theorem Core.settleFailing {failing : List (Failing ε)}
    (h : Core w k n (failing.map (·.part) ++ pending))
    (hpublished : ∀ j f, failing[j]? = some f → f.published = true → k + j < n) :
    Core (failing.foldl (fun w failing => w.settleFailing loop failing) w) (k + failing.length) n
      pending := by
  induction failing generalizing w k with
  | nil => exact h
  | cons f failing ih =>
    have hnext : Core (w.settleFailing loop f) (k + 1) n (failing.map (·.part) ++ pending) := by
      unfold Writer.settleFailing
      split
      · next hf => exact h.settle (hpublished 0 f rfl hf) _
      · exact h.unpublish _
    have hrest : ∀ j g, failing[j]? = some g → g.published = true → k + 1 + j < n := by
      intro j g hg hflag
      have := hpublished (j + 1) g hg hflag
      omega
    have hdone := ih hnext hrest
    rw [List.length_cons, show k + (failing.length + 1) = k + 1 + failing.length by omega]
    exact hdone

/-! ## Steps -/

variable {seqs : List (Nat × Nat)}

theorem Receipts.mono {received received' : List Nat} {parts : List Part}
    (h : Receipts received parts seqs) (hreceived : ∀ id ∈ received, id ∈ received')
    : Receipts received' parts seqs := by
  intro i seq hseq
  obtain ⟨part, hpart, hid⟩ := h i seq hseq
  exact ⟨part, hpart, hreceived _ hid⟩

theorem ending_kept (h : Core w k n w.queue) (hn : w.failure = none → n = k) :
    Kept { w with stage := .ending } :=
  ⟨k, n, h.same rfl rfl rfl rfl, hn⟩

theorem unpublishAll_kept {parts : List Part} {error : ε} (h : Core w k n (parts ++ w.queue))
    (hfailure : w.failure = some error) :
    Kept { w.unpublishAll parts (.sessionFailed error) with stage := .ending } := by
  have hsettles := settles_unpublishAll w parts (.sessionFailed error)
  apply ending_kept (k := k + parts.length) (n := n)
  · rw [hsettles.queue]
    exact Core.unpublishAll parts h (.sessionFailed error)
  · rw [hsettles.failure, hfailure]
    exact nofun

/-- A call whose parts are stored is published. -/
theorem startPublish_kept {parts : List Part} {result : Option (CommitResult ε)}
    (h : Core w k n (parts ++ w.queue)) (hreceipts : Receipts w.receivedIds parts seqs)
    (hn : w.failure = none → n = k) : Kept (w.startPublish (.start parts seqs result)) := by
  unfold startPublish
  split
  · next error hfailure => exact unpublishAll_kept h hfailure
  · next hfailure =>
    refine ⟨k, n, h.same rfl rfl rfl rfl, ?_, ?_⟩
    · constructor
      · exact hreceipts
      · rfl
      · exact fun hne => absurd rfl hne
      · exact nofun
      · exact ⟨[], rfl, nofun⟩
    · exact fun _ _ => hn hfailure

/-- A call is sent. -/
theorem send_kept {parts : List Part} (h : Core w k n (parts ++ w.queue))
    (hn : w.failure = none → n = k) : Kept (w.send parts) := by
  have hnone : Receipts w.receivedIds parts [] := nofun
  unfold send
  split
  · next error hfailure => exact unpublishAll_kept h hfailure
  · next hfailure =>
    split
    · exact ⟨k, n, h.same rfl rfl rfl rfl, hn, hnone⟩
    · exact startPublish_kept h hnone hn

/-- **The next call** is taken off the queue. -/
theorem pump_kept (h : Core w k n (inCall w.stage ++ w.queue))
    (hidle : w.stage = .idle → w.failure = none → n = k)
    (hstage : w.stage ≠ .idle → StageKept w k n) : Kept w.pump := by
  unfold pump
  split
  · next part queue hidle' hqueue =>
    have hcore : Core { w with queue := [] } k n ((part :: queue) ++ []) := by
      rw [hidle', hqueue] at h
      rw [List.append_nil]
      exact h.same rfl rfl rfl rfl
    exact send_kept hcore (hidle hidle')
  · next hnot =>
    by_cases hstage' : w.stage = .idle
    · have hqueue : w.queue = [] := by
        cases hqueue : w.queue with
        | nil => rfl
        | cons part queue => exact absurd hqueue (hnot part queue hstage')
      refine ⟨k, n, h, ?_⟩
      unfold StageKept
      rw [hstage']
      exact ⟨hqueue, hidle hstage'⟩
    · exact ⟨k, n, h, hstage hstage'⟩

theorem dropQueue_kept (h : Core w k n w.queue) (hn : w.failure = none → n = k) :
    Kept { w.dropQueue with stage := .ending } := by
  unfold dropQueue
  split
  · exact ending_kept h hn
  · next error hfailure =>
    have hcore : Core { w with queue := [] } k n (w.queue ++ []) := by
      rw [List.append_nil]
      exact h.same rfl rfl rfl rfl
    exact unpublishAll_kept hcore hfailure

theorem finishPublish_kept (h : Core w k n (loop.failing.map (·.part) ++ w.queue))
    (hpublished : ∀ j f, loop.failing[j]? = some f → f.published = true → k + j < n)
    (hn : w.failure = none → n = k + loop.failing.length) : Kept (w.finishPublish loop) := by
  have hsettles := settles_foldl (fun w failing => settleFailing w loop failing)
    (fun w failing => settles_settleFailing w loop failing) loop.failing w
  have hcore : Core (loop.failing.foldl (fun w failing => w.settleFailing loop failing) w)
      (k + loop.failing.length) n w.queue := Core.settleFailing h hpublished
  apply dropQueue_kept (k := k + loop.failing.length) (n := n)
  · rw [hsettles.queue]
    exact hcore
  · rw [hsettles.failure]
    exact hn

/-- A part that is admitted goes behind the others. -/
theorem Core.enlist (h : Core w k n pending) (spec : PartSpec) :
    Core (w.enlist spec) k n (pending ++ [⟨spec, w.admitted.length⟩]) := by
  obtain ⟨hk, hn⟩ := h.inside
  constructor
  · show (w.admitted ++ _).map _ = List.range (w.admitted ++ _).length
    rw [List.map_append, h.ids, List.length_append, List.length_singleton, List.range_succ]
    rfl
  · show (w.admitted ++ _).drop k = _
    rw [List.drop_append_of_le_length hk, h.pending]
  · simp only [Writer.enlist, List.length_append, List.length_singleton]
    omega
  · exact h.settled
  · exact h.published
  · exact h.opened
  · intro part hpart hlt hstored
    rcases List.mem_append.mp hpart with hpart | hpart
    · exact h.received part hpart hlt hstored
    · rw [List.mem_singleton.mp hpart] at hlt
      exact absurd hlt (by show ¬ w.admitted.length < n; omega)
  · intro key id hkey
    have hkey : (if key ∈ spec.keys then some w.admitted.length else w.unpublished key)
        = some id := hkey
    split at hkey
    · next hwrites =>
      cases hkey
      refine ⟨hk, hn, ⟨_, List.mem_append_right _ List.mem_cons_self, rfl, hwrites⟩, ?_⟩
      intro part hpart _
      rcases List.mem_append.mp hpart with hpart | hpart
      · exact Nat.le_of_lt (h.id_lt hpart)
      · rw [List.mem_singleton.mp hpart]
    · next hwrites =>
      obtain ⟨hk, hn, ⟨writer, hwriter, hwid, hwrites'⟩, hlast⟩ := h.registered key id hkey
      refine ⟨hk, hn, ⟨writer, List.mem_append_left _ hwriter, hwid, hwrites'⟩, ?_⟩
      intro part hpart hkeys
      rcases List.mem_append.mp hpart with hpart | hpart
      · exact hlast part hpart hkeys
      · rw [List.mem_singleton.mp hpart] at hkeys
        exact absurd hkeys hwrites
  · intro id hnew
    cases hnew
    exact ⟨hk, by simp [Writer.enlist]⟩

/-- **A part is admitted.** -/
theorem admitPart_kept (h : Kept w) (spec : PartSpec) : Kept (w.admitPart spec) := by
  obtain ⟨k, n, hcore, hstage⟩ := h
  have hcore' := hcore.enlist spec
  rw [List.append_assoc] at hcore'
  apply pump_kept hcore'
  · intro hidle
    have hidle : w.stage = .idle := hidle
    unfold StageKept at hstage
    rw [hidle] at hstage
    exact hstage.2
  · intro hne
    have hne : w.stage ≠ .idle := hne
    -- only an idle writer looks at its queue
    unfold StageKept at hstage ⊢
    rw [show (w.enlist spec).stage = w.stage from rfl]
    cases hw : w.stage with
    | idle => exact absurd hw hne
    | _ =>
      rw [hw] at hstage
      exact hstage

/-- The session fails by itself. -/
theorem failOutside_kept (h : Kept w) (error : ε) :
    Kept { w with failure := w.failure.or (some error) } := by
  obtain ⟨k, n, hcore, hstage⟩ := h
  have hfailed : w.failure.or (some error) ≠ none := by
    cases w.failure <;> exact nofun
  refine ⟨k, n, hcore.same rfl rfl rfl rfl, ?_⟩
  unfold StageKept at hstage ⊢
  cases hw : w.stage with
  | idle =>
    rw [hw] at hstage
    exact ⟨hstage.1, fun hnone => absurd hnone hfailed⟩
  | ending => exact fun hnone => absurd hnone hfailed
  | storing parts seqs =>
    rw [hw] at hstage
    exact ⟨fun hnone => absurd hnone hfailed, hstage.2⟩
  | publishing loop =>
    rw [hw] at hstage
    exact ⟨hstage.1, fun hnone => absurd hnone hfailed⟩
  | ran loop part external failure =>
    rw [hw] at hstage
    exact ⟨hstage.1, hstage.2.1, hstage.2.2.1, fun _ => hfailed⟩
  | failing loop =>
    rw [hw] at hstage
    exact ⟨hstage.1, hstage.2.1, hstage.2.2.1, fun hnone => absurd hnone hfailed⟩

/-- A receipt: the part has its number. -/
theorem receive_kept {parts : List Part} {index seq : Nat} {part : Part}
    (hcore : Core w k n (parts ++ w.queue)) (hn : w.failure = none → n = k)
    (hreceipts : Receipts w.receivedIds parts seqs)
    (hpart : (parts.filter (·.stored))[index]? = some part) :
    Kept { w.record (.received part.id seq) with
      stage := .storing parts ((index, seq) :: seqs) } := by
  have hreceived : (w.record (.received part.id seq)).receivedIds = w.receivedIds ++ [part.id] := by
    simp
  have hgrows : ∀ id ∈ w.receivedIds, id ∈ (w.record (.received part.id seq)).receivedIds := by
    intro id hid
    rw [hreceived]
    exact List.mem_append_left _ hid
  refine ⟨k, n, ?_, hn, ?_⟩
  · refine hcore.congr ?_ ?_ ?_ ?_ ?_ ?_ ?_
    · rfl
    · simp
    · simp
    · simp
    · exact hgrows
    · rfl
    · rfl
  · intro i seq' hseq
    rw [List.lookup_cons] at hseq
    split at hseq
    · next heq =>
      obtain rfl : i = index := by simpa using heq
      refine ⟨part, hpart, ?_⟩
      show part.id ∈ (w.record (.received part.id seq)).receivedIds
      rw [hreceived]
      exact List.mem_append_right _ List.mem_cons_self
    · exact hreceipts.mono hgrows i seq' hseq

/-- A part whose publication failed waits to be settled with its call. -/
theorem LoopKept.fail {received : List Nat} {loop' : Loop ε} {current : List Part} {part : Part}
    (h : LoopKept received k n loop current) (hparts : loop'.parts = loop.parts)
    (hseqs : loop'.seqs = loop.seqs) (hsplit : current ++ loop.rest = part :: loop'.rest)
    (hstored : loop'.rest.filter (·.stored)
      = (loop.parts.filter (·.stored)).drop loop'.storedIndex) {f : Failing ε} (hf : f.part = part)
    (hfailing : loop'.failing = loop.failing ++ [f])
    (hflag : f.published = true → k + loop.failing.length < n)
    (hreason : loop'.rejected.isSome ∨ loop'.stop.isSome) : LoopKept received k n loop' [] := by
  constructor
  · rw [hparts, hseqs]
    exact h.receipts
  · rw [hparts]
    exact hstored
  · exact fun _ => hreason
  · intro j g hg hgflag
    rw [hfailing] at hg
    rcases Nat.lt_or_ge j loop.failing.length with hj | hj
    · rw [List.getElem?_append_left hj] at hg
      exact h.published j g hg hgflag
    · rw [List.getElem?_append_right hj] at hg
      obtain rfl : j = loop.failing.length := by
        have hlt := (List.getElem?_eq_some_iff.mp hg).1
        simp only [List.length_singleton] at hlt
        omega
      rw [Nat.sub_self] at hg
      cases hg
      exact hflag hgflag
  · obtain ⟨before, hbefore, hlt⟩ := h.settled
    refine ⟨before, ?_, hlt⟩
    rw [hparts, hbefore, hfailing, List.map_append, hsplit, ← hf]
    simp

theorem LoopKept.stored_tail {received : List Nat} {part : Part} {rest : List Part}
    (h : LoopKept received k n loop []) (hrest : loop.rest = part :: rest) :
    rest.filter (·.stored) = (loop.parts.filter (·.stored)).drop
      (if part.stored then loop.storedIndex + 1 else loop.storedIndex) := by
  have hstored := h.stored
  rw [hrest, List.filter_cons] at hstored
  split
  · next hpart =>
    rw [if_pos hpart] at hstored
    have htail := congrArg (List.drop 1) hstored
    rw [List.drop_drop] at htail
    exact htail
  · next hpart =>
    rw [if_neg hpart] at hstored
    exact hstored

theorem LoopKept.receipt {received : List Nat} {part : Part} {rest : List Part}
    (h : LoopKept received k n loop []) (hrest : loop.rest = part :: rest)
    (hstored : part.stored = true) (hreceipt : receipt loop ≠ none) : part.id ∈ received := by
  obtain ⟨seq, hseq⟩ := Option.ne_none_iff_exists'.mp hreceipt
  obtain ⟨other, hother, hid⟩ := h.receipts _ seq hseq
  have hhead : (loop.parts.filter (·.stored))[loop.storedIndex]? = some part := by
    have hcons := h.stored
    rw [hrest, List.filter_cons, if_pos hstored] at hcons
    have hget := congrArg (·[0]?) hcons
    simpa using hget.symm
  cases hother.symm.trans hhead
  exact hid

/-- One round of the loop, up to the next part that is published. -/
theorem round_kept {adopted : ε}
    (hcore : Core w k n (loop.failing.map (·.part) ++ loop.rest ++ w.queue))
    (hloop : LoopKept w.receivedIds k n loop [])
    (hn : w.failure = none → loop.stop = none → n = k + loop.failing.length)
    (hstage : w.stage = .publishing loop) : Kept (w.round adopted loop) := by
  unfold round
  split
  · next hrest =>
    rw [hrest, List.append_nil] at hcore
    split
    · next hreason => exact ⟨k, n, hcore.same rfl rfl rfl rfl, hloop, hrest, hreason, hn⟩
    · next hreason =>
      -- nothing failed, so everything was settled on the way
      obtain ⟨-, hstop⟩ := not_or.mp hreason
      apply finishPublish_kept hcore hloop.published
      exact fun hfailure => hn hfailure (Option.not_isSome_iff_eq_none.mp hstop)
  · next part rest stop hrest hstop =>
    refine ⟨k, n, ?_, ?_, ?_⟩
    · rw [hrest] at hcore
      show Core _ k n ((loop.failing ++ [_]).map Failing.part ++ rest ++ w.queue)
      simp only [List.map_append, List.append_assoc] at hcore ⊢
      exact hcore.same rfl rfl rfl rfl
    · refine hloop.fail rfl rfl hrest ?_ rfl rfl nofun (.inr ?_)
      · exact hloop.stored_tail hrest
      · show loop.stop.isSome
        rw [hstop]
        rfl
    · intro _ hnone
      exact nomatch hstop.symm.trans hnone
  · next part rest hrest hstop =>
    split
    · next hmissing =>
      refine ⟨k, n, ?_, ?_, nofun⟩
      · rw [hrest] at hcore
        show Core _ k n ((loop.failing ++ [_]).map Failing.part ++ rest ++ w.queue)
        simp only [List.map_append, List.append_assoc] at hcore ⊢
        exact hcore.same rfl rfl rfl rfl
      · refine hloop.fail rfl rfl hrest ?_ rfl rfl nofun (.inr rfl)
        exact hloop.stored_tail hrest
    · refine ⟨k, n, ?_, ?_⟩
      · rw [hstage]
        exact hcore
      · unfold StageKept
        rw [hstage]
        exact ⟨hloop, hn⟩

/-- The next part is published. -/
theorem roundPublish_kept (hcore : Core w k n (loop.failing.map (·.part) ++ loop.rest ++ w.queue))
    (hloop : LoopKept w.receivedIds k n loop [])
    (hn : w.failure = none → loop.stop = none → n = k + loop.failing.length)
    (hstage : w.stage = .publishing loop) : Kept (w.roundPublish loop failure) := by
  have hunchanged : Kept w := by
    refine ⟨k, n, ?_, ?_⟩
    · rw [hstage]
      exact hcore
    · unfold StageKept
      rw [hstage]
      exact ⟨hloop, hn⟩
  unfold roundPublish
  split
  · next part rest hrest hstop =>
    split
    · exact hunchanged
    · next hreceipt =>
      rw [hrest, List.append_assoc, List.cons_append] at hcore
      have hmoved : ∀ n', (∀ j f, loop.failing[j]? = some f → f.published = true → k + j < n') →
          LoopKept w.receivedIds k n' (advance loop part rest) [part] := by
        intro n' hpublished
        obtain ⟨before, hbefore, hlt⟩ := hloop.settled
        refine ⟨hloop.receipts, hloop.stored_tail hrest, hloop.failing, hpublished, before, ?_, hlt⟩
        show loop.parts = before ++ (loop.failing.map Failing.part ++ ([part] ++ rest))
        rw [hbefore, hrest]
        rfl
      unfold publishPart
      split
      · next error hfailure =>
        refine ⟨k, n, ?_, hmoved n hloop.published, hstop, nofun, ?_⟩
        · show Core _ k n (loop.failing.map Failing.part ++ part :: rest ++ w.queue)
          rw [List.append_assoc, List.cons_append]
          exact hcore.same rfl rfl rfl rfl
        · intro _ hnone
          exact nomatch hfailure.symm.trans hnone
      · next hfailure =>
        have hnk := hn hfailure hstop
        have hnext : (loop.failing.map Failing.part ++ part :: (rest ++ w.queue))[n - k]?
            = some part := by
          rw [hnk, Nat.add_sub_cancel_left, List.getElem?_append_right (by simp)]
          simp
        have hpublish := hcore.publish hnext (by omega) (fun hstored =>
          hloop.receipt hrest hstored fun hnone => hreceipt ⟨hstored, hnone⟩) failure
        have hreceived : ((w.unregister part).record (.published part.id failure)).receivedIds
            = w.receivedIds := by
          simp
        refine ⟨k, n + 1, ?_, ?_, hstop, fun _ => congrArg (· + 1) hnk, fun hne => absurd rfl hne⟩
        · show Core _ k (n + 1) (loop.failing.map Failing.part ++ part :: rest ++ w.queue)
          rw [List.append_assoc, List.cons_append]
          exact hpublish.same rfl rfl rfl rfl
        · show LoopKept ((w.unregister part).record (.published part.id failure)).receivedIds _ _ _ _
          rw [hreceived]
          refine hmoved (n + 1) fun j f hf hflag => ?_
          have := hloop.published j f hf hflag
          omega
  · exact hunchanged

theorem joinFailing_kept {f : Failing ε} {stop : Option (Stop ε)}
    (hcore : Core w k n (loop.failing.map (·.part) ++ f.part :: loop.rest ++ w.queue))
    (hloop : LoopKept w.receivedIds k n loop [f.part])
    (hflag : f.published = true → k + loop.failing.length < n)
    (hreason : loop.rejected.isSome ∨ stop.isSome)
    (hn : w.failure = none → stop = none → n = k + loop.failing.length + 1) :
    Kept { w with stage := .publishing { loop with stop, failing := loop.failing ++ [f] } } := by
  refine ⟨k, n, ?_, ?_, ?_⟩
  · show Core _ k n ((loop.failing ++ [f]).map Failing.part ++ loop.rest ++ w.queue)
    rw [List.map_append, List.map_singleton, List.append_assoc, List.append_assoc,
      List.singleton_append]
    rw [List.append_assoc, List.cons_append] at hcore
    exact hcore.same rfl rfl rfl rfl
  · exact hloop.fail rfl rfl rfl hloop.stored rfl rfl hflag hreason
  · intro hfailure hstop
    rw [hn hfailure hstop, List.length_append, List.length_singleton]
    omega

/-- **Behind a publication**: settled, or kept for the end of the call. -/
theorem afterPublish_kept {part : Part} {external : Option ε}
    (hcore : Core w k n (loop.failing.map (·.part) ++ part :: loop.rest ++ w.queue))
    (hloop : LoopKept w.receivedIds k n loop [part]) (hstop : loop.stop = none)
    (hran : external = none → n = k + loop.failing.length + 1)
    (hexternal : external ≠ none → w.failure ≠ none) :
    Kept (w.afterPublish loop part external failure) := by
  -- a published part settles at once only when none before it failed
  have hsettle : loop.rejected = none → external = none → ∀ outcome (stop : Option (Stop ε)),
      Kept { (w.settle part outcome).openGate part with
        stage := .publishing { loop with stop } } := by
    intro hrejected hnone outcome stop
    have hempty : loop.failing = [] := by
      by_contra hne
      rcases hloop.failing hne with hsome | hsome
      · rw [hrejected] at hsome
        cases hsome
      · rw [hstop] at hsome
        cases hsome
    have hn := hran hnone
    rw [hempty] at hcore hn
    have hsettled := hcore.settle (by simp at hn; omega) outcome
    have hreceived := (settles_settle w part outcome).received
    refine ⟨k + 1, n, ?_, ?_, ?_⟩
    · show Core _ _ _ (loop.failing.map Failing.part ++ loop.rest ++ w.queue)
      rw [hempty]
      exact hsettled.same rfl rfl rfl rfl
    · show LoopKept ((w.settle part outcome).openGate part).receivedIds _ _ _ _
      rw [hreceived]
      obtain ⟨before, hbefore, hlt⟩ := hloop.settled
      have hid : part.id = k := hcore.pending_id (i := 0) rfl
      refine ⟨hloop.receipts, hloop.stored, fun hne => absurd hempty hne, ?_, before ++ [part], ?_, ?_⟩
      · intro j f hf
        have hf : loop.failing[j]? = some f := hf
        rw [hempty] at hf
        cases hf
      · rw [hbefore, hempty]
        simp
      · intro other hother
        rcases List.mem_append.mp hother with hother | hother
        · have := hlt other hother
          omega
        · rw [List.mem_singleton.mp hother, hid]
          omega
    · intro _ _
      show n = k + 1 + loop.failing.length
      rw [hempty, hn]
      rfl
  unfold afterPublish
  split
  · next error =>
    refine joinFailing_kept (f := ⟨part, .failed, false⟩) hcore hloop nofun
      (.inr rfl) fun hfailure => absurd hfailure (hexternal nofun)
  · next error =>
    refine joinFailing_kept (f := ⟨part, .own error, true⟩) hcore hloop ?_ (.inr rfl)
      nofun
    intro _
    have := hran rfl
    omega
  · next error rejected hrejected =>
    have hreport : Core (w.record (.reported error)) k n
        (loop.failing.map Failing.part ++ part :: loop.rest ++ w.queue) := by
      refine hcore.congr ?_ ?_ ?_ ?_ ?_ ?_ ?_
      · rfl
      · simp
      · simp
      · simp
      · intro id hid
        simpa using hid
      · rfl
      · rfl
    have hreceived : (w.record (.reported error)).receivedIds = w.receivedIds := by
      simp
    refine joinFailing_kept (f := ⟨part, .own rejected, true⟩) (w := w.record (.reported error))
      hreport (hreceived ▸ hloop) ?_ (.inl ?_) fun _ _ => hran rfl
    · intro _
      have := hran rfl
      omega
    · rw [hrejected]
      rfl
  · next rejected hrejected =>
    refine joinFailing_kept (f := ⟨part, .own rejected, true⟩) hcore hloop ?_ (.inl ?_)
      fun _ _ => hran rfl
    · intro _
      have := hran rfl
      omega
    · rw [hrejected]
      rfl
  · next error hrejected => exact hsettle hrejected rfl _ _
  · next hrejected => exact hsettle hrejected rfl _ loop.stop

theorem Core.fail (h : Core w k n pending) (error : ε) (index : Option Nat) (own : List Nat) :
    Core (w.fail error index own) k n pending := by
  refine h.congr ?_ ?_ ?_ ?_ ?_ ?_ ?_
  · rfl
  · simp
  · simp
  · simp
  · intro id hid
    simpa using hid
  · rfl
  · rfl

theorem fail_failure (w : Writer ε) (error : ε) (index : Option Nat) (own : List Nat) :
    (w.fail error index own).failure ≠ none := by
  show w.failure.or (some error) ≠ none
  cases w.failure <;> exact nofun

/-- The host fails after the loop. -/
theorem failHost_kept (hcore : Core w k n (loop.failing.map (·.part) ++ w.queue))
    (hloop : LoopKept w.receivedIds k n loop []) (hreason : loop.rejected.isSome ∨ loop.stop.isSome) :
    Kept ((w.failHost loop).finishPublish loop) := by
  have hfailed : ∀ error index own, Kept ((w.fail error index own).finishPublish loop) := by
    intro error index own
    apply finishPublish_kept (k := k) (n := n)
    · exact hcore.fail error index own
    · exact hloop.published
    · exact fun hnone => absurd hnone (fail_failure w error index own)
  unfold failHost
  split
  · exact hfailed _ _ _
  · exact hfailed _ _ _
  · next hrejected hstop =>
    rw [hrejected, hstop] at hreason
    rcases hreason with hsome | hsome
    · cases hsome
    · cases hsome

theorem Core.reopen (h : Core w k n pending) {part : Part} (hid : part.id < k) :
    Core ((w.unregister part).openGate part) k n pending := by
  constructor
  · exact h.ids
  · exact h.pending
  · exact h.inside
  · have hsettled : ((w.unregister part).openGate part).settledIds = w.settledIds := by
      simp
    rw [hsettled]
    exact h.settled
  · have hpublished : ((w.unregister part).openGate part).publishedIds = w.publishedIds := by
      simp
    rw [hpublished]
    exact h.published
  · intro id
    have hopened : ((w.unregister part).openGate part).openedIds = w.openedIds ++ [part.id] := by
      simp
    rw [hopened, List.mem_append, h.opened, List.mem_singleton]
    omega
  · have hreceived : ((w.unregister part).openGate part).receivedIds = w.receivedIds := by
      simp
    rw [hreceived]
    exact h.received
  · intro key id hkey
    have hkey : (if key ∈ part.keys ∧ w.unpublished key = some part.id then none
        else w.unpublished key) = some id := hkey
    split at hkey
    · cases hkey
    · exact h.registered key id hkey
  · intro id hnew
    exact h.newest id (openGate_newest hnew).1

theorem Core.done_iff (h : Core w k n pending) (id : Nat) : w.done id = true ↔ id < k := by
  rw [Writer.done_iff, h.settled, List.mem_range]

theorem Core.giveUp_settled {before : List Part} (error : ε) (hcore : Core w k n pending)
    (hbefore : ∀ part ∈ before, part.id < k) :
    Core (before.foldl (giveUp error) w) k n pending
      ∧ (before.foldl (giveUp error) w).queue = w.queue
      ∧ (before.foldl (giveUp error) w).failure = w.failure := by
  induction before generalizing w with
  | nil => exact ⟨hcore, rfl, rfl⟩
  | cons part before ih =>
    have hpart := hbefore part List.mem_cons_self
    have hround : giveUp error w part = (w.unregister part).openGate part := by
      rw [giveUp, if_pos ((hcore.done_iff part.id).mpr hpart)]
    rw [List.foldl_cons, hround]
    exact ih (hcore.reopen hpart) fun p hp => hbefore p (List.mem_cons_of_mem _ hp)

theorem Core.giveUp_pending {parts : List Part} (error : ε)
    (hcore : Core w k n (parts ++ pending)) :
    Core (parts.foldl (giveUp error) w) (k + parts.length) n pending
      ∧ (parts.foldl (giveUp error) w).queue = w.queue
      ∧ (parts.foldl (giveUp error) w).failure = w.failure := by
  induction parts generalizing w k with
  | nil => exact ⟨hcore, rfl, rfl⟩
  | cons part parts ih =>
    have hid : part.id = k := hcore.pending_id (i := 0) rfl
    have hround : giveUp error w part
        = ((w.unpublish part (w.failedWith error)).unregister part).openGate part := by
      rw [giveUp, if_neg (by rw [hcore.done_iff]; omega)]
    have hlt : part.id < k + 1 := by
      omega
    have hnext := (hcore.unpublish (w.failedWith error)).reopen hlt
    obtain ⟨hcore', hqueue, hfailure⟩ := ih hnext
    rw [List.foldl_cons, hround, List.length_cons,
      show k + (parts.length + 1) = k + 1 + parts.length by omega]
    refine ⟨hcore', hqueue.trans ?_, hfailure.trans ?_⟩
    · exact (settles_unpublish w part (w.failedWith error)).queue
    · exact (settles_unpublish w part (w.failedWith error)).failure

/-- **A call is given up**, with the parts behind it. -/
theorem abandon_kept {before parts : List Part} {error : ε} (hcore : Core w k n (parts ++ w.queue))
    (hbefore : ∀ part ∈ before, part.id < k) : Kept (w.abandon (before ++ parts) error) := by
  unfold abandon
  generalize (before ++ parts).head?.map (·.index) = index
  obtain ⟨hcore1, hqueue1, hfailure1⟩ :=
    (hcore.fail error index []).giveUp_settled error hbefore
  obtain ⟨hcore2, hqueue2, hfailure2⟩ := hcore1.giveUp_pending error
  rw [List.foldl_append]
  apply ending_kept (k := k + parts.length) (n := n)
  · rw [hqueue2, hqueue1]
    exact hcore2
  · rw [hfailure2, hfailure1]
    exact fun hnone => absurd hnone (fail_failure w _ _ _)

/-- **Every step keeps the invariant.** -/
theorem step_kept (adopted : ε) (h : Kept w) (input : Input ε) : Kept (step adopted w input) := by
  obtain ⟨k, n, hcore, hstage⟩ := h
  unfold step
  split
  · exact admitPart_kept ⟨k, n, hcore, hstage⟩ _
  · exact failOutside_kept ⟨k, n, hcore, hstage⟩ _
  · next index seq parts seqs hw =>
    have hstage' := hstage
    unfold StageKept at hstage
    rw [hw] at hstage
    split
    · next part hpart =>
      rw [hw] at hcore
      exact receive_kept hcore hstage.1 hstage.2 hpart
    · exact ⟨k, n, hcore, hstage'⟩
  · next result parts seqs hw =>
    unfold StageKept at hstage
    rw [hw] at hstage hcore
    exact startPublish_kept hcore hstage.2 hstage.1
  · next failure loop hw =>
    unfold StageKept at hstage
    rw [hw] at hstage hcore
    exact roundPublish_kept hcore hstage.1 hstage.2 hw
  · next loop hw =>
    unfold StageKept at hstage
    rw [hw] at hstage hcore
    exact round_kept hcore hstage.1 hstage.2 hw
  · next loop part external failure hw =>
    unfold StageKept at hstage
    rw [hw] at hstage hcore
    exact afterPublish_kept hcore hstage.1 hstage.2.1 hstage.2.2.1 hstage.2.2.2
  · next loop hw =>
    unfold StageKept at hstage
    rw [hw] at hstage hcore
    exact failHost_kept hcore hstage.1 hstage.2.2.1
  · next hw =>
    unfold StageKept at hstage
    rw [hw] at hstage hcore
    apply pump_kept (k := k) (n := n)
    · exact hcore.same rfl rfl rfl rfl
    · exact fun _ => hstage
    · exact fun hne => absurd rfl hne
  · next error stage hw =>
    split
    · next parts hparts =>
      have hsplit : ∃ before, parts = before ++ inCall w.stage
          ∧ ∀ part ∈ before, part.id < k := by
        unfold StageKept at hstage
        cases hw' : w.stage with
        | idle => rw [hw'] at hparts; cases hparts
        | ending => rw [hw'] at hparts; cases hparts
        | storing parts seqs =>
          rw [hw'] at hparts
          cases hparts
          exact ⟨[], rfl, nofun⟩
        | publishing loop =>
          rw [hw'] at hstage hparts
          cases hparts
          exact hstage.1.settled
        | ran loop part external failure =>
          rw [hw'] at hstage hparts
          cases hparts
          exact hstage.1.settled
        | failing loop =>
          rw [hw'] at hstage hparts
          cases hparts
          obtain ⟨before, hbefore, hlt⟩ := hstage.1.settled
          refine ⟨before, ?_, hlt⟩
          rw [hbefore, hstage.2.1, List.append_nil, List.append_nil]
          rfl
      obtain ⟨before, rfl, hlt⟩ := hsplit
      exact abandon_kept hcore hlt
    · exact ⟨k, n, hcore, hstage⟩
  · exact ⟨k, n, hcore, hstage⟩

end Steps

/-! ## After a failure -/

/-- Nothing is published, and a failure stays. -/
structure Quiet (w w' : Writer ε) : Prop where
  published : w'.publishedIds = w.publishedIds
  failure : w.failure ≠ none → w'.failure ≠ none

theorem Quiet.refl (w : Writer ε) : Quiet w w := ⟨rfl, id⟩

theorem Quiet.trans {c : Writer ε} (h : Quiet a b) (h' : Quiet b c) : Quiet a c :=
  ⟨h'.published.trans h.published, fun hne => h'.failure (h.failure hne)⟩

theorem Quiet.of_eq (hlog : b.log = a.log) (hfailure : b.failure = a.failure) : Quiet a b := by
  constructor
  · rw [publishedIds, hlog]
    rfl
  · rw [hfailure]
    exact id

theorem Settles.quiet {w : Writer ε} (h : Settles w w') : Quiet w w' := by
  refine ⟨h.published, fun hne => ?_⟩
  rw [h.failure]
  exact hne

theorem quiet_stage {w : Writer ε} (h : Quiet w w') (stage : Stage ε) : Quiet w { w' with stage } :=
  h.trans (.of_eq rfl rfl)

theorem quiet_fail (w : Writer ε) (error : ε) (index : Option Nat) (own : List Nat) :
    Quiet w (w.fail error index own) := by
  refine ⟨?_, fun _ => fail_failure w error index own⟩
  simp

theorem quiet_startPublish (w : Writer ε) (loop : Loop ε) : Quiet w (w.startPublish loop) := by
  unfold startPublish
  split
  · exact quiet_stage (settles_unpublishAll w _ _).quiet _
  · exact quiet_stage (.refl w) _

theorem quiet_send (w : Writer ε) (parts : List Part) : Quiet w (w.send parts) := by
  unfold send
  split
  · exact quiet_stage (settles_unpublishAll w _ _).quiet _
  · split
    · exact quiet_stage (.refl w) _
    · exact quiet_startPublish w _

theorem quiet_pump (w : Writer ε) : Quiet w w.pump := by
  unfold pump
  split
  · next part queue _ _ =>
    have hqueue : Quiet w { w with queue := [] } := .of_eq rfl rfl
    exact hqueue.trans (quiet_send _ _)
  · exact .refl w

theorem quiet_dropQueue (w : Writer ε) : Quiet w w.dropQueue := by
  unfold dropQueue
  split
  · exact .refl w
  · next error _ =>
    have hqueue : Quiet w { w with queue := [] } := .of_eq rfl rfl
    exact hqueue.trans (settles_unpublishAll _ _ _).quiet

theorem quiet_finishPublish (w : Writer ε) (loop : Loop ε) : Quiet w (w.finishPublish loop) := by
  have hsettles := settles_foldl (fun w failing => settleFailing w loop failing)
    (fun w failing => settles_settleFailing w loop failing) loop.failing w
  exact quiet_stage (hsettles.quiet.trans (quiet_dropQueue _)) _

theorem quiet_failHost (w : Writer ε) (loop : Loop ε) : Quiet w (w.failHost loop) := by
  unfold failHost
  split
  · exact quiet_fail w _ _ _
  · exact quiet_fail w _ _ _
  · exact .refl w

theorem quiet_round (adopted : ε) (w : Writer ε) (loop : Loop ε) :
    Quiet w (w.round adopted loop) := by
  unfold round
  split
  · split
    · exact quiet_stage (.refl w) _
    · exact quiet_finishPublish w loop
  · exact quiet_stage (.refl w) _
  · split
    · exact quiet_stage (.refl w) _
    · exact .refl w

theorem quiet_afterPublish (w : Writer ε) (loop : Loop ε) (part : Part) (external : Option ε)
    (failure : Option (PublishFailure ε)) :
    Quiet w (w.afterPublish loop part external failure) := by
  unfold afterPublish
  split
  · exact quiet_stage (.refl w) _
  · exact quiet_stage (.refl w) _
  · next error rejected _ =>
    have hreport : Quiet w (w.record (.reported error)) := by
      refine ⟨?_, id⟩
      simp
    exact quiet_stage hreport _
  · exact quiet_stage (.refl w) _
  · exact quiet_stage (settles_settle w part _).quiet _
  · exact quiet_stage (settles_settle w part _).quiet _

theorem settles_giveUp (error : ε) (w : Writer ε) (part : Part) :
    Settles w (giveUp error w part) := by
  have hopen : ∀ w : Writer ε, Settles w ((w.unregister part).openGate part) := by
    intro w
    constructor
    · rfl
    · rfl
    · rfl
    · simp
    · simp
  unfold giveUp
  split
  · exact hopen w
  · exact (settles_unpublish w part _).trans (hopen _)

theorem quiet_abandon (w : Writer ε) (parts : List Part) (error : ε) :
    Quiet w (w.abandon parts error) := by
  have hsettles := settles_foldl (giveUp error) (settles_giveUp error) parts
    (w.fail error (parts.head?.map (·.index)) [])
  exact quiet_stage ((quiet_fail w _ _ _).trans hsettles.quiet) _

def stageStop : Stage ε → Option (Stop ε)
  | .publishing loop => loop.stop
  | .failing loop => loop.stop
  | _ => none

/-- A failure behind which nothing is published any more. -/
def Stopped (w : Writer ε) : Prop := w.failure ≠ none ∨ stageStop w.stage ≠ none

theorem abandon_failure (w : Writer ε) (parts : List Part) (error : ε) :
    (w.abandon parts error).failure ≠ none := by
  have hsettles := settles_foldl (giveUp error) (settles_giveUp error) parts
    (w.fail error (parts.head?.map (·.index)) [])
  show (parts.foldl (giveUp error) _).failure ≠ none
  rw [hsettles.failure]
  exact fail_failure w _ _ _

theorem quiet_admitPart (w : Writer ε) (spec : PartSpec) : Quiet w (w.admitPart spec) := by
  have henlist : Quiet w (w.enlist spec) := .of_eq rfl rfl
  exact henlist.trans (quiet_pump _)

theorem admitPart_busy {w : Writer ε} (spec : PartSpec) (h : w.stage ≠ .idle) :
    w.admitPart spec = w.enlist spec := by
  unfold admitPart pump
  split
  · next hidle _ => exact absurd hidle h
  · rfl

/-- **After a failure nothing is published any more.** -/
theorem step_stopped (adopted : ε) {w : Writer ε} (h : Stopped w) (input : Input ε) :
    Stopped (step adopted w input) ∧ (step adopted w input).publishedIds = w.publishedIds := by
  -- a failure of the session stays
  have hquiet : w.failure ≠ none → ∀ {w' : Writer ε}, Quiet w w' →
      Stopped w' ∧ w'.publishedIds = w.publishedIds :=
    fun hfailure _ hw' => ⟨.inl (hw'.failure hfailure), hw'.published⟩
  unfold step
  split
  · rcases h with hfailure | hstop
    · exact hquiet hfailure (quiet_admitPart w _)
    · have hbusy : w.stage ≠ .idle := by
        intro hidle
        rw [hidle] at hstop
        exact hstop rfl
      rw [admitPart_busy _ hbusy]
      exact ⟨.inr hstop, rfl⟩
  · exact ⟨.inl (by cases w.failure <;> exact nofun), rfl⟩
  · next index seq parts seqs hstage =>
    split
    · next part _ =>
      have hquiet' : Quiet w (w.record (.received part.id seq)) := by
        refine ⟨?_, id⟩
        simp
      rcases h with hfailure | hstop
      · exact hquiet hfailure (quiet_stage hquiet' _)
      · rw [hstage] at hstop
        exact absurd rfl hstop
    · exact ⟨h, rfl⟩
  · next result parts seqs hstage =>
    rcases h with hfailure | hstop
    · exact hquiet hfailure (quiet_startPublish w _)
    · rw [hstage] at hstop
      exact absurd rfl hstop
  · next failure loop hstage =>
    unfold roundPublish
    split
    · next part rest hrest hnone =>
      rcases h with hfailure | hstop
      · split
        · exact ⟨.inl hfailure, rfl⟩
        · unfold publishPart
          split
          · exact hquiet hfailure (quiet_stage (.refl w) _)
          · next hnofailure => exact absurd hnofailure hfailure
      · rw [hstage] at hstop
        exact absurd hnone hstop
    · exact ⟨h, rfl⟩
  · next loop hstage =>
    refine ⟨?_, (quiet_round adopted w loop).published⟩
    rcases h with hfailure | hstop
    · exact .inl ((quiet_round adopted w loop).failure hfailure)
    · rw [hstage] at hstop
      have hstop : loop.stop ≠ none := hstop
      obtain ⟨stop, hsome⟩ := Option.ne_none_iff_exists'.mp hstop
      right
      unfold round
      split
      · rw [if_pos (.inr (by rw [hsome]; rfl))]
        exact hstop
      · exact hstop
      · next hnone => exact absurd hnone hstop
  · next loop part external failure hstage =>
    rcases h with hfailure | hstop
    · exact hquiet hfailure (quiet_afterPublish w _ _ _ _)
    · rw [hstage] at hstop
      exact absurd rfl hstop
  · next loop hstage =>
    have hquiet' := (quiet_failHost w loop).trans (quiet_finishPublish _ loop)
    refine ⟨.inl ?_, hquiet'.published⟩
    rcases h with hfailure | hstop
    · exact hquiet'.failure hfailure
    · rw [hstage] at hstop
      obtain ⟨stop, hsome⟩ := Option.ne_none_iff_exists'.mp hstop
      have hsome : loop.stop = some stop := hsome
      apply (quiet_finishPublish _ loop).failure
      unfold failHost
      rw [hsome]
      cases loop.rejected with
      | some error => exact fail_failure w _ _ _
      | none => exact fail_failure w _ _ _
  · next hstage =>
    rcases h with hfailure | hstop
    · exact hquiet hfailure ((quiet_stage (.refl w) .idle).trans (quiet_pump _))
    · rw [hstage] at hstop
      exact absurd rfl hstop
  · split
    · exact ⟨.inl (abandon_failure w _ _), (quiet_abandon w _ _).published⟩
    · exact ⟨h, rfl⟩
  · exact ⟨h, rfl⟩

/-- The part is published, or never will be. -/
def Decided (adopted : ε) (w : Writer ε) (id : Nat) : Prop :=
  id ∈ w.publishedIds
    ∨ ∀ later, Run.Reachable (step adopted) Run.always w later → id ∉ later.publishedIds

theorem run_stopped {adopted : ε} {w later : Writer ε} (h : Stopped w)
    (hrun : Run.Reachable (step adopted) Run.always w later) :
    later.publishedIds = w.publishedIds := by
  have hboth : Stopped later ∧ later.publishedIds = w.publishedIds := by
    induction hrun with
    | init => exact ⟨h, rfl⟩
    | step input _ _ ih =>
      obtain ⟨hstopped, hpublished⟩ := ih
      obtain ⟨hstopped', hpublished'⟩ := step_stopped adopted hstopped input
      exact ⟨hstopped', hpublished'.trans hpublished⟩
  exact hboth.2

/-- A writer that settled more than it published has stopped. -/
theorem stopped_of_behind {w : Writer ε} {k n : Nat} (h : StageKept w k n) (hn : n < k) :
    Stopped w := by
  by_contra hnot
  obtain ⟨hfailure, hstop⟩ := not_or.mp hnot
  have hfailure := not_not.mp hfailure
  have hstop := not_not.mp hstop
  unfold StageKept at h
  cases hw : w.stage with
  | idle =>
    rw [hw] at h
    have := h.2 hfailure
    omega
  | ending =>
    rw [hw] at h
    have := h hfailure
    omega
  | storing parts seqs =>
    rw [hw] at h
    have := h.1 hfailure
    omega
  | publishing loop =>
    rw [hw] at h hstop
    have := h.2 hfailure hstop
    omega
  | ran loop part external failure =>
    rw [hw] at h
    obtain ⟨-, -, hran, hexternal⟩ := h
    cases external with
    | none =>
      have := hran rfl
      omega
    | some error => exact hexternal nofun hfailure
  | failing loop =>
    rw [hw] at h hstop
    have := h.2.2.2 hfailure hstop
    omega

theorem decided_of_lt (adopted : ε) {w : Writer ε} {k n : Nat} {pending : List Part}
    (hcore : Core w k n pending) (hstage : StageKept w k n) {id : Nat} (hid : id < k) :
    Decided adopted w id := by
  rcases Nat.lt_or_ge id n with hlt | hge
  · left
    rw [hcore.published]
    exact List.mem_range.mpr hlt
  · right
    intro later hrun
    rw [run_stopped (stopped_of_behind hstage (by omega)) hrun, hcore.published, List.mem_range]
    omega

/-! ## Every call ends -/

/-- The inputs the stage waits for. -/
def Moves (w : Writer ε) : Input ε → Prop
  | .settle _ => ∃ parts seqs, w.stage = .storing parts seqs
  | .publish _ => ∃ loop part rest, w.stage = .publishing loop ∧ loop.rest = part :: rest
    ∧ loop.stop = none ∧ ¬ (part.stored = true ∧ receipt loop = none)
  | .resume => w.stage = .ending ∨ (∃ loop, w.stage = .failing loop)
    ∨ (∃ loop part external failure, w.stage = .ran loop part external failure)
    ∨ ∃ loop, w.stage = .publishing loop
      ∧ (loop.rest = [] ∨ loop.stop ≠ none
        ∨ ∃ part rest, loop.rest = part :: rest ∧ part.stored = true ∧ receipt loop = none)
  | .throws _ => callParts w.stage ≠ none
  | _ => False

/-- A bound on the steps that are left of the call. -/
def stageCost : Stage ε → Nat
  | .idle => 0
  | .ending => 1
  | .failing _ => 2
  | .publishing loop => 2 * loop.rest.length + 3
  | .ran loop _ _ _ => 2 * loop.rest.length + 4
  | .storing parts _ => 2 * parts.length + 4

structure Advances (w w' : Writer ε) : Prop where
  admitted : w'.admitted = w.admitted
  queue : w'.queue.length ≤ w.queue.length
  cost : stageCost w'.stage < stageCost w.stage

theorem Settles.advances {w : Writer ε} (h : Settles w w')
    (hcost : stageCost (.ending : Stage ε) < stageCost w.stage) :
    Advances w { w' with stage := .ending } :=
  ⟨h.admitted, le_of_eq (congrArg List.length h.queue), hcost⟩

theorem advances_startPublish {w : Writer ε} (hcost : 2 * loop.rest.length + 3 < stageCost w.stage)
    : Advances w (w.startPublish loop) := by
  have hending : stageCost (.ending : Stage ε) = 1 := rfl
  unfold startPublish
  split
  · exact (settles_unpublishAll w _ _).advances (by omega)
  · exact ⟨rfl, le_refl _, hcost⟩

theorem advances_finishPublish {w : Writer ε} (loop : Loop ε) (hadmitted : w'.admitted = w.admitted)
    (hqueue : w'.queue = w.queue) (hcost : 1 < stageCost w.stage) :
    Advances w (w'.finishPublish loop) := by
  have hsettles := settles_foldl (fun w failing => settleFailing w loop failing)
    (fun w failing => settles_settleFailing w loop failing) loop.failing w'
  unfold finishPublish dropQueue
  split
  · exact ⟨hsettles.admitted.trans hadmitted,
      le_of_eq (congrArg List.length (hsettles.queue.trans hqueue)), hcost⟩
  · next error _ =>
    -- the queue is given up
    have hdrop := settles_unpublishAll
      { loop.failing.foldl (fun w failing => w.settleFailing loop failing) w' with queue := [] }
      (loop.failing.foldl (fun w failing => w.settleFailing loop failing) w').queue
      (.sessionFailed error)
    refine ⟨hdrop.admitted.trans (hsettles.admitted.trans hadmitted), ?_, hcost⟩
    show (unpublishAll _ _ _).queue.length ≤ _
    rw [hdrop.queue]
    exact Nat.zero_le _

theorem failHost_fields (w : Writer ε) (loop : Loop ε) :
    (w.failHost loop).admitted = w.admitted ∧ (w.failHost loop).queue = w.queue := by
  unfold failHost
  split <;> exact ⟨rfl, rfl⟩

theorem advances_afterPublish {w : Writer ε} {part : Part} {external : Option ε}
    (hw : w.stage = .ran loop part external failure) :
    Advances w (w.afterPublish loop part external failure) := by
  have hcost : 2 * loop.rest.length + 3 < stageCost w.stage := by
    rw [hw]
    show _ < 2 * loop.rest.length + 4
    omega
  unfold afterPublish
  split <;> exact ⟨rfl, le_refl _, hcost⟩

theorem advances_round {w : Writer ε} (adopted : ε) (hw : w.stage = .publishing loop)
    (hmoves : loop.rest = [] ∨ loop.stop ≠ none
      ∨ ∃ part rest, loop.rest = part :: rest ∧ part.stored = true ∧ receipt loop = none) :
    Advances w (w.round adopted loop) := by
  have hcost : stageCost w.stage = 2 * loop.rest.length + 3 := by
    rw [hw]
    rfl
  unfold round
  split
  · next hrest =>
    rw [hrest] at hcost
    split
    · refine ⟨rfl, le_refl _, ?_⟩
      rw [hcost]
      show 2 < 3
      decide
    · exact advances_finishPublish loop rfl rfl (by omega)
  · next part rest stop hrest _ =>
    refine ⟨rfl, le_refl _, ?_⟩
    rw [hcost, hrest, List.length_cons]
    show 2 * rest.length + 3 < _
    omega
  · next part rest hrest hstop =>
    split
    · refine ⟨rfl, le_refl _, ?_⟩
      rw [hcost, hrest, List.length_cons]
      show 2 * rest.length + 3 < _
      omega
    · next hnot =>
      rcases hmoves with hnil | hne | ⟨other, rest', hsame, hmissing⟩
      · rw [hrest] at hnil
        cases hnil
      · exact absurd hstop hne
      · rw [hrest] at hsame
        cases hsame
        exact absurd hmissing hnot

theorem advances_roundPublish {w : Writer ε} {part : Part} {rest : List Part}
    (failure : Option (PublishFailure ε)) (hw : w.stage = .publishing loop)
    (hrest : loop.rest = part :: rest) (hstop : loop.stop = none)
    (hready : ¬ (part.stored = true ∧ receipt loop = none)) :
    Advances w (w.roundPublish loop failure) := by
  have hcost : 2 * rest.length + 4 < stageCost w.stage := by
    rw [hw]
    show _ < 2 * loop.rest.length + 3
    rw [hrest, List.length_cons]
    omega
  unfold roundPublish
  rw [hrest, hstop]
  show Advances w (if _ then _ else _)
  rw [if_neg hready]
  unfold publishPart
  split <;> exact ⟨rfl, le_refl _, hcost⟩

theorem advances_abandon {w : Writer ε} {parts : List Part} (error : ε)
    (hparts : callParts w.stage = some parts) : Advances w (w.abandon parts error) := by
  have hcost : 1 < stageCost w.stage := by
    cases hw : w.stage with
    | idle | ending => rw [hw] at hparts; cases hparts
    | storing | publishing | ran | failing =>
      simp only [stageCost]
      omega
  have hsettles := settles_foldl (giveUp error) (settles_giveUp error) parts
    (w.fail error (parts.head?.map (·.index)) [])
  exact ⟨hsettles.admitted, le_of_eq (congrArg List.length hsettles.queue), hcost⟩

variable {input : Input ε}

/-- **Every move inside a call brings its end nearer.** -/
theorem step_advances (adopted : ε) {w : Writer ε} (h : Moves w input) (hne : w.stage ≠ .ending)
    : Advances w (step adopted w input) := by
  cases input with
  | admitPart spec => cases h
  | failOutside error => cases h
  | receive index seq => cases h
  | settle result =>
    obtain ⟨parts, seqs, hw⟩ := h
    unfold step
    rw [hw]
    apply advances_startPublish
    rw [hw]
    show 2 * parts.length + 3 < 2 * parts.length + 4
    omega
  | publish failure =>
    obtain ⟨loop, part, rest, hw, hrest, hstop, hready⟩ := h
    unfold step
    rw [hw]
    exact advances_roundPublish failure hw hrest hstop hready
  | resume =>
    rcases h with hending | ⟨loop, hw⟩ | ⟨loop, part, external, failure, hw⟩ | ⟨loop, hw, hmoves⟩
    · exact absurd hending hne
    · obtain ⟨hadmitted, hqueue⟩ := failHost_fields w loop
      unfold step
      rw [hw]
      refine advances_finishPublish loop hadmitted hqueue ?_
      rw [hw]
      show 1 < 2
      decide
    · unfold step
      rw [hw]
      exact advances_afterPublish hw
    · unfold step
      rw [hw]
      exact advances_round adopted hw hmoves
  | throws error =>
    obtain ⟨parts, hparts⟩ := Option.ne_none_iff_exists'.mp h
    have hstep : step adopted w (.throws error) = w.abandon parts error := by
      unfold step
      simp only [hparts]
    rw [hstep]
    exact advances_abandon error hparts

structure Still (w w' : Writer ε) : Prop where
  admitted : w'.admitted = w.admitted
  queue : w'.queue = w.queue
  cost : stageCost w'.stage = stageCost w.stage

theorem still_round {w : Writer ε} (adopted : ε) (hnot : ¬ (loop.rest = [] ∨ loop.stop ≠ none
      ∨ ∃ part rest, loop.rest = part :: rest ∧ part.stored = true ∧ receipt loop = none)) :
    Still w (w.round adopted loop) := by
  unfold round
  split
  · next hrest => exact absurd (.inl hrest) hnot
  · next part rest stop _ hstop =>
    have hne : loop.stop ≠ none := by
      rw [hstop]
      exact nofun
    exact absurd (.inr (.inl hne)) hnot
  · next part rest hrest _ =>
    split
    · next hmissing => exact absurd (.inr (.inr ⟨part, rest, hrest, hmissing⟩)) hnot
    · exact ⟨rfl, rfl, rfl⟩

/-- Other inputs leave the writer where it is. -/
theorem step_still (adopted : ε) {w : Writer ε} (hnot : ¬ Moves w input)
    (hother : ∀ spec, input ≠ .admitPart spec) : Still w (step adopted w input) := by
  unfold step
  split
  · next spec => exact absurd rfl (hother spec)
  · exact ⟨rfl, rfl, rfl⟩
  · next index seq parts seqs hw =>
    split
    · refine ⟨rfl, rfl, ?_⟩
      rw [hw]
      rfl
    · exact ⟨rfl, rfl, rfl⟩
  · next result parts seqs hw => exact absurd ⟨parts, seqs, hw⟩ hnot
  · next failure loop hw =>
    unfold roundPublish
    split
    · next part rest hrest hstop =>
      split
      · exact ⟨rfl, rfl, rfl⟩
      · next hready => exact absurd ⟨loop, part, rest, hw, hrest, hstop, hready⟩ hnot
    · exact ⟨rfl, rfl, rfl⟩
  · next loop hw =>
    apply still_round adopted
    exact fun hmoves => hnot (.inr (.inr (.inr ⟨loop, hw, hmoves⟩)))
  · next loop part external failure hw =>
    exact absurd (.inr (.inr (.inl ⟨loop, part, external, failure, hw⟩))) hnot
  · next loop hw => exact absurd (.inr (.inl ⟨loop, hw⟩)) hnot
  · next hw => exact absurd (.inl hw) hnot
  · next error stage =>
    split
    · next parts hparts =>
      have hne : callParts w.stage ≠ none := by
        rw [hparts]
        exact nofun
      exact absurd hne hnot
    · exact ⟨rfl, rfl, rfl⟩
  · exact ⟨rfl, rfl, rfl⟩

/-- A busy writer waits for some input. -/
theorem exists_moves {w : Writer ε} (h : w.stage ≠ .idle) : ∃ input, Moves w input := by
  cases hw : w.stage with
  | idle => exact absurd hw h
  | ending => exact ⟨.resume, .inl hw⟩
  | failing loop => exact ⟨.resume, .inr (.inl ⟨loop, hw⟩)⟩
  | ran loop part external failure =>
    exact ⟨.resume, .inr (.inr (.inl ⟨loop, part, external, failure, hw⟩))⟩
  | storing parts seqs => exact ⟨.settle (.resolved 0 none), parts, seqs, hw⟩
  | publishing loop =>
    by_cases hround : loop.rest = [] ∨ loop.stop ≠ none
        ∨ ∃ part rest, loop.rest = part :: rest ∧ part.stored = true ∧ receipt loop = none
    · exact ⟨.resume, .inr (.inr (.inr ⟨loop, hw, hround⟩))⟩
    · obtain ⟨hrest, hnext⟩ := not_or.mp hround
      obtain ⟨hstop, hready⟩ := not_or.mp hnext
      obtain ⟨part, rest, hcons⟩ := List.exists_cons_of_ne_nil hrest
      refine ⟨.publish none, loop, part, rest, hw, hcons, not_not.mp hstop, ?_⟩
      exact fun hmissing => hready ⟨part, rest, hcons, hmissing⟩

/-! ## Every part settles -/

/-- How far a part is from being settled: whether it still waits in the queue, and what the call in
flight has to do. -/
def rank (id : Nat) (w : Writer ε) : Nat ×ₗ Nat :=
  toLex (if id + w.queue.length < w.admitted.length then 0 else 1, stageCost w.stage)

theorem rank_le {id : Nat} {w : Writer ε} (hplace : id + w.queue.length < w.admitted.length →
      id + w'.queue.length < w'.admitted.length) (hcost : stageCost w'.stage ≤ stageCost w.stage)
    : rank id w' ≤ rank id w := by
  unfold rank
  rw [Prod.Lex.le_iff]
  simp only [ofLex_toLex]
  split
  · split
    · exact .inr ⟨rfl, hcost⟩
    · exact .inl (by decide)
  · next hnot =>
    rw [if_neg (fun h => hnot (hplace h))]
    exact .inr ⟨rfl, hcost⟩

theorem rank_lt {id : Nat} {w : Writer ε} (hplace : id + w.queue.length < w.admitted.length →
      id + w'.queue.length < w'.admitted.length) (hcost : stageCost w'.stage < stageCost w.stage)
    : rank id w' < rank id w := by
  unfold rank
  rw [Prod.Lex.lt_iff]
  simp only [ofLex_toLex]
  split
  · split
    · exact .inr ⟨rfl, hcost⟩
    · exact .inl (by decide)
  · next hnot =>
    rw [if_neg (fun h => hnot (hplace h))]
    exact .inr ⟨rfl, hcost⟩

theorem Advances.rank_lt {w : Writer ε} (h : Advances w w') (id : Nat) :
    rank id w' < rank id w := by
  have hqueue := h.queue
  apply Writer.rank_lt
  · rw [h.admitted]
    omega
  · exact h.cost

theorem Still.rank_le {w : Writer ε} (h : Still w w') (id : Nat) : rank id w' ≤ rank id w := by
  apply Writer.rank_le
  · rw [h.admitted, h.queue]
    exact fun hplace => hplace
  · exact le_of_eq h.cost

def Waits (id : Nat) (w : Writer ε) : Prop := id < w.admitted.length ∧ id ∉ w.settledIds

theorem Kept.waits {w : Writer ε} (h : Kept w) {id : Nat} (hid : Waits id w) :
    id + (w.queue.length + (inCall w.stage).length) ≥ w.admitted.length := by
  obtain ⟨k, n, hcore, -⟩ := h
  have hlength := hcore.length
  have hge : ¬ id < k := by
    intro hlt
    apply hid.2
    rw [hcore.settled]
    exact List.mem_range.mpr hlt
  rw [List.length_append] at hlength
  omega

theorem Kept.busy {w : Writer ε} (h : Kept w) {id : Nat} (hid : Waits id w) : w.stage ≠ .idle := by
  intro hidle
  have hplace := h.waits hid
  have hlt := hid.1
  obtain ⟨k, n, -, hstage⟩ := h
  unfold StageKept at hstage
  rw [hidle] at hstage hplace
  rw [hstage.1] at hplace
  simp only [inCall, List.length_nil] at hplace
  omega

theorem pump_idle {w : Writer ε} (h : w.stage = .idle) :
    w.pump.queue = [] ∧ w.pump.admitted = w.admitted := by
  unfold pump
  split
  · next part queue _ _ =>
    have hpart : ∀ parts outcome,
        ({ w with queue := [] }.unpublishAll parts outcome).queue = []
          ∧ ({ w with queue := [] }.unpublishAll parts outcome).admitted = w.admitted := by
      intro parts outcome
      have hsettles := settles_unpublishAll { w with queue := [] } parts outcome
      exact ⟨hsettles.queue, hsettles.admitted⟩
    unfold send startPublish
    split
    · exact hpart _ _
    · split
      · exact ⟨rfl, rfl⟩
      · split
        · exact hpart _ _
        · exact ⟨rfl, rfl⟩
  · next hnot =>
    refine ⟨?_, rfl⟩
    cases hqueue : w.queue with
    | nil => rfl
    | cons part queue => exact absurd hqueue (hnot part queue h)

/-- At the end of a call the next one begins. -/
theorem step_of_ending (adopted : ε) {w : Writer ε} (hw : w.stage = .ending) (h : Moves w input)
    : step adopted w input = pump { w with stage := .idle } := by
  cases input with
  | resume =>
    unfold step
    rw [hw]
  | settle result =>
    obtain ⟨parts, seqs, hstoring⟩ := h
    rw [hw] at hstoring
    cases hstoring
  | publish failure =>
    obtain ⟨loop, part, rest, hpublishing, -⟩ := h
    rw [hw] at hpublishing
    cases hpublishing
  | throws error => exact absurd (by rw [hw]; rfl) h
  | _ => cases h

/-- **A move brings a waiting part nearer to its settlement**, at the latest when the next call takes
the queue. -/
theorem step_rank_lt (adopted : ε) {w : Writer ε} {id : Nat} (h : Kept w) (hid : Waits id w)
    (hmoves : Moves w input) : rank id (step adopted w input) < rank id w := by
  by_cases hending : w.stage = .ending
  · have hplace := h.waits hid
    have hlt := hid.1
    rw [hending] at hplace
    simp only [inCall, List.length_nil] at hplace
    obtain ⟨hqueue, hadmitted⟩ := pump_idle (w := { w with stage := .idle }) rfl
    rw [step_of_ending adopted hending hmoves]
    unfold rank
    rw [hqueue, hadmitted, if_pos (by show id + 0 < w.admitted.length; omega),
      if_neg (by omega), Prod.Lex.lt_iff]
    exact .inl Nat.zero_lt_one
  · exact (step_advances adopted hmoves hending).rank_lt id

theorem step_rank_le (adopted : ε) {w : Writer ε} (input : Input ε) {id : Nat} (h : Kept w)
    (hid : Waits id w) : rank id (step adopted w input) ≤ rank id w := by
  by_cases hmoves : Moves w input
  · exact le_of_lt (step_rank_lt adopted h hid hmoves)
  · cases input with
    | admitPart spec =>
      show rank id (w.admitPart spec) ≤ rank id w
      rw [admitPart_busy spec (h.busy hid)]
      apply rank_le
      · intro hplace
        simp only [enlist, List.length_append, List.length_singleton]
        omega
      · exact le_refl _
    | _ => exact (step_still adopted hmoves nofun).rank_le id

theorem step_admitted (adopted : ε) (w : Writer ε) (input : Input ε) :
    w.admitted.length ≤ (step adopted w input).admitted.length := by
  by_cases hmoves : Moves w input
  · by_cases hending : w.stage = .ending
    · rw [step_of_ending adopted hending hmoves]
      have hpump := (pump_idle (w := { w with stage := .idle }) rfl).2
      exact le_of_eq (congrArg List.length hpump).symm
    · exact le_of_eq (congrArg List.length (step_advances adopted hmoves hending).admitted).symm
  · cases input with
    | admitPart spec =>
      have henlist : w.admitted.length ≤ (w.enlist spec).admitted.length := by simp [enlist]
      by_cases hidle : w.stage = .idle
      · have hpump := (pump_idle (w := w.enlist spec) hidle).2
        exact henlist.trans (le_of_eq (congrArg List.length hpump).symm)
      · show _ ≤ (w.admitPart spec).admitted.length
        rw [admitPart_busy spec hidle]
        exact henlist
    | _ => exact le_of_eq (congrArg List.length (step_still adopted hmoves nofun).admitted).symm

/-- A run in which the writer goes on again and again, until it is idle. -/
def Fair (adopted : ε) (w : Writer ε) (inputs : Nat → Input ε) : Prop :=
  ∀ n, ∃ m, n ≤ m ∧ ((Run.along (step adopted) w inputs m).stage = .idle
    ∨ Moves (Run.along (step adopted) w inputs m) (inputs m))

/-! ## The writer as a whole -/

/-- What holds in every state of the writer. Parts are named by their place in the order of
admission. -/
structure Orderly (adopted : ε) (w : Writer ε) : Prop where
  ids : w.admitted.map (·.id) = List.range w.admitted.length
  -- in admission order, each at most once, none behind one that is not
  published : ∃ n, n ≤ w.admitted.length ∧ w.publishedIds = List.range n
  received : ∀ part ∈ w.admitted, part.stored = true → part.id ∈ w.publishedIds →
    part.id ∈ w.receivedIds
  settledOnce : w.settledIds.Nodup
  decided : ∀ id, id ∈ w.settledIds ∨ id ∈ w.openedIds → Decided adopted w id
  settles : ∀ inputs, Fair adopted w inputs → ∀ part ∈ w.admitted,
    ∃ n, part.id ∈ (Run.along (step adopted) w inputs n).settledIds
      ∧ part.id ∈ (Run.along (step adopted) w inputs n).openedIds
  goesOn : w.stage ≠ .idle → ∃ input, Moves w input
  gates : ∀ key id, w.gate key = some id →
    ∀ later, Run.Reachable (step adopted) Run.always w later → id ∈ later.openedIds →
      ∀ part ∈ w.admitted, key ∈ part.keys → Decided adopted later part.id
  drains : ∀ id, w.drained = some id →
    ∀ later, Run.Reachable (step adopted) Run.always w later → id ∈ later.openedIds →
      ∀ part ∈ w.admitted, Decided adopted later part.id
  atRest : w.stage = .idle → w.queue = [] → ∀ key, w.gate key = none

theorem run_kept {adopted : ε} {w later : Writer ε} (h : Kept w)
    (hrun : Run.Reachable (step adopted) Run.always w later) : Kept later :=
  hrun.invariant Kept h fun _ input hkept _ => step_kept adopted hkept input

theorem decided_of_opened {adopted : ε} {w : Writer ε} (h : Kept w) {id part : Nat}
    (hopened : id ∈ w.openedIds) (hle : part ≤ id) : Decided adopted w part := by
  obtain ⟨k, n, hcore, hstage⟩ := h
  have hlt := (hcore.opened id).mp hopened
  exact decided_of_lt adopted hcore hstage (by omega)

theorem Kept.opened_of_settled {w : Writer ε} (h : Kept w) {id : Nat} (hid : id ∈ w.settledIds) :
    id ∈ w.openedIds := by
  obtain ⟨k, n, hcore, -⟩ := h
  rw [hcore.settled, List.mem_range] at hid
  exact (hcore.opened id).mpr hid

/-- **Every part settles**, however many are admitted behind it. -/
theorem settles_eventually {adopted : ε} {w : Writer ε} (h : Kept w) {inputs : Nat → Input ε}
    (hfair : Fair adopted w inputs) {id : Nat} (hid : id < w.admitted.length) :
    ∃ n, id ∈ (Run.along (step adopted) w inputs n).settledIds := by
  apply Run.eventually (fun s => Kept s ∧ id < s.admitted.length) (fun s => id ∈ s.settledIds)
    (rank id) (fun s input => s.stage = .idle ∨ Moves s input)
  · intro s input hs
    exact ⟨step_kept adopted hs.1 input, lt_of_lt_of_le hs.2 (step_admitted adopted s input)⟩
  · intro s input hs hnot
    exact .inr (step_rank_le adopted input hs.1 ⟨hs.2, hnot⟩)
  · intro s input hs hmoves hnot
    rcases hmoves with hidle | hmoves
    · exact absurd hidle (hs.1.busy ⟨hs.2, hnot⟩)
    · exact .inr (step_rank_lt adopted hs.1 ⟨hs.2, hnot⟩ hmoves)
  · exact ⟨h, hid⟩
  · exact hfair

/-- Everything a reader of the writer relies on follows from the invariant. -/
theorem Kept.orderly (adopted : ε) {w : Writer ε} (h : Kept w) : Orderly adopted w := by
  obtain ⟨k, n, hcore, hstage⟩ := id h
  constructor
  · exact hcore.ids
  · exact ⟨n, hcore.inside.2, hcore.published⟩
  · intro part hpart hstored hpublished
    rw [hcore.published, List.mem_range] at hpublished
    exact hcore.received part hpart hpublished hstored
  · rw [hcore.settled]
    exact List.nodup_range
  · intro id hid
    have hopened : id ∈ w.openedIds := hid.elim h.opened_of_settled fun hopened => hopened
    exact decided_of_opened h hopened (le_refl id)
  · intro inputs hfair part hpart
    obtain ⟨m, hsettled⟩ := settles_eventually h hfair (hcore.id_lt hpart)
    have hkept : Kept (Run.along (step adopted) w inputs m) :=
      run_kept h (Run.along_reachable inputs m)
    exact ⟨m, hsettled, hkept.opened_of_settled hsettled⟩
  · exact exists_moves
  · intro key id hkey later hrun hopened part hpart hwrites
    obtain ⟨-, -, -, hlast⟩ := hcore.registered key id hkey
    exact decided_of_opened (run_kept h hrun) hopened (hlast part hpart hwrites)
  · intro id hnewest later hrun hopened part hpart
    obtain ⟨-, hlast⟩ := hcore.newest id hnewest
    have hlt := hcore.id_lt hpart
    exact decided_of_opened (run_kept h hrun) hopened (by omega)
  · intro hidle hqueue key
    have hlength := hcore.length
    rw [hidle, hqueue] at hlength
    simp only [inCall, List.append_nil, List.length_nil] at hlength
    cases hkey : w.gate key with
    | none => rfl
    | some id =>
      -- its writer would be settled
      obtain ⟨hk, -, ⟨part, hpart, rfl, -⟩, -⟩ := hcore.registered key id hkey
      have hlt := hcore.id_lt hpart
      omega

/-- **Parts are published in the order they were admitted in**, whatever storage, the session and
the publications do, and every one of them settles once. -/
theorem parts_are_published_in_order (adopted : ε) {w : Writer ε}
    (hrun : Run.Reachable (step adopted) Run.always init w) : Orderly adopted w :=
  (run_kept init_kept hrun).orderly adopted

/-- Storage takes the first of two batches and refuses the second; a held part comes last. -/
def refusedRun : List (Input String) :=
  [.admitPart ⟨0, false, []⟩, .admitPart ⟨1, true, ["a"]⟩, .admitPart ⟨2, true, ["a", "b"]⟩,
    .admitPart ⟨3, false, ["c"]⟩, .publish none, .resume, .resume, .resume, .receive 0 7,
    .settle (.resolved 1 (some "full")), .publish none, .resume, .resume, .resume, .resume, .resume,
    .resume]

theorem parts_are_published_in_order_refused :
    ((Run.after (step "lost") init refusedRun 17).publishedIds = [0, 1]
      ∧ (Run.after (step "lost") init refusedRun 17).settledIds = [0, 1, 2, 3])
    ∧ Orderly "lost" (Run.after (step "lost") init refusedRun 17) :=
  ⟨by decide, parts_are_published_in_order "lost" (Run.after_reachable 17)⟩

end Writer

end ThreeXhaust.Durable
