import ThreeXhaust.Delta.ObjectDraft

/-!
# The tracker

`chord/src/delta/tracker.ts`: a tracker holds the current revision of a value; a change is drafted
over it, prepared, and adopted when no other was adopted in between. Contexts, changes and prepared
changes are objects with an identity, here their position in the tracker that made them.

The operations of a draft that changes objects only are those of `ObjectDraft`; what any other draft
emits is an input of `prepare`, and its value is made from the operations, as the source makes it. A
weak reference to a competitor can always be followed, as long as someone can still use the competitor.

* **`Tracker.Kept`** — what a tracker keeps: an open draft is over the current revision and registered.
* **`Tracker.adopt_cases`** — what an adoption does, or why it is refused.
* **`adopt_error_value`** — a refused adoption changes neither value nor revision.
-/

namespace ThreeXhaust.Delta

open Utf16

/-! ## Contexts -/

inductive Status where
  | «open»
  | prepared
  | consumed
  | aborted
  | stale
deriving DecidableEq

inductive TrackerError where
  | typeError (message : String)
  | error (message : String)
  /-- What emitting the operations of a draft threw. -/
  | draft
  | delta (e : DeltaError)
  /-- There is no such object to call. -/
  | absent

/-- An `OverlayContext`; `root` is the container its root node is over. -/
structure Context where
  owner : Nat
  baseRevision : Nat
  status : Status
  root : Option (Value Nat)
  baseValue : Option (Value Nat)
  overlayReleased : Bool

def Context.isSettled (context : Context) : Bool :=
  context.overlayReleased || context.status = .consumed || context.status = .aborted
    || context.status = .stale

def Context.assertReadable (context : Context) : Except TrackerError Unit :=
  if context.isSettled then .error (.typeError "Cannot use a settled overlay") else .ok ()

def Context.assertWritable (context : Context) : Except TrackerError Unit := do
  context.assertReadable
  if context.status ≠ .open then .error (.typeError "Prepared overlays are read-only") else .ok ()

/-- What `clearContext` and `releaseOverlayReferences` leave. -/
def Context.release (context : Context) : Context :=
  { context with root := none, baseValue := none, overlayReleased := true }

def Context.lose (context : Context) : Context :=
  { context.release with
    status := if context.status = .open ∨ context.status = .prepared then .stale else context.status }

/-- The operations of a handle of a draft: `then` is what a promise asks of its value, every other
one starts with one of the two checks. -/
inductive Trap where
  | readThen
  | read
  | write

def Context.trap (context : Context) : Trap → Except TrackerError Unit
  | .readThen => if context.isSettled then .ok () else context.assertReadable
  | .read => context.assertReadable
  | .write => context.assertWritable

/-! ## Changes -/

structure ChangeImpl where
  context : Option Nat
  preparedStatus : Option Nat
  settled : Bool

structure PreparedImpl where
  context : Nat
  value : Value Nat
  base : Value Nat
  ops : List (Op (Value Nat))

structure Tracker where
  owner : Nat
  value : Value Nat
  revision : Nat
  «open» : Option Nat
  competitors : List Nat
  contexts : List Context
  changes : List ChangeImpl
  prepareds : List PreparedImpl

/-- The draft of a change: its edits, where it changes only objects that are reached through objects of
its base, and what emitting any other draft gives, or throws. -/
structure Overlay where
  edits : Option (List (List Text × Edit))
  emitted : Except TrackerError (List (Op (Value Nat)))

/-- `emitSimpleObjectOperations`, where it applies: the operations, and the clone that becomes the
value. -/
def Overlay.simple (overlay : Overlay) (base : Value Nat) :
    Option (List (Op (Value Nat)) × Option (Value Nat)) := do
  let edits ← overlay.edits
  let (ops, direct) ← emitSimpleObjectOperations base (drafted base edits)
  some (ops, if direct then some (cloneRoot base (drafted base edits)) else none)

/-- `emitOperations`. -/
def Overlay.emit (overlay : Overlay) (base : Value Nat) :
    Except TrackerError (List (Op (Value Nat)) × Option (Value Nat)) :=
  match overlay.simple base with
  | some emitted => .ok emitted
  | none => overlay.emitted.map (·, none)

structure PreparedRef where
  owner : Nat
  index : Nat

def materializeOperations (base : Value Nat) (ops : List (Op (Value Nat))) : Result (Value Nat) :=
  if ops.any fun op => !op.trusted then applyImmutable base ops else applyImmutableTrusted base ops

def materialize (base : Value Nat) (ops : List (Op (Value Nat))) (direct : Option (Value Nat)) :
    Except TrackerError (Value Nat) :=
  if ops = [] then .ok base
  else
    match direct with
    | some clone => .ok clone
    | none => (materializeOperations base ops).mapError .delta

/-- What `prepare` makes of a draft: `emitOperations` and `materializePrepared`. -/
def Overlay.made (overlay : Overlay) (base : Value Nat) :
    Except TrackerError (List (Op (Value Nat)) × Value Nat) := do
  let (ops, direct) ← overlay.emit base
  let value ← materialize base ops direct
  .ok (ops, value)

namespace Tracker

def init (owner : Nat) (initial : Value Nat) : Tracker := ⟨owner, initial, 0, none, [], [], [], []⟩

def setStatus (t : Tracker) (c : Nat) (status : Status) : Tracker :=
  { t with contexts := t.contexts.modify c fun context => { context with status } }

def releaseContext (t : Tracker) (c : Nat) : Tracker :=
  if t.open = some c then { t with «open» := none }
  else { t with competitors := t.competitors.erase c }

def clearContext (t : Tracker) (c : Nat) : Tracker :=
  { t.releaseContext c with contexts := t.contexts.modify c Context.release }

/-- `beginChange`: the change that was open competes with the new one. -/
def beginChange (t : Tracker) : Tracker :=
  { t with
    «open» := some t.contexts.length
    competitors := t.competitors ++ t.open.toList
    contexts := t.contexts ++ [⟨t.owner, t.revision, .open, some t.value, some t.value, false⟩]
    changes := t.changes ++ [⟨some t.contexts.length, none, false⟩] }

/-- `change.state`. -/
def state (t : Tracker) (i : Nat) : Except TrackerError (Value Nat) :=
  match ((t.changes[i]?).bind (·.context)).bind fun c => (t.contexts[c]?).bind (·.root) with
  | some root => .ok root
  | none => .error (.typeError "Cannot use a settled overlay")

/-- The end of `prepare`, once the draft was emitted and the value made, or one of them threw. -/
def settleChange (t : Tracker) (i c : Nat) (base : Value Nat)
    (made : Except TrackerError (List (Op (Value Nat)) × Value Nat)) :
    Tracker × Except TrackerError Nat :=
  match made with
  | .ok (ops, value) =>
    ({ (t.setStatus c .prepared).clearContext c with
        changes := t.changes.set i ⟨none, some c, true⟩
        prepareds := t.prepareds ++ [⟨c, value, base, ops⟩] },
      .ok t.prepareds.length)
  | .error e =>
    ({ (t.setStatus c .aborted).clearContext c with changes := t.changes.set i ⟨none, none, true⟩ },
      .error e)

def prepare (t : Tracker) (i : Nat) (overlay : Overlay) : Tracker × Except TrackerError Nat :=
  match t.changes[i]? with
  | none => (t, .error .absent)
  | some change =>
    if change.settled then (t, .error (.error "Change has already been settled"))
    else
      match change.context.bind fun c => (t.contexts[c]?).map fun context => (c, context) with
      | none => (t, .error .absent)
      | some (c, context) =>
        match context.assertWritable, context.baseValue with
        | .error e, _ => (t, .error e)
        | .ok _, none => (t, .error .absent)
        | .ok _, some base => t.settleChange i c base (overlay.made base)

def abortContext (t : Tracker) (c : Nat) : Tracker :=
  match t.contexts[c]? with
  | none => t
  | some context =>
    if context.status = .aborted ∨ context.status = .consumed ∨ context.status = .stale then t
    else (t.setStatus c .aborted).clearContext c

def abortStatus (t : Tracker) (c : Nat) : Tracker :=
  if (t.contexts[c]?).map Context.status = some Status.prepared then t.setStatus c .aborted else t

def abortChange (t : Tracker) (i : Nat) : Tracker :=
  match t.changes[i]? with
  | none => t
  | some change =>
    if change.settled then
      { change.preparedStatus.elim t t.abortStatus with
        changes := t.changes.set i { change with preparedStatus := none } }
    else
      { change.context.elim t t.abortContext with
        changes := t.changes.set i { change with settled := true, context := none } }

def abortPrepared (t : Tracker) (i : Nat) : Tracker :=
  match t.prepareds[i]? with
  | none => t
  | some prepared => t.abortContext prepared.context

/-- The operations of a replacement: none, where it is what is there already. -/
def replacementOps (t : Tracker) (value : Value Nat) : List (Op (Value Nat)) :=
  if equalJson t.value value then [] else [.r value]

/-- `prepareReplace`: the context is never open. -/
def prepareReplace (t : Tracker) (value : Value Nat) : Tracker × Except TrackerError Nat :=
  let ops := t.replacementOps value
  let context : Context := ⟨t.owner, t.revision, .prepared, none, none, true⟩
  match materialize t.value ops none with
  | .ok made =>
    ({ t with
        contexts := t.contexts ++ [context]
        prepareds := t.prepareds ++ [⟨t.contexts.length, made, t.value, ops⟩] },
      .ok t.prepareds.length)
  | .error e => ({ t with contexts := t.contexts ++ [{ context with status := .aborted }] }, .error e)

def staleCompetitor (winner : Nat) (contexts : List Context) (c : Nat) : List Context :=
  if c = winner then contexts else contexts.modify c Context.lose

def invalidate (t : Tracker) (winner : Nat) : Tracker :=
  { t with
    «open» := none
    competitors := []
    contexts := (t.open.toList ++ t.competitors).foldl (staleCompetitor winner) t.contexts }

/-- The prepared change that a reference is to, with its context: `PREPARED.get`. -/
def find (t : Tracker) (ref : Option PreparedRef) : Option (PreparedImpl × Context) := do
  let ref ← ref
  if ref.owner ≠ t.owner then none
  else do
    let prepared ← t.prepareds[ref.index]?
    let context ← t.contexts[prepared.context]?
    some (prepared, context)

def adopt (t : Tracker) (ref : Option PreparedRef) : Tracker × Except TrackerError PreparedImpl :=
  match t.find ref with
  | none => (t, .error (.error "Prepared change belongs to a different tracker"))
  | some (prepared, context) =>
    if context.owner ≠ t.owner then
      (t, .error (.error "Prepared change belongs to a different tracker"))
    else if context.status = .consumed then
      (t, .error (.error "Prepared change has already been used"))
    else if context.status = .aborted then (t, .error (.error "Prepared change has been aborted"))
    else if context.status = .stale then (t, .error (.error "Prepared change is stale"))
    else if context.status ≠ .prepared then (t, .error (.error "Prepared change is not ready"))
    else if context.baseRevision ≠ t.revision then
      ((t.setStatus prepared.context .stale).clearContext prepared.context,
        .error (.error "Prepared change is stale"))
    else if t.value.same prepared.base = false then
      (t.setStatus prepared.context .stale, .error (.error "Prepared change is stale"))
    else
      ({ (t.setStatus prepared.context .consumed) with
          value := prepared.value
          revision := t.revision + 1 }.invalidate prepared.context,
        .ok prepared)

end Tracker

/-! ## What a tracker keeps -/

def Context.Settled (context : Context) : Prop :=
  context.root = none ∧ context.overlayReleased = true

variable {context : Context}

theorem Context.Settled.assertReadable (h : context.Settled) :
    context.assertReadable = .error (.typeError "Cannot use a settled overlay") := by
  have hsettled : context.isSettled = true := by simp [Context.isSettled, h.2]
  rw [Context.assertReadable, if_pos hsettled]

theorem Context.Settled.assertWritable (h : context.Settled) :
    context.assertWritable = .error (.typeError "Cannot use a settled overlay") := by
  rw [Context.assertWritable, h.assertReadable]
  rfl

/-- Every draft is over the current revision, and every prepared change says what it was over. -/
structure Tracker.Kept (t : Tracker) : Prop where
  owner : ∀ context ∈ t.contexts, context.owner = t.owner
  revisions : ∀ context ∈ t.contexts, context.baseRevision ≤ t.revision
  released : ∀ context ∈ t.contexts, context.status = .open ∨ context.Settled
  opened : ∀ c context, t.contexts[c]? = some context → context.status = .open →
    context.baseRevision = t.revision ∧ context.baseValue = some t.value
      ∧ (t.open = some c ∨ c ∈ t.competitors)
  changes : ∀ change ∈ t.changes, ∀ c, change.context = some c → c < t.contexts.length
  prepareds : ∀ prepared ∈ t.prepareds, ∃ context, t.contexts[prepared.context]? = some context
    ∧ (context.baseRevision = t.revision → prepared.base = t.value)

theorem Tracker.init_kept (owner : Nat) (initial : Value Nat) : (Tracker.init owner initial).Kept where
  owner := nofun
  revisions := nofun
  released := nofun
  opened := fun _ _ hget => by rw [Tracker.init, List.getElem?_nil] at hget; cases hget
  changes := nofun
  prepareds := nofun

section Kept

variable {t : Tracker}

variable {c : Nat}

theorem Tracker.Kept.modify (h : t.Kept) {f : Context → Context}
    (howner : ∀ x, (f x).owner = x.owner) (hrevision : ∀ x, (f x).baseRevision = x.baseRevision)
    (hsettled : ∀ x, t.contexts[c]? = some x → (f x).status ≠ .open ∧ (f x).Settled)
    {«open» : Option Nat} {competitors : List Nat}
    (hregistered : ∀ j, j ≠ c → t.open = some j ∨ j ∈ t.competitors →
      «open» = some j ∨ j ∈ competitors) :
    Tracker.Kept { t with «open», competitors, contexts := t.contexts.modify c f } := by
  have hget : ∀ j y, (t.contexts.modify c f)[j]? = some y → ∃ x, t.contexts[j]? = some x
      ∧ (j = c ∧ y = f x ∨ j ≠ c ∧ y = x) := by
    intro j y hy
    rw [List.getElem?_modify] at hy
    obtain ⟨x, hx, rfl⟩ := Option.map_eq_some_iff.mp hy
    refine ⟨x, hx, ?_⟩
    by_cases hj : c = j
    · exact .inl ⟨hj.symm, if_pos hj⟩
    · exact .inr ⟨Ne.symm hj, if_neg hj⟩
  have hmem : ∀ y ∈ t.contexts.modify c f, ∃ j x, t.contexts[j]? = some x
      ∧ (j = c ∧ y = f x ∨ j ≠ c ∧ y = x) := by
    intro y hy
    obtain ⟨j, hj⟩ := List.mem_iff_getElem?.mp hy
    exact ⟨j, hget j y hj⟩
  constructor
  · intro y hy
    obtain ⟨j, x, hx, ⟨-, rfl⟩ | ⟨-, rfl⟩⟩ := hmem y hy
    · exact (howner x).trans (h.owner x (List.mem_of_getElem? hx))
    · exact h.owner _ (List.mem_of_getElem? hx)
  · intro y hy
    obtain ⟨j, x, hx, ⟨-, rfl⟩ | ⟨-, rfl⟩⟩ := hmem y hy
    · exact (hrevision x).trans_le (h.revisions x (List.mem_of_getElem? hx))
    · exact h.revisions _ (List.mem_of_getElem? hx)
  · intro y hy
    obtain ⟨j, x, hx, ⟨rfl, rfl⟩ | ⟨-, rfl⟩⟩ := hmem y hy
    · exact .inr (hsettled x hx).2
    · exact h.released _ (List.mem_of_getElem? hx)
  · intro j y hy hopen
    obtain ⟨x, hx, ⟨rfl, rfl⟩ | ⟨hne, rfl⟩⟩ := hget j y hy
    · exact absurd hopen (hsettled x hx).1
    · obtain ⟨hbase, hvalue, hregister⟩ := h.opened j _ hx hopen
      exact ⟨hbase, hvalue, hregistered j hne hregister⟩
  · intro change hchange j hj
    rw [List.length_modify]
    exact h.changes change hchange j hj
  · intro prepared hprepared
    obtain ⟨x, hx, hbase⟩ := h.prepareds prepared hprepared
    refine ⟨if c = prepared.context then f x else x, ?_, ?_⟩
    · rw [List.getElem?_modify, hx]
      rfl
    · split
      · rw [hrevision]
        exact hbase
      · exact hbase

theorem Tracker.releaseContext_registered (t : Tracker) {j : Nat} (hne : j ≠ c)
    (h : t.open = some j ∨ j ∈ t.competitors) :
    (t.releaseContext c).open = some j ∨ j ∈ (t.releaseContext c).competitors := by
  unfold Tracker.releaseContext
  split
  · next hopen =>
    rw [hopen] at h
    exact .inr (h.resolve_left fun heq => hne (Option.some.inj heq).symm)
  · exact h.imp_right (List.mem_erase_of_ne hne).mpr

theorem Tracker.settle_eq (t : Tracker) (c : Nat) (status : Status) :
    (t.setStatus c status).clearContext c
      = { t with
          «open» := (t.releaseContext c).open
          competitors := (t.releaseContext c).competitors
          contexts := t.contexts.modify c fun context => { context.release with status } } := by
  unfold Tracker.clearContext Tracker.setStatus Tracker.releaseContext
  dsimp only
  rw [List.modify_modify_eq]
  split
  · rfl
  · rfl

theorem Tracker.Kept.settle (h : t.Kept) (c : Nat) (status : Status) (hstatus : status ≠ .open) :
    ((t.setStatus c status).clearContext c).Kept := by
  rw [Tracker.settle_eq]
  apply h.modify
  · exact fun _ => rfl
  · exact fun _ => rfl
  · exact fun _ _ => ⟨hstatus, rfl, rfl⟩
  · exact fun j hne hregister => t.releaseContext_registered hne hregister

theorem Tracker.Kept.setStatus (h : t.Kept) {status : Status} (hstatus : status ≠ .open)
    (hsettled : ∀ x, t.contexts[c]? = some x → x.status ≠ .open) : (t.setStatus c status).Kept := by
  apply h.modify
  · exact fun _ => rfl
  · exact fun _ => rfl
  · intro x hx
    exact ⟨hstatus, (h.released x (List.mem_of_getElem? hx)).resolve_left (hsettled x hx)⟩
  · exact fun _ _ hregister => hregister

theorem Tracker.Kept.setChange (h : t.Kept) (i : Nat) (change : ChangeImpl)
    (hchange : ∀ c, change.context = some c → c < t.contexts.length) :
    Tracker.Kept { t with changes := t.changes.set i change } := by
  refine ⟨h.owner, h.revisions, h.released, h.opened, fun other hother => ?_, h.prepareds⟩
  rcases List.mem_or_eq_of_mem_set hother with hother | rfl
  · exact h.changes other hother
  · exact hchange

theorem Tracker.Kept.addPrepared (h : t.Kept) {prepared : PreparedImpl}
    (hprepared : ∃ context, t.contexts[prepared.context]? = some context
      ∧ (context.baseRevision = t.revision → prepared.base = t.value)) :
    Tracker.Kept { t with prepareds := t.prepareds ++ [prepared] } := by
  refine ⟨h.owner, h.revisions, h.released, h.opened, h.changes, fun other hother => ?_⟩
  rcases List.mem_append.mp hother with hother | hother
  · exact h.prepareds other hother
  · rw [List.mem_singleton.mp hother]
    exact hprepared

theorem getElem?_append_of_some {α : Type} {xs more : List α} {i : Nat} {x : α}
    (h : xs[i]? = some x) : (xs ++ more)[i]? = some x :=
  (List.getElem?_append_left (List.getElem?_eq_some_iff.mp h).1).trans h

theorem Tracker.Kept.addContext (h : t.Kept) (context : Context) (howner : context.owner = t.owner)
    (hrevision : context.baseRevision = t.revision)
    {«open» : Option Nat} {competitors : List Nat}
    (hregistered : ∀ j, t.open = some j ∨ j ∈ t.competitors → «open» = some j ∨ j ∈ competitors)
    (hnew : context.status ≠ .open ∧ context.Settled
      ∨ context.status = .open ∧ context.baseValue = some t.value
        ∧ «open» = some t.contexts.length) :
    Tracker.Kept { t with «open», competitors, contexts := t.contexts ++ [context] } := by
  constructor
  · intro other hother
    rcases List.mem_append.mp hother with hother | hother
    · exact h.owner other hother
    · rw [List.mem_singleton.mp hother]
      exact howner
  · intro other hother
    rcases List.mem_append.mp hother with hother | hother
    · exact h.revisions other hother
    · rw [List.mem_singleton.mp hother]
      exact hrevision.le
  · intro other hother
    rcases List.mem_append.mp hother with hother | hother
    · exact h.released other hother
    · rw [List.mem_singleton.mp hother]
      exact hnew.symm.imp And.left And.right
  · intro j other hother hopen
    by_cases hj : j < t.contexts.length
    · have hget : t.contexts[j]? = some other := (List.getElem?_append_left hj).symm.trans hother
      obtain ⟨hbase, hvalue, hregister⟩ := h.opened j other hget hopen
      exact ⟨hbase, hvalue, hregistered j hregister⟩
    · have hget : [context][j - t.contexts.length]? = some other :=
        (List.getElem?_append_right (by omega)).symm.trans hother
      rw [List.getElem?_singleton] at hget
      split at hget
      · next hzero =>
        cases hget
        obtain ⟨-, hvalue, hregister⟩ := hnew.resolve_left fun hsettled => hsettled.1 hopen
        exact ⟨hrevision, hvalue, .inl (hregister.trans (congrArg some (by omega)))⟩
      · cases hget
  · intro change hchange c hc
    have hlt := h.changes change hchange c hc
    rw [List.length_append]
    exact Nat.lt_add_right _ hlt
  · intro prepared hprepared
    obtain ⟨other, hother, hbase⟩ := h.prepareds prepared hprepared
    refine ⟨other, ?_, hbase⟩
    exact getElem?_append_of_some hother

/-! ## Calls that adopt nothing -/

theorem Tracker.Kept.beginChange (h : t.Kept) : t.beginChange.Kept := by
  have hregistered : ∀ j, t.open = some j ∨ j ∈ t.competitors →
      some t.contexts.length = some j ∨ j ∈ t.competitors ++ t.open.toList := by
    intro j hj
    right
    rw [List.mem_append]
    exact hj.symm.imp_right fun hopen => by simp [hopen]
  have hcontext := h.addContext ⟨t.owner, t.revision, .open, some t.value, some t.value, false⟩
    rfl rfl hregistered (.inr ⟨rfl, rfl, rfl⟩)
  refine ⟨hcontext.owner, hcontext.revisions, hcontext.released, hcontext.opened,
    fun change hchange c hc => ?_, hcontext.prepareds⟩
  rcases List.mem_append.mp hchange with hchange | hchange
  · exact hcontext.changes change hchange c hc
  · rw [List.mem_singleton.mp hchange] at hc
    cases hc
    show _ < (t.contexts ++ [_]).length
    rw [List.length_append]
    exact Nat.lt_succ_self _

theorem Tracker.Kept.settleChange (h : t.Kept) {i : Nat} {base : Value Nat}
    (hcontext : t.contexts[c]? = some context)
    (hbase : context.baseRevision = t.revision → base = t.value)
    (made : Except TrackerError (List (Op (Value Nat)) × Value Nat)) :
    (t.settleChange i c base made).1.Kept := by
  have hnone : ∀ {change : ChangeImpl} {s : Tracker}, change.context = none → ∀ c',
      change.context = some c' → c' < s.contexts.length := by
    intro change s hchange c' hc'
    rw [hchange] at hc'
    cases hc'
  unfold Tracker.settleChange
  split
  · next ops value =>
    have hsettled := h.settle c .prepared (by decide)
    have hchanged := hsettled.setChange i ⟨none, some c, true⟩ (hnone rfl)
    rw [Tracker.settle_eq] at hchanged ⊢
    apply hchanged.addPrepared
    refine ⟨{ context.release with status := .prepared }, ?_, hbase⟩
    dsimp only
    rw [List.getElem?_modify_eq, hcontext]
    rfl
  · have hsettled := h.settle c .aborted (by decide)
    have hchanged := hsettled.setChange i ⟨none, none, true⟩ (hnone rfl)
    rw [Tracker.settle_eq] at hchanged ⊢
    exact hchanged

/-- What `prepare` does: it refuses, or it settles a context over the current revision. -/
theorem Tracker.prepare_cases (h : t.Kept) (i : Nat) (overlay : Overlay) :
    (∃ e, t.prepare i overlay = (t, .error e))
      ∨ ∃ change c context, t.changes[i]? = some change ∧ change.context = some c
        ∧ t.contexts[c]? = some context
        ∧ t.prepare i overlay = t.settleChange i c t.value (overlay.made t.value) := by
  unfold Tracker.prepare
  split
  · exact .inl ⟨_, rfl⟩
  next change hchange =>
  split
  · exact .inl ⟨_, rfl⟩
  split
  · exact .inl ⟨_, rfl⟩
  · next c context hfound =>
    split
    · exact .inl ⟨_, rfl⟩
    · exact .inl ⟨_, rfl⟩
    · next base hwritable hbase =>
      obtain ⟨c', hc, hcontext⟩ := Option.bind_eq_some_iff.mp hfound
      obtain ⟨context', hcontext, heq⟩ := Option.map_eq_some_iff.mp hcontext
      cases heq
      have hopen : context.status = .open := by
        by_contra hne
        have hsettled := (h.released context (List.mem_of_getElem? hcontext)).resolve_left hne
        rw [hsettled.assertWritable] at hwritable
        cases hwritable
      obtain ⟨-, hvalue, -⟩ := h.opened c context hcontext hopen
      rw [hvalue] at hbase
      cases hbase
      exact .inr ⟨change, c, context, hchange, hc, hcontext, rfl⟩

theorem Tracker.Kept.prepare (h : t.Kept) (i : Nat) (overlay : Overlay) :
    (t.prepare i overlay).1.Kept := by
  obtain ⟨e, heq⟩ | ⟨-, c, context, -, -, hcontext, heq⟩ := t.prepare_cases h i overlay
  · rw [heq]
    exact h
  · rw [heq]
    exact h.settleChange hcontext (fun _ => rfl) _

theorem Tracker.Kept.abortContext (h : t.Kept) (c : Nat) : (t.abortContext c).Kept := by
  unfold Tracker.abortContext
  split
  · exact h
  split
  · exact h
  · exact h.settle c .aborted (by decide)

theorem Tracker.Kept.abortStatus (h : t.Kept) (c : Nat) : (t.abortStatus c).Kept := by
  unfold Tracker.abortStatus
  split
  · next hprepared =>
    apply h.setStatus (by decide)
    intro x hx
    rw [hx, Option.map_some, Option.some.injEq] at hprepared
    rw [hprepared]
    decide
  · exact h

theorem Tracker.abort_keeps (t : Tracker) (c : Nat) :
    (t.abortContext c).changes = t.changes ∧ (t.abortStatus c).changes = t.changes
      ∧ (t.abortContext c).contexts.length = t.contexts.length
      ∧ (t.abortStatus c).contexts.length = t.contexts.length := by
  unfold Tracker.abortContext Tracker.abortStatus
  refine ⟨?_, ?_, ?_, ?_⟩
  · split
    · rfl
    split
    · rfl
    · rw [Tracker.settle_eq]
  · split <;> rfl
  · split
    · rfl
    split
    · rfl
    · rw [Tracker.settle_eq, List.length_modify]
  · split
    · exact List.length_modify _ _ _
    · rfl

theorem Tracker.Kept.abortChange (h : t.Kept) (i : Nat) : (t.abortChange i).Kept := by
  unfold Tracker.abortChange
  split
  · exact h
  · next change hchange =>
    have hmem := h.changes change (List.mem_of_getElem? hchange)
    split
    · cases change.preparedStatus with
      | none => exact h.setChange i _ hmem
      | some c =>
        obtain ⟨-, hchanges, -, hlength⟩ := t.abort_keeps c
        have hset := (h.abortStatus c).setChange i { change with preparedStatus := none }
          (fun c' hc' => hlength ▸ hmem c' hc')
        rw [hchanges] at hset
        exact hset
    · cases change.context with
      | none => exact h.setChange i _ nofun
      | some c =>
        obtain ⟨hchanges, -, -, -⟩ := t.abort_keeps c
        have hset := (h.abortContext c).setChange i { change with settled := true, context := none }
          nofun
        rw [hchanges] at hset
        exact hset

theorem Tracker.Kept.abortPrepared (h : t.Kept) (i : Nat) : (t.abortPrepared i).Kept := by
  unfold Tracker.abortPrepared
  split
  · exact h
  · exact h.abortContext _

theorem Tracker.Kept.prepareReplace (h : t.Kept) (value : Value Nat) :
    (t.prepareReplace value).1.Kept := by
  have hsettled : ∀ status, status ≠ Status.open →
      Tracker.Kept { t with contexts := t.contexts ++ [⟨t.owner, t.revision, status, none, none, true⟩] } := by
    intro status hstatus
    exact h.addContext ⟨t.owner, t.revision, status, none, none, true⟩ rfl rfl (fun _ hj => hj)
      (.inl ⟨hstatus, rfl, rfl⟩)
  unfold Tracker.prepareReplace
  dsimp only
  split
  · next made hmade =>
    apply (hsettled .prepared (by decide)).addPrepared
    exact ⟨_, List.getElem?_concat_length, fun _ => rfl⟩
  · exact hsettled .aborted (by decide)

end Kept

/-! ## Adoption -/

section Adopt

variable {t : Tracker}

theorem Tracker.find_some {ref : Option PreparedRef} {prepared : PreparedImpl}
    (h : t.find ref = some (prepared, context)) :
    ∃ index, ref = some ⟨t.owner, index⟩ ∧ t.prepareds[index]? = some prepared
      ∧ t.contexts[prepared.context]? = some context := by
  obtain ⟨⟨owner, index⟩, rfl, hfound⟩ := Option.bind_eq_some_iff.mp h
  split at hfound
  · cases hfound
  · next howner =>
    rw [not_not] at howner
    obtain ⟨other, hprepared, hfound⟩ := Option.bind_eq_some_iff.mp hfound
    obtain ⟨found, hcontext, hfound⟩ := Option.bind_eq_some_iff.mp hfound
    cases hfound
    exact ⟨index, congrArg (fun owner => some (PreparedRef.mk owner index)) howner, hprepared, hcontext⟩

theorem Tracker.find_of {index : Nat} {prepared : PreparedImpl}
    (hprepared : t.prepareds[index]? = some prepared)
    (hcontext : t.contexts[prepared.context]? = some context) :
    t.find (some ⟨t.owner, index⟩) = some (prepared, context) := by
  simp [Tracker.find, hprepared, hcontext]

def Tracker.adopted (t : Tracker) (prepared : PreparedImpl) : Tracker :=
  { (t.setStatus prepared.context .consumed) with
    value := prepared.value
    revision := t.revision + 1 }.invalidate prepared.context

/-- What `adopt` does: it adopts a prepared change over the current revision, or it refuses and at
most the status of a prepared change becomes stale. -/
theorem Tracker.adopt_cases (h : t.Kept) (ref : Option PreparedRef) :
    (∃ index prepared context, ref = some ⟨t.owner, index⟩ ∧ t.prepareds[index]? = some prepared
        ∧ t.contexts[prepared.context]? = some context ∧ context.status = .prepared
        ∧ context.baseRevision = t.revision ∧ prepared.base = t.value
        ∧ t.adopt ref = (t.adopted prepared, .ok prepared))
      ∨ (¬ ∃ index prepared context, ref = some ⟨t.owner, index⟩
          ∧ t.prepareds[index]? = some prepared ∧ t.contexts[prepared.context]? = some context
          ∧ context.status = .prepared ∧ context.baseRevision = t.revision)
        ∧ ∃ e, t.adopt ref = (t, .error e)
          ∨ ∃ c context, t.contexts[c]? = some context ∧ context.baseRevision ≠ t.revision
            ∧ t.adopt ref = ((t.setStatus c .stale).clearContext c, .error e) := by
  cases hfind : t.find ref with
  | none =>
    right
    refine ⟨?_, .error "Prepared change belongs to a different tracker", .inl ?_⟩
    · rintro ⟨index, prepared, context, rfl, hprepared, hcontext, -⟩
      rw [Tracker.find_of hprepared hcontext] at hfind
      cases hfind
    · rw [Tracker.adopt, hfind]
  | some found =>
    obtain ⟨prepared, context⟩ := found
    obtain ⟨index, rfl, hprepared, hcontext⟩ := Tracker.find_some hfind
    have howner := h.owner context (List.mem_of_getElem? hcontext)
    -- the reference is to this prepared change and no other
    have honly : ∀ {P : Context → Prop}, ¬ P context →
        ¬ ∃ index' prepared' context', some (⟨t.owner, index⟩ : PreparedRef) = some ⟨t.owner, index'⟩
          ∧ t.prepareds[index']? = some prepared'
          ∧ t.contexts[prepared'.context]? = some context' ∧ P context' := by
      rintro P hP ⟨index', prepared', context', heq, hprepared', hcontext', hP'⟩
      cases heq
      rw [hprepared] at hprepared'
      cases hprepared'
      rw [hcontext] at hcontext'
      cases hcontext'
      exact hP hP'
    unfold Tracker.adopt
    rw [hfind]
    dsimp only
    rw [if_neg (not_not.mpr howner)]
    have hrefused : ∀ {status : Status}, context.status = status → status ≠ .prepared →
        ¬ (context.status = .prepared ∧ context.baseRevision = t.revision) :=
      fun heq hne hboth => hne (heq.symm.trans hboth.1)
    split
    · next hconsumed => exact .inr ⟨honly (hrefused hconsumed (by decide)), _, .inl rfl⟩
    split
    · next haborted => exact .inr ⟨honly (hrefused haborted (by decide)), _, .inl rfl⟩
    split
    · next hstale => exact .inr ⟨honly (hrefused hstale (by decide)), _, .inl rfl⟩
    split
    · next hnotReady => exact .inr ⟨honly fun hboth => hnotReady hboth.1, _, .inl rfl⟩
    next hready =>
    rw [not_not] at hready
    split
    · next hrevision =>
      exact .inr ⟨honly fun hboth => hrevision hboth.2, _, .inr ⟨prepared.context, context, hcontext,
        hrevision, rfl⟩⟩
    next hrevision =>
    rw [not_not] at hrevision
    have hbase : prepared.base = t.value := by
      obtain ⟨found, hfound, hbase⟩ := h.prepareds prepared (List.mem_of_getElem? hprepared)
      rw [hcontext] at hfound
      cases hfound
      exact hbase hrevision
    have hsame : ¬ t.value.same prepared.base = false := by
      rw [hbase, same_self]
      decide
    rw [if_neg hsame]
    exact .inl ⟨index, prepared, context, rfl, hprepared, hcontext, hready, hrevision, hbase, rfl⟩

theorem Context.lose_lose (context : Context) : context.lose.lose = context.lose := by
  unfold Context.lose Context.release
  dsimp only
  congr 1
  cases context.status <;> rfl

theorem foldl_staleCompetitor (winner : Nat) (cs : List Nat) (contexts : List Context) (j : Nat) :
    (cs.foldl (Tracker.staleCompetitor winner) contexts)[j]?
      = (contexts[j]?).map fun context => if j ∈ cs ∧ j ≠ winner then context.lose else context := by
  induction cs generalizing contexts with
  | nil =>
    simp only [List.foldl_nil, List.not_mem_nil, false_and, if_false, Option.map_id']
  | cons c cs ih =>
    rw [List.foldl_cons, ih, Tracker.staleCompetitor]
    by_cases hwinner : c = winner
    · subst hwinner
      rw [if_pos rfl]
      congr 1
      funext context
      by_cases hj : j = c
      · simp [hj]
      · simp [hj]
    · rw [if_neg hwinner, List.getElem?_modify, Option.map_eq_map, Option.map_map]
      congr 1
      funext context
      by_cases hj : c = j
      · subst hj
        by_cases hmem : c ∈ cs
        · simp [hmem, hwinner, Context.lose_lose]
        · simp [hmem, hwinner]
      · have hj' : j ≠ c := Ne.symm hj
        simp [hj, hj']

theorem Tracker.adopted_settled (h : t.Kept) {prepared : PreparedImpl} {winner : Context}
    (hwinner : t.contexts[prepared.context]? = some winner) (hprepared : winner.status = .prepared)
    {j : Nat} (hcontext : (t.adopted prepared).contexts[j]? = some context) :
    context.status ≠ .open ∧ context.Settled ∧ ∃ old, t.contexts[j]? = some old
      ∧ context.owner = old.owner ∧ context.baseRevision = old.baseRevision
      ∧ (context.status = .prepared → old.status = .prepared ∧ j ≠ prepared.context) := by
  have hfold := foldl_staleCompetitor prepared.context (t.open.toList ++ t.competitors)
    (t.setStatus prepared.context .consumed).contexts j
  have hcontext := hfold.symm.trans hcontext
  rw [show (t.setStatus prepared.context .consumed).contexts = t.contexts.modify _ _ from rfl,
    List.getElem?_modify, Option.map_eq_map, Option.map_map] at hcontext
  obtain ⟨old, hold, rfl⟩ := Option.map_eq_some_iff.mp hcontext
  have hmem := List.mem_of_getElem? hold
  dsimp only [Function.comp]
  by_cases hj : prepared.context = j
  · -- the change that is adopted was settled when it was prepared
    subst hj
    rw [hwinner] at hold
    cases hold
    have hsettled := (h.released winner hmem).resolve_left (by rw [hprepared]; decide)
    simp only [if_true, ne_eq, not_true, and_false, if_false]
    exact ⟨by decide, hsettled, winner, hwinner, rfl, rfl, nofun⟩
  · rw [if_neg hj]
    by_cases hregistered : j ∈ t.open.toList ++ t.competitors
    · rw [if_pos ⟨hregistered, Ne.symm hj⟩]
      refine ⟨?_, ⟨rfl, rfl⟩, old, hold, rfl, rfl, ?_⟩
      all_goals
        dsimp only [Context.lose]
        split
      · decide
      · next hstatus => exact fun hopen => hstatus (.inl hopen)
      · exact nofun
      · next hstatus => exact fun hready => absurd (.inr hready) hstatus
    · rw [if_neg fun hboth => hregistered hboth.1]
      have hnot : old.status ≠ .open := by
        intro hopen
        apply hregistered
        rw [List.mem_append, Option.mem_toList]
        exact (h.opened j old hold hopen).2.2
      exact ⟨hnot, (h.released old hmem).resolve_left hnot, old, hold, rfl, rfl,
        fun hready => ⟨hready, Ne.symm hj⟩⟩

theorem Tracker.adopted_length (t : Tracker) (prepared : PreparedImpl) :
    (t.adopted prepared).contexts.length = t.contexts.length := by
  have hfold : ∀ (cs : List Nat) (contexts : List Context),
      (cs.foldl (Tracker.staleCompetitor prepared.context) contexts).length = contexts.length := by
    intro cs
    induction cs with
    | nil => exact fun _ => rfl
    | cons c cs ih =>
      intro contexts
      rw [List.foldl_cons, ih, Tracker.staleCompetitor]
      split
      · rfl
      · exact List.length_modify _ _ _
  exact (hfold _ _).trans (List.length_modify _ _ _)

theorem Tracker.Kept.adopted (h : t.Kept) {prepared : PreparedImpl} {winner : Context}
    (hwinner : t.contexts[prepared.context]? = some winner) (hprepared : winner.status = .prepared) :
    (t.adopted prepared).Kept := by
  have hmem : ∀ context ∈ (t.adopted prepared).contexts, context.status ≠ .open ∧ context.Settled
      ∧ context.owner = t.owner ∧ context.baseRevision ≤ t.revision := by
    intro context hcontext
    obtain ⟨j, hj⟩ := List.mem_iff_getElem?.mp hcontext
    obtain ⟨hopen, hsettled, old, hold, howner, hrevision, -⟩ :=
      t.adopted_settled h hwinner hprepared hj
    have hmem := List.mem_of_getElem? hold
    exact ⟨hopen, hsettled, howner.trans (h.owner old hmem), hrevision.trans_le (h.revisions old hmem)⟩
  constructor
  · exact fun context hcontext => (hmem context hcontext).2.2.1
  · exact fun context hcontext => Nat.le_succ_of_le (hmem context hcontext).2.2.2
  · exact fun context hcontext => .inr (hmem context hcontext).2.1
  · exact fun c context hcontext hopen =>
      absurd hopen (hmem context (List.mem_of_getElem? hcontext)).1
  · intro change hchange c hc
    rw [t.adopted_length]
    exact h.changes change hchange c hc
  · intro other hother
    obtain ⟨old, hold, -⟩ := h.prepareds other hother
    have hlt := (List.getElem?_eq_some_iff.mp hold).1
    rw [← t.adopted_length prepared] at hlt
    refine ⟨_, List.getElem?_eq_getElem hlt, fun hrevision => ?_⟩
    have hle := (hmem _ (List.getElem_mem hlt)).2.2.2
    rw [hrevision] at hle
    exact absurd hle (Nat.not_succ_le_self _)

theorem Tracker.Kept.adopt (h : t.Kept) (ref : Option PreparedRef) : (t.adopt ref).1.Kept := by
  obtain ⟨index, prepared, context, -, -, hcontext, hready, -, -, heq⟩ | ⟨-, e, heq | ⟨c, context, -, -, heq⟩⟩
    := t.adopt_cases h ref
  · rw [heq]
    exact h.adopted hcontext hready
  · rw [heq]
    exact h
  · rw [heq]
    exact h.settle c .stale (by decide)

end Adopt

/-! ## Calls that leave the value -/

def SameValue (t t' : Tracker) : Prop := t'.value = t.value ∧ t'.revision = t.revision

theorem settle_value (t : Tracker) (c : Nat) (status : Status) :
    SameValue t ((t.setStatus c status).clearContext c) := by
  rw [Tracker.settle_eq]
  exact ⟨rfl, rfl⟩

theorem prepare_value {t : Tracker} (h : t.Kept) (i : Nat) (overlay : Overlay) :
    SameValue t (t.prepare i overlay).1 := by
  obtain ⟨e, heq⟩ | ⟨-, c, context, -, -, -, heq⟩ := t.prepare_cases h i overlay
  · rw [heq]
    exact ⟨rfl, rfl⟩
  · rw [heq]
    unfold Tracker.settleChange
    split
    · exact settle_value t c .prepared
    · exact settle_value t c .aborted

theorem prepareReplace_value (t : Tracker) (value : Value Nat) :
    SameValue t (t.prepareReplace value).1 := by
  unfold Tracker.prepareReplace
  dsimp only
  split
  · exact ⟨rfl, rfl⟩
  · exact ⟨rfl, rfl⟩

theorem abortContext_value (t : Tracker) (c : Nat) :
    SameValue t (t.abortContext c) ∧ (t.abortContext c).prepareds = t.prepareds := by
  unfold Tracker.abortContext
  split
  · exact ⟨⟨rfl, rfl⟩, rfl⟩
  split
  · exact ⟨⟨rfl, rfl⟩, rfl⟩
  · rw [Tracker.settle_eq]
    exact ⟨⟨rfl, rfl⟩, rfl⟩

theorem abortChange_value (t : Tracker) (i : Nat) :
    SameValue t (t.abortChange i) ∧ (t.abortChange i).prepareds = t.prepareds := by
  unfold Tracker.abortChange
  split
  · exact ⟨⟨rfl, rfl⟩, rfl⟩
  · next change _ =>
    split
    · cases change.preparedStatus with
      | none => exact ⟨⟨rfl, rfl⟩, rfl⟩
      | some c =>
        show SameValue t (t.abortStatus c) ∧ (t.abortStatus c).prepareds = _
        unfold Tracker.abortStatus
        split
        · exact ⟨⟨rfl, rfl⟩, rfl⟩
        · exact ⟨⟨rfl, rfl⟩, rfl⟩
    · cases change.context with
      | none => exact ⟨⟨rfl, rfl⟩, rfl⟩
      | some c => exact abortContext_value t c

theorem abortPrepared_value (t : Tracker) (i : Nat) :
    SameValue t (t.abortPrepared i) ∧ (t.abortPrepared i).prepareds = t.prepareds := by
  unfold Tracker.abortPrepared
  split
  · exact ⟨⟨rfl, rfl⟩, rfl⟩
  · exact abortContext_value t _

theorem adopt_error_value {t : Tracker} (h : t.Kept) {ref : Option PreparedRef} {e : TrackerError}
    (herror : (t.adopt ref).2 = .error e) : SameValue t (t.adopt ref).1 := by
  obtain ⟨index, prepared, context, -, -, -, -, -, -, heq⟩ | ⟨-, e, heq | ⟨c, context, -, -, heq⟩⟩
    := t.adopt_cases h ref
  · rw [heq] at herror
    cases herror
  · rw [heq]
    exact ⟨rfl, rfl⟩
  · rw [heq]
    exact settle_value t c .stale

end ThreeXhaust.Delta
