import ThreeXhaust.Delta.Tracker
import ThreeXhaust.Lib.Run

/-!
# Runs of a tracker

Any interleaving of the calls of a tracker. A history holds, beside the tracker, what was called and
what the calls returned, so that what `adopt` accepts can be said without a status of the model.

* **`History.Logged`** — the statuses of contexts say what the calls say.
* **`adopt_settles`** — what was open before an adoption throws on use for ever.
* **`tracker_is_optimistic`** — all that a tracker promises, over every run.
-/

namespace ThreeXhaust.Delta

/-! ## Histories -/

inductive Call where
  | beginChange
  | prepare (change : Nat) (overlay : Overlay)
  | abortChange (change : Nat)
  | prepareReplace (value : Value Nat)
  | abortPrepared (prepared : Nat)
  | adopt (prepared : Option PreparedRef)

/-- What a call leaves of the tracker. -/
def Call.run (t : Tracker) : Call → Tracker
  | .beginChange => t.beginChange
  | .prepare change overlay => (t.prepare change overlay).1
  | .abortChange change => t.abortChange change
  | .prepareReplace value => (t.prepareReplace value).1
  | .abortPrepared prepared => t.abortPrepared prepared
  | .adopt prepared => (t.adopt prepared).1

/-- What the calls tell of a prepared change: how many adoptions there were when its base was taken,
and whether its draft was one that changes more than objects. -/
structure Entry where
  since : Nat
  general : Bool

structure History where
  tracker : Tracker
  adopted : List (Nat × PreparedImpl)
  /-- Of each change, the adoptions before it began, and the prepared change that it came to. -/
  begun : List (Nat × Option Nat)
  prepared : List Entry
  aborted : List Nat

def History.step (h : History) : Call → History
  | .beginChange =>
    { h with tracker := h.tracker.beginChange, begun := h.begun ++ [(h.adopted.length, none)] }
  | .prepare change overlay =>
    match h.tracker.prepare change overlay with
    | (tracker, .ok index) =>
      { h with
        tracker
        begun := h.begun.modify change fun begun => (begun.1, some index)
        prepared := h.prepared ++
          [⟨(h.begun[change]?).elim 0 Prod.fst, (overlay.simple h.tracker.value).isNone⟩] }
    | (tracker, .error _) => { h with tracker }
  | .abortChange change =>
    { h with
      tracker := h.tracker.abortChange change
      aborted := h.aborted ++ ((h.begun[change]?).bind Prod.snd).toList }
  | .prepareReplace value =>
    match h.tracker.prepareReplace value with
    | (tracker, .ok _) => { h with tracker, prepared := h.prepared ++ [⟨h.adopted.length, false⟩] }
    | (tracker, .error _) => { h with tracker }
  | .abortPrepared index =>
    { h with
      tracker := h.tracker.abortPrepared index
      aborted := h.aborted ++ if index < h.prepared.length then [index] else [] }
  | .adopt ref =>
    match h.tracker.adopt ref with
    | (tracker, .ok prepared) =>
      { h with tracker, adopted := h.adopted ++ [(ref.elim 0 PreparedRef.index, prepared)] }
    | (tracker, .error _) => { h with tracker }

def History.init (owner : Nat) (initial : Value Nat) : History :=
  ⟨Tracker.init owner initial, [], [], [], []⟩

theorem History.step_tracker (h : History) (call : Call) :
    (h.step call).tracker = call.run h.tracker := by
  cases call with
  | beginChange => rfl
  | abortChange change => rfl
  | abortPrepared index => rfl
  | _ =>
    unfold History.step Call.run
    dsimp only
    split
    · next heq => rw [heq]
    · next heq => rw [heq]

variable {t : Tracker}

theorem Tracker.Kept.run (h : t.Kept) (call : Call) : (call.run t).Kept := by
  cases call with
  | beginChange => exact h.beginChange
  | prepare change overlay => exact h.prepare change overlay
  | abortChange change => exact h.abortChange change
  | prepareReplace value => exact h.prepareReplace value
  | abortPrepared index => exact h.abortPrepared index
  | adopt ref => exact h.adopt ref

theorem History.step_kept {h : History} (hkept : h.tracker.Kept) (call : Call) :
    (h.step call).tracker.Kept := by
  rw [History.step_tracker]
  exact hkept.run call

/-- Contexts stay, over the bases that they were made over. -/
def Based (t t' : Tracker) : Prop :=
  ∀ (c : Nat) (x : Context), t.contexts[c]? = some x →
    ∃ y : Context, t'.contexts[c]? = some y ∧ y.baseRevision = x.baseRevision

theorem based_of_append {t' : Tracker} {new : List Context} (h : t'.contexts = t.contexts ++ new)
    : Based t t' := by
  intro c x hx
  exact ⟨x, by rw [h, getElem?_append_of_some hx], rfl⟩

/-- At most one context moves, to a status that is not prepared. -/
def Moves (t t' : Tracker) (c : Nat) : Prop :=
  ∃ f : Context → Context, t'.contexts = t.contexts.modify c f
    ∧ (∀ x, (f x).baseRevision = x.baseRevision)
    ∧ ∀ x, t.contexts[c]? = some x → (f x).status ≠ .prepared

theorem based_of_modify {t' : Tracker} {c : Nat} {f : Context → Context}
    (h : t'.contexts = t.contexts.modify c f) (hbase : ∀ x, (f x).baseRevision = x.baseRevision) :
    Based t t' := by
  intro j x hx
  refine ⟨if c = j then f x else x, ?_, ?_⟩
  · rw [h, List.getElem?_modify, hx]
    rfl
  · split
    · exact hbase x
    · rfl

theorem settle_moves (t : Tracker) (c : Nat) {status : Status} (h : status ≠ .prepared) :
    Moves t ((t.setStatus c status).clearContext c) c := by
  rw [Tracker.settle_eq]
  exact ⟨_, rfl, fun _ => rfl, fun _ _ => h⟩

theorem still_moves (t : Tracker) {c : Nat} (h : ∀ x, t.contexts[c]? = some x → x.status ≠ .prepared) :
    Moves t t c := ⟨id, (List.modify_id _ _).symm, fun _ => rfl, h⟩

theorem abortContext_moves (t : Tracker) (c : Nat) : Moves t (t.abortContext c) c := by
  unfold Tracker.abortContext
  split
  · next hnone =>
    apply still_moves
    intro x hx
    rw [hnone] at hx
    cases hx
  next context hcontext =>
  split
  · next hdone =>
    apply still_moves
    intro x hx hready
    rw [hcontext] at hx
    cases hx
    rw [hready] at hdone
    simp at hdone
  · exact settle_moves t c (by decide)

theorem abortStatus_moves (t : Tracker) (c : Nat) : Moves t (t.abortStatus c) c := by
  unfold Tracker.abortStatus
  split
  · exact ⟨_, rfl, fun _ => rfl, fun _ _ => nofun⟩
  · next hnot =>
    apply still_moves
    intro x hx hready
    rw [hx, Option.map_some, hready] at hnot
    exact hnot rfl

theorem Moves.based {t' : Tracker} {c : Nat} (h : Moves t t' c) : Based t t' := by
  obtain ⟨f, hcontexts, hbase, -⟩ := h
  exact based_of_modify hcontexts hbase

theorem run_based (h : t.Kept) (call : Call) : Based t (call.run t) := by
  have hsame : ∀ t' : Tracker, t'.contexts = t.contexts → Based t t' := by
    intro t' heq c x hx
    exact ⟨x, heq ▸ hx, rfl⟩
  cases call with
  | beginChange => exact based_of_append rfl
  | prepare i overlay =>
    show Based t (t.prepare i overlay).1
    obtain ⟨e, heq⟩ | ⟨-, c, -, -, -, -, heq⟩ := t.prepare_cases h i overlay
    · rw [heq]
      exact hsame t rfl
    · rw [heq]
      unfold Tracker.settleChange
      split
      · rw [Tracker.settle_eq]
        exact based_of_modify rfl fun _ => rfl
      · rw [Tracker.settle_eq]
        exact based_of_modify rfl fun _ => rfl
  | abortChange i =>
    show Based t (t.abortChange i)
    unfold Tracker.abortChange
    split
    · exact hsame t rfl
    next change _ =>
    split
    · cases change.preparedStatus with
      | none => exact hsame _ rfl
      | some c => exact (abortStatus_moves t c).based
    · cases change.context with
      | none => exact hsame _ rfl
      | some c => exact (abortContext_moves t c).based
  | prepareReplace value =>
    show Based t (t.prepareReplace value).1
    unfold Tracker.prepareReplace
    dsimp only
    split
    · exact based_of_append rfl
    · exact based_of_append rfl
  | abortPrepared index =>
    show Based t (t.abortPrepared index)
    unfold Tracker.abortPrepared
    split
    · exact hsame t rfl
    · exact (abortContext_moves t _).based
  | adopt ref =>
    show Based t (t.adopt ref).1
    obtain ⟨index, prepared, context, -, -, hcontext, hready, -, -, heq⟩
      | ⟨-, e, heq | ⟨c, -, -, -, heq⟩⟩ := t.adopt_cases h ref
    · rw [heq]
      intro c x hx
      have hlt := (List.getElem?_eq_some_iff.mp hx).1
      rw [← t.adopted_length prepared] at hlt
      have hy := List.getElem?_eq_getElem hlt
      obtain ⟨-, -, old, hold, -, hbase, -⟩ := t.adopted_settled h hcontext hready hy
      rw [hx] at hold
      cases hold
      exact ⟨_, hy, hbase⟩
    · rw [heq]
      exact hsame t rfl
    · rw [heq]
      exact (settle_moves t c (by decide)).based

theorem History.step_based {h : History} (hkept : h.tracker.Kept) (call : Call) :
    Based h.tracker (h.step call).tracker := by
  rw [History.step_tracker]
  exact run_based hkept call

/-! ## What the calls tell -/

/-- The prepared change was aborted, itself or its change, or it was adopted. -/
def History.Used (h : History) (index : Nat) : Prop :=
  index ∈ h.aborted ∨ index ∈ h.adopted.map Prod.fst

/-- A prepared change of this tracker that was neither aborted nor adopted, and nothing was adopted
since its base was taken. -/
def History.Adoptable (h : History) (ref : Option PreparedRef) : Prop :=
  ∃ index entry, ref = some ⟨h.tracker.owner, index⟩ ∧ h.prepared[index]? = some entry
    ∧ ¬ h.Used index ∧ entry.since = h.adopted.length

structure History.Tells (h : History) (index : Nat) (context : Context) (entry : Entry) : Prop where
  since : context.baseRevision = entry.since
  ready : context.status = .prepared → ¬ h.Used index
  unused : ¬ h.Used index → entry.since = h.tracker.revision → context.status = .prepared

/-- What a change holds: the context of its draft, then that of what it was prepared to, until it is
aborted. -/
structure History.Drafts (h : History) (begun : Nat × Option Nat) (change : ChangeImpl) : Prop where
  drafting : ∀ c, change.context = some c → begun.2 = none
    ∧ (∃ context, h.tracker.contexts[c]? = some context ∧ context.baseRevision = begun.1)
    ∧ ∀ prepared ∈ h.tracker.prepareds, prepared.context ≠ c
  made : ∀ index, begun.2 = some index → change.settled = true
    ∧ ∃ prepared, h.tracker.prepareds[index]? = some prepared
      ∧ (change.preparedStatus = some prepared.context
        ∨ change.preparedStatus = none ∧ h.Used index)
  unmade : begun.2 = none → change.preparedStatus = none

/-- **The statuses say what the calls say**, of every prepared change and of every change. -/
structure History.Logged (h : History) : Prop where
  kept : h.tracker.Kept
  counts : h.tracker.revision = h.adopted.length
  entries : h.prepared.length = h.tracker.prepareds.length
  used : ∀ index, h.Used index → index < h.tracker.prepareds.length
  prepareds : ∀ (index : Nat) prepared, h.tracker.prepareds[index]? = some prepared → ∃ context entry,
    h.tracker.contexts[prepared.context]? = some context ∧ h.prepared[index]? = some entry
      ∧ h.Tells index context entry
  distinct : ∀ (i j : Nat) (prepared other : PreparedImpl), h.tracker.prepareds[i]? = some prepared →
    h.tracker.prepareds[j]? = some other → prepared.context = other.context → i = j
  begun : h.begun.length = h.tracker.changes.length
  sinces : ∀ begun ∈ h.begun, begun.1 ≤ h.adopted.length
  changes : ∀ (i : Nat) change, h.tracker.changes[i]? = some change → ∃ begun, h.begun[i]? = some begun
    ∧ h.Drafts begun change
  own : ∀ (i j : Nat) (change other : ChangeImpl) (c : Nat), h.tracker.changes[i]? = some change →
    h.tracker.changes[j]? = some other → change.context = some c → other.context = some c → i = j

theorem History.init_logged (owner : Nat) (initial : Value Nat) :
    (History.init owner initial).Logged where
  kept := Tracker.init_kept owner initial
  counts := rfl
  entries := rfl
  used := by
    rintro index (h | h)
    · cases h
    · cases h
  prepareds := fun _ _ h => by cases h
  distinct := fun _ _ _ _ h => by cases h
  begun := rfl
  sinces := nofun
  changes := fun _ _ h => by cases h
  own := fun _ _ _ _ _ h => by cases h

variable {i : Nat}

theorem getElem?_concat_some {α : Type} {items : List α} {last item : α}
    (h : (items ++ [last])[i]? = some item) :
    items[i]? = some item ∨ i = items.length ∧ item = last := by
  rw [List.getElem?_append] at h
  split at h
  · exact .inl h
  · rw [List.getElem?_singleton] at h
    split at h
    · exact .inr ⟨by omega, (Option.some.inj h).symm⟩
    · cases h

section Logged

variable {h h' : History}

theorem History.Drafts.later {begun : Nat × Option Nat} {change : ChangeImpl}
    (hdrafts : h.Drafts begun change)
    (hbased : Based h.tracker h'.tracker)
    (hprepareds : ∀ (index : Nat) (prepared : PreparedImpl),
      h.tracker.prepareds[index]? = some prepared → h'.tracker.prepareds[index]? = some prepared)
    (hfresh : ∀ c, change.context = some c → ∀ prepared ∈ h'.tracker.prepareds,
      prepared ∈ h.tracker.prepareds ∨ prepared.context ≠ c)
    (hused : ∀ index, h.Used index → h'.Used index) : h'.Drafts begun change := by
  refine ⟨fun c hc => ?_, fun index hindex => ?_, hdrafts.unmade⟩
  · obtain ⟨hnone, ⟨x, hx, hbase⟩, hold⟩ := hdrafts.drafting c hc
    obtain ⟨y, hy, hsame⟩ := hbased c x hx
    exact ⟨hnone, ⟨y, hy, hsame.trans hbase⟩, fun prepared hmem =>
      (hfresh c hc prepared hmem).elim (hold prepared) id⟩
  · obtain ⟨hsettled, prepared, hget, hboth⟩ := hdrafts.made index hindex
    exact ⟨hsettled, prepared, hprepareds index prepared hget,
      hboth.imp_right fun hnot => ⟨hnot.1, hused index hnot.2⟩⟩

/-- A call that makes no change and no prepared change, and moves at most the status of one context:
to something that is not prepared, where the prepared change of the context was aborted or its base is
not the current revision. -/
theorem History.Logged.frame (hlog : h.Logged) (hkept : h'.tracker.Kept)
    (hprepareds : h'.tracker.prepareds = h.tracker.prepareds)
    (hrevision : h'.tracker.revision = h.tracker.revision) (hprepared : h'.prepared = h.prepared)
    (hadopted : h'.adopted = h.adopted) (hbegun : h'.begun = h.begun)
    {c : Nat} (hmoves : Moves h.tracker h'.tracker c)
    (haborted : ∀ index ∈ h.aborted, index ∈ h'.aborted)
    (hnew : ∀ index ∈ h'.aborted, index ∈ h.aborted
      ∨ ∃ prepared, h.tracker.prepareds[index]? = some prepared ∧ prepared.context = c)
    (hmoved : ∀ (index : Nat) (prepared : PreparedImpl) x, h.tracker.prepareds[index]? = some prepared →
      prepared.context = c → h.tracker.contexts[c]? = some x →
      index ∈ h'.aborted ∨ x.baseRevision ≠ h.tracker.revision)
    (hlength : h'.tracker.changes.length = h.tracker.changes.length)
    (hchanges : ∀ (i : Nat) (change' : ChangeImpl), h'.tracker.changes[i]? = some change' → ∃ change : ChangeImpl,
      h.tracker.changes[i]? = some change
        ∧ (∀ c, change'.context = some c → change.context = some c)
        ∧ (change.settled = true → change'.settled = true)
        ∧ (change'.preparedStatus = change.preparedStatus
          ∨ change'.preparedStatus = none
            ∧ ∀ begun index, h.begun[i]? = some begun → begun.2 = some index → index ∈ h'.aborted)) :
    h'.Logged := by
  obtain ⟨f, hcontexts, hbase, hready⟩ := hmoves
  have hused : ∀ index, h.Used index → h'.Used index := by
    rintro index (hmem | hmem)
    · exact .inl (haborted index hmem)
    · exact .inr (hadopted ▸ hmem)
  have hget : ∀ j x, h.tracker.contexts[j]? = some x → h'.tracker.contexts[j]?
      = some (if c = j then f x else x) := by
    intro j x hx
    rw [hcontexts, List.getElem?_modify, hx]
    rfl
  refine ⟨hkept, ?_, ?_, ?_, ?_, ?_, ?_, ?_, ?_, ?_⟩
  · rw [hrevision, hadopted, hlog.counts]
  · rw [hprepared, hprepareds, hlog.entries]
  · rintro index (hmem | hmem)
    · rw [hprepareds]
      rcases hnew index hmem with hmem | ⟨prepared, hget, -⟩
      · exact hlog.used index (.inl hmem)
      · exact (List.getElem?_eq_some_iff.mp hget).1
    · rw [hprepareds]
      exact hlog.used index (.inr (hadopted ▸ hmem))
  · intro index prepared hindex
    rw [hprepareds] at hindex
    obtain ⟨x, entry, hx, hentry, htells⟩ := hlog.prepareds index prepared hindex
    refine ⟨_, entry, hget _ x hx, hprepared ▸ hentry, ?_⟩
    by_cases hc : c = prepared.context
    · rw [if_pos hc]
      subst hc
      refine ⟨(hbase x).trans htells.since, fun heq => absurd heq (hready x hx), fun hunused heq => ?_⟩
      rcases hmoved index prepared x hindex rfl hx with hmem | hne
      · exact absurd (.inl hmem) hunused
      · rw [hrevision, ← htells.since] at heq
        exact absurd heq hne
    · rw [if_neg hc]
      refine ⟨htells.since, ?_, fun hunused heq => ?_⟩
      · rintro heq (hmem | hmem)
        · rcases hnew index hmem with hmem | ⟨other, hother, hcontext⟩
          · exact htells.ready heq (.inl hmem)
          · rw [hindex] at hother
            cases hother
            exact hc hcontext.symm
        · exact htells.ready heq (.inr (hadopted ▸ hmem))
      · exact htells.unused (fun hold => hunused (hused index hold)) (hrevision ▸ heq)
  · rw [hprepareds]
    exact hlog.distinct
  · rw [hbegun, hlength, hlog.begun]
  · rw [hbegun, hadopted]
    exact hlog.sinces
  · intro i change' hchange'
    obtain ⟨change, hchange, hcontext, hsettled, hstatus⟩ := hchanges i change' hchange'
    obtain ⟨begun, hi, hdrafts⟩ := hlog.changes i change hchange
    have hlater : h'.Drafts begun change := hdrafts.later (based_of_modify hcontexts hbase)
      (fun _ _ hprep => hprepareds ▸ hprep) (fun _ _ _ hmem => .inl (hprepareds ▸ hmem)) hused
    refine ⟨begun, hbegun ▸ hi, fun j hj => hlater.drafting j (hcontext j hj), fun index hindex => ?_,
      fun hnone => ?_⟩
    · obtain ⟨hwas, prepared, hprep, hboth⟩ := hlater.made index hindex
      refine ⟨hsettled hwas, prepared, hprep, ?_⟩
      rcases hstatus with hsame | ⟨hnone, hall⟩
      · rwa [hsame]
      · exact .inr ⟨hnone, .inl (hall begun index hi hindex)⟩
    · rcases hstatus with hsame | ⟨hnone', -⟩
      · rw [hsame, hlater.unmade hnone]
      · exact hnone'
  · intro i j change' other' c' hi hj hchange' hother'
    obtain ⟨change, hchange, hcontext, -⟩ := hchanges i change' hi
    obtain ⟨other, hother, hcontext', -⟩ := hchanges j other' hj
    exact hlog.own i j change other c' hchange hother (hcontext c' hchange') (hcontext' c' hother')

theorem getElem?_set_some {α : Type} {items : List α} {new item : α} {j : Nat}
    (h : (items.set i new)[j]? = some item) :
    ∃ old, items[j]? = some old ∧ (j = i ∧ item = new ∨ j ≠ i ∧ item = old) := by
  rw [List.getElem?_set] at h
  split at h
  · next hij =>
    split at h
    · next hlt =>
      subst hij
      exact ⟨_, List.getElem?_eq_getElem hlt, .inl ⟨rfl, (Option.some.inj h).symm⟩⟩
    · cases h
  · next hij => exact ⟨item, h, .inr ⟨Ne.symm hij, rfl⟩⟩

/-! ## Calls that abort -/

theorem History.Logged.abortPrepared (hlog : h.Logged) (index : Nat) :
    (h.step (.abortPrepared index)).Logged := by
  have hkept := History.step_kept hlog.kept (.abortPrepared index)
  have haborted : (h.step (.abortPrepared index)).aborted
      = h.aborted ++ if index < h.prepared.length then [index] else [] := rfl
  obtain ⟨⟨-, hrevision⟩, hprepareds⟩ := abortPrepared_value h.tracker index
  cases hprepared : h.tracker.prepareds[index]? with
  | none =>
    have hge := List.getElem?_eq_none_iff.mp hprepared
    have hsame : h.step (.abortPrepared index) = h := by
      have hnot : ¬ index < h.prepared.length := by
        rw [hlog.entries]
        omega
      simp [History.step, Tracker.abortPrepared, hprepared, hnot]
    rw [hsame]
    exact hlog
  | some prepared =>
    have hlt : index < h.prepared.length := by
      rw [hlog.entries]
      exact (List.getElem?_eq_some_iff.mp hprepared).1
    rw [if_pos hlt] at haborted
    have htracker : (h.step (.abortPrepared index)).tracker
        = h.tracker.abortContext prepared.context := by
      simp [History.step, Tracker.abortPrepared, hprepared]
    have hchanges : (h.step (.abortPrepared index)).tracker.changes = h.tracker.changes := by
      rw [htracker]
      exact (h.tracker.abort_keeps prepared.context).1
    have hmoves := htracker ▸ abortContext_moves h.tracker prepared.context
    apply hlog.frame hkept hprepareds hrevision rfl rfl rfl hmoves
    · intro other hother
      rw [haborted]
      exact List.mem_append_left _ hother
    · intro other hother
      rw [haborted, List.mem_append, List.mem_singleton] at hother
      rcases hother with hother | rfl
      · exact .inl hother
      · exact .inr ⟨prepared, hprepared, rfl⟩
    · intro other found x hfound hcontext _
      left
      rw [haborted, hlog.distinct other index found prepared hfound hprepared hcontext]
      exact List.mem_append_right _ (List.mem_singleton_self _)
    · rw [hchanges]
    · intro i change hchange
      exact ⟨change, hchanges ▸ hchange, fun _ => id, id, .inl rfl⟩

/-- An abort of a change takes its draft, or it aborts the prepared change that it came to, once. -/
theorem Tracker.abortChange_cases {change : ChangeImpl} (hchange : t.changes[i]? = some change) :
    (change.settled = true ∧ (t.abortChange i).changes
        = t.changes.set i { change with preparedStatus := none }
      ∧ (t.abortChange i).contexts = (change.preparedStatus.elim t t.abortStatus).contexts)
      ∨ change.settled = false ∧ (t.abortChange i).changes
          = t.changes.set i { change with settled := true, context := none }
        ∧ (t.abortChange i).contexts = (change.context.elim t t.abortContext).contexts := by
  unfold Tracker.abortChange
  rw [hchange]
  dsimp only
  split
  · next hsettled => exact .inl ⟨hsettled, rfl, rfl⟩
  · next hsettled => exact .inr ⟨by simpa using hsettled, rfl, rfl⟩

/-- The context that an abort of a change moves is that of the prepared change that it came to. -/
theorem History.Logged.abortChange_moves (hlog : h.Logged) {change : ChangeImpl}
    {begun : Nat × Option Nat} (hchange : h.tracker.changes[i]? = some change)
    (hdrafts : h.Drafts begun change) :
    ∃ c, Moves h.tracker (h.tracker.abortChange i) c
      ∧ ∀ (index : Nat) (prepared : PreparedImpl), h.tracker.prepareds[index]? = some prepared →
        (prepared.context = c ↔ begun.2 = some index) := by
  have hlost : ∀ (index : Nat) (prepared : PreparedImpl), h.tracker.prepareds[index]? = some prepared →
      prepared.context ≠ h.tracker.contexts.length := by
    intro index prepared hprepared heq
    obtain ⟨x, -, hx, -⟩ := hlog.prepareds index prepared hprepared
    have hlt := (List.getElem?_eq_some_iff.mp hx).1
    omega
  have hnowhere : Moves h.tracker h.tracker h.tracker.contexts.length := by
    apply still_moves
    intro x hx
    have hlt := (List.getElem?_eq_some_iff.mp hx).1
    omega
  obtain ⟨hsettled, -, hcontexts⟩ | ⟨hopen, -, hcontexts⟩ := Tracker.abortChange_cases hchange
  · cases hmade : begun.2 with
    | none =>
      rw [hdrafts.unmade hmade] at hcontexts
      obtain ⟨f, hf, hrest⟩ := hnowhere
      exact ⟨_, ⟨f, hcontexts.trans hf, hrest⟩, fun index prepared hget =>
        ⟨fun heq => absurd heq (hlost index prepared hget), nofun⟩⟩
    | some index =>
      obtain ⟨-, prepared, hprepared, hstatus⟩ := hdrafts.made index hmade
      refine ⟨prepared.context, ?_, fun other found hfound => ⟨fun heq => ?_, fun heq => ?_⟩⟩
      · rcases hstatus with hsome | ⟨hnone, hused⟩
        · rw [hsome] at hcontexts
          obtain ⟨f, hf, hrest⟩ := abortStatus_moves h.tracker prepared.context
          exact ⟨f, hcontexts.trans hf, hrest⟩
        · rw [hnone] at hcontexts
          obtain ⟨x, entry, hx, -, htells⟩ := hlog.prepareds index prepared hprepared
          obtain ⟨f, hf, hrest⟩ := @still_moves h.tracker prepared.context (fun y hy heq => by
            rw [hx] at hy
            cases hy
            exact htells.ready heq hused)
          exact ⟨f, hcontexts.trans hf, hrest⟩
      · rw [hlog.distinct other index found prepared hfound hprepared heq]
      · cases heq
        rw [hprepared] at hfound
        cases hfound
        rfl
  · have hnone : begun.2 = none := by
      rw [Option.eq_none_iff_forall_ne_some]
      intro index hindex
      rw [(hdrafts.made index hindex).1] at hopen
      cases hopen
    rw [hnone]
    cases hcontext : change.context with
    | none =>
      rw [hcontext] at hcontexts
      obtain ⟨f, hf, hrest⟩ := hnowhere
      exact ⟨_, ⟨f, hcontexts.trans hf, hrest⟩, fun index prepared hget =>
        ⟨fun heq => absurd heq (hlost index prepared hget), nofun⟩⟩
    | some c =>
      rw [hcontext] at hcontexts
      obtain ⟨f, hf, hrest⟩ := abortContext_moves h.tracker c
      exact ⟨c, ⟨f, hcontexts.trans hf, hrest⟩, fun index prepared hget =>
        ⟨fun heq => absurd heq ((hdrafts.drafting c hcontext).2.2 prepared
          (List.mem_of_getElem? hget)), nofun⟩⟩

theorem History.Logged.abortChange (hlog : h.Logged) (i : Nat) :
    (h.step (.abortChange i)).Logged := by
  have hkept := History.step_kept hlog.kept (.abortChange i)
  obtain ⟨⟨-, hrevision⟩, hprepareds⟩ := abortChange_value h.tracker i
  cases hchange : h.tracker.changes[i]? with
  | none =>
    have hbegun : h.begun[i]? = none := by
      rw [List.getElem?_eq_none_iff, hlog.begun]
      exact List.getElem?_eq_none_iff.mp hchange
    have hsame : h.step (.abortChange i) = h := by
      simp [History.step, Tracker.abortChange, hchange, hbegun]
    rw [hsame]
    exact hlog
  | some change =>
    obtain ⟨begun, hbegun, hdrafts⟩ := hlog.changes i change hchange
    have haborted : (h.step (.abortChange i)).aborted = h.aborted ++ begun.2.toList := by
      simp [History.step, hbegun]
    obtain ⟨c, hmoves, hc⟩ := hlog.abortChange_moves hchange hdrafts
    obtain ⟨change', hset, hkeeps⟩ : ∃ change',
        (h.tracker.abortChange i).changes = h.tracker.changes.set i change'
          ∧ (∀ c, change'.context = some c → change.context = some c)
          ∧ (change.settled = true → change'.settled = true)
          ∧ (change'.preparedStatus = change.preparedStatus ∨ change'.preparedStatus = none) := by
      obtain ⟨-, hset, -⟩ | ⟨-, hset, -⟩ := Tracker.abortChange_cases hchange
      · exact ⟨_, hset, fun _ => id, id, .inr rfl⟩
      · exact ⟨_, hset, nofun, fun _ => rfl, .inl rfl⟩
    apply hlog.frame hkept hprepareds hrevision rfl rfl rfl hmoves
    · intro index hindex
      rw [haborted]
      exact List.mem_append_left _ hindex
    · intro index hindex
      rw [haborted, List.mem_append, Option.mem_toList] at hindex
      refine hindex.imp_right fun hindex => ?_
      obtain ⟨-, prepared, hprepared, -⟩ := hdrafts.made index hindex
      exact ⟨prepared, hprepared, (hc index prepared hprepared).mpr hindex⟩
    · intro index prepared x hprepared hcontext _
      rw [haborted, List.mem_append, Option.mem_toList]
      exact .inl (.inr ((hc index prepared hprepared).mp hcontext))
    · show (h.tracker.abortChange i).changes.length = _
      rw [hset, List.length_set]
    · intro j next hnext
      have hnext : (h.tracker.abortChange i).changes[j]? = some next := hnext
      rw [hset] at hnext
      obtain ⟨old, hold, ⟨rfl, rfl⟩ | ⟨-, rfl⟩⟩ := getElem?_set_some hnext
      · rw [hchange] at hold
        cases hold
        refine ⟨change, hchange, hkeeps.1, hkeeps.2.1, hkeeps.2.2.imp_right fun hnone =>
          ⟨hnone, fun begun' index hbegun' hindex => ?_⟩⟩
        rw [hbegun] at hbegun'
        cases hbegun'
        rw [haborted, List.mem_append, Option.mem_toList]
        exact .inr hindex
      · exact ⟨_, hold, fun _ => id, id, .inl rfl⟩

/-! ## Calls that begin and prepare -/

theorem History.Logged.beginChange (hlog : h.Logged) : (h.step .beginChange).Logged := by
  have hkept := History.step_kept hlog.kept .beginChange
  have hget : ∀ (c : Nat) x, h.tracker.contexts[c]? = some x →
      (h.step .beginChange).tracker.contexts[c]? = some x :=
    fun c x hx => getElem?_append_of_some hx
  refine ⟨hkept, hlog.counts, hlog.entries, hlog.used, fun index prepared hindex => ?_,
    hlog.distinct, ?_, fun begun hmem => ?_, fun i change hchange => ?_,
    fun i j change other c hi hj hc hc' => ?_⟩
  · obtain ⟨x, entry, hx, hentry, htells⟩ := hlog.prepareds index prepared hindex
    exact ⟨x, entry, hget _ x hx, hentry, htells.since, htells.ready, htells.unused⟩
  · show (h.begun ++ [_]).length = (h.tracker.changes ++ [_]).length
    rw [List.length_append, List.length_append, hlog.begun]
    rfl
  · rcases List.mem_append.mp hmem with hmem | hmem
    · exact hlog.sinces begun hmem
    · rw [List.mem_singleton.mp hmem]
      exact Nat.le_refl _
  · rcases getElem?_concat_some hchange with hold | ⟨rfl, rfl⟩
    · obtain ⟨begun, hbegun, hdrafts⟩ := hlog.changes i change hold
      refine ⟨begun, ?_, hdrafts.later (based_of_append rfl) (fun _ _ => id)
        (fun _ _ _ => .inl) (fun _ => id)⟩
      exact getElem?_append_of_some hbegun
    · refine ⟨(h.adopted.length, none), ?_, fun c hc => ?_, nofun, fun _ => rfl⟩
      · rw [← hlog.begun]
        exact List.getElem?_concat_length
      · cases hc
        refine ⟨rfl, ⟨_, List.getElem?_concat_length, hlog.counts⟩, fun prepared hmem heq => ?_⟩
        obtain ⟨x, hx, -⟩ := hlog.kept.prepareds prepared hmem
        exact absurd (List.getElem?_eq_some_iff.mp hx).1 (by omega)
  · have hlt : ∀ {k : Nat} {change : ChangeImpl}, h.tracker.changes[k]? = some change →
        change.context ≠ some h.tracker.contexts.length := fun hget heq =>
      Nat.lt_irrefl _ (hlog.kept.changes _ (List.mem_of_getElem? hget) _ heq)
    rcases getElem?_concat_some hi with hi | ⟨rfl, rfl⟩
    · rcases getElem?_concat_some hj with hj | ⟨rfl, rfl⟩
      · exact hlog.own i j change other c hi hj hc hc'
      · cases hc'
        exact absurd hc (hlt hi)
    · rcases getElem?_concat_some hj with hj | ⟨rfl, rfl⟩
      · cases hc
        exact absurd hc' (hlt hj)
      · rfl

/-- A prepared change is made, whose context is that of no other; a change that came to it gives its
context up. -/
theorem History.Logged.addPrepared (hlog : h.Logged) (hkept : h'.tracker.Kept)
    {prepared : PreparedImpl} {entry : Entry} {x : Context}
    (hprepareds : h'.tracker.prepareds = h.tracker.prepareds ++ [prepared])
    (hrevision : h'.tracker.revision = h.tracker.revision)
    (hentries : h'.prepared = h.prepared ++ [entry]) (haborted : h'.aborted = h.aborted)
    (hadopted : h'.adopted = h.adopted)
    (hbased : Based h.tracker h'.tracker)
    (hstatus : ∀ c x y, h.tracker.contexts[c]? = some x → h'.tracker.contexts[c]? = some y →
      c ≠ prepared.context → y.status = x.status)
    (hnew : h'.tracker.contexts[prepared.context]? = some x) (hready : x.status = .prepared)
    (hsince : x.baseRevision = entry.since)
    (hfresh : ∀ other ∈ h.tracker.prepareds, other.context ≠ prepared.context)
    (hlength : h'.begun.length = h'.tracker.changes.length)
    (hsinces : ∀ begun ∈ h'.begun, begun.1 ≤ h.adopted.length)
    (hchanges : ∀ (i : Nat) (change' : ChangeImpl), h'.tracker.changes[i]? = some change' →
      ∃ change : ChangeImpl, h.tracker.changes[i]? = some change
        ∧ (change' = change ∧ change.context ≠ some prepared.context ∧ h'.begun[i]? = h.begun[i]?
          ∨ change' = ⟨none, some prepared.context, true⟩
            ∧ ∃ since, h'.begun[i]? = some (since, some h.tracker.prepareds.length))) :
    h'.Logged := by
  have hused : ∀ index, h'.Used index ↔ h.Used index := by
    intro index
    rw [History.Used, History.Used, haborted, hadopted]
  have hold : ∀ (index : Nat) (other : PreparedImpl), h.tracker.prepareds[index]? = some other →
      h'.tracker.prepareds[index]? = some other := by
    intro index other hget
    rw [hprepareds, getElem?_append_of_some hget]
  refine ⟨hkept, ?_, ?_, fun index hindex => ?_, fun index other hindex => ?_,
    fun i j other other' hi hj heq => ?_, hlength, hadopted ▸ hsinces, fun i change' hchange' => ?_,
    fun i j change' other' c hi hj hc hc' => ?_⟩
  · rw [hrevision, hadopted, hlog.counts]
  · rw [hentries, hprepareds, List.length_append, List.length_append, hlog.entries]
    rfl
  · rw [hprepareds, List.length_append]
    exact Nat.lt_add_right _ (hlog.used index ((hused index).mp hindex))
  · rw [hprepareds] at hindex
    rcases getElem?_concat_some hindex with hindex | ⟨rfl, rfl⟩
    · obtain ⟨y, entry', hy, hentry', htells⟩ := hlog.prepareds index other hindex
      obtain ⟨z, hz, hbase⟩ := hbased _ y hy
      have hstatus := hstatus _ y z hy hz (hfresh other (List.mem_of_getElem? hindex))
      refine ⟨z, entry', hz, ?_, hbase.trans htells.since, fun heq => ?_, fun hunused heq => ?_⟩
      · rw [hentries, getElem?_append_of_some hentry']
      · rw [hused]
        exact htells.ready (hstatus ▸ heq)
      · rw [hused] at hunused
        rw [hstatus]
        exact htells.unused hunused (hrevision ▸ heq)
    · refine ⟨x, entry, hnew, ?_, hsince, fun _ hwas => ?_, fun _ _ => hready⟩
      · rw [hentries, ← hlog.entries, List.getElem?_concat_length]
      · exact Nat.lt_irrefl _ (hlog.used _ ((hused _).mp hwas))
  · rw [hprepareds] at hi hj
    rcases getElem?_concat_some hi with hold | ⟨rfl, rfl⟩
    · rcases getElem?_concat_some hj with hold' | ⟨rfl, rfl⟩
      · exact hlog.distinct i j other other' hold hold' heq
      · exact absurd heq (hfresh other (List.mem_of_getElem? hold))
    · rcases getElem?_concat_some hj with hold | ⟨rfl, rfl⟩
      · exact absurd heq.symm (hfresh other' (List.mem_of_getElem? hold))
      · rfl
  · obtain ⟨change, hchange, ⟨rfl, hne, hsame⟩ | ⟨rfl, since, hbegun⟩⟩ := hchanges i change' hchange'
    · obtain ⟨begun, hbegun, hdrafts⟩ := hlog.changes i change' hchange
      refine ⟨begun, hsame.trans hbegun, hdrafts.later hbased hold (fun c hc other hmem => ?_)
        fun index => (hused index).mpr⟩
      rw [hprepareds, List.mem_append, List.mem_singleton] at hmem
      exact hmem.imp_right fun heq hcontext => hne (by rw [hc, ← hcontext, heq])
    · refine ⟨_, hbegun, nofun, fun index hindex => ?_, nofun⟩
      cases hindex
      exact ⟨rfl, prepared, by rw [hprepareds, List.getElem?_concat_length], .inl rfl⟩
  · obtain ⟨change, hchange, ⟨rfl, -⟩ | ⟨rfl, -⟩⟩ := hchanges i change' hi
    · obtain ⟨other, hother, ⟨rfl, -⟩ | ⟨rfl, -⟩⟩ := hchanges j other' hj
      · exact hlog.own i j change' other' c hchange hother hc hc'
      · cases hc'
    · cases hc

theorem History.Logged.prepare (hlog : h.Logged) (i : Nat) (overlay : Overlay) :
    (h.step (.prepare i overlay)).Logged := by
  have hkept := History.step_kept hlog.kept (.prepare i overlay)
  obtain ⟨e, heq⟩ | ⟨change, c, context, hchange, hc, hcontext, heq⟩ :=
    h.tracker.prepare_cases hlog.kept i overlay
  · have hsame : h.step (.prepare i overlay) = h := by simp [History.step, heq]
    rw [hsame]
    exact hlog
  obtain ⟨begun, hbegun, hdrafts⟩ := hlog.changes i change hchange
  obtain ⟨hnone, ⟨x, hx, hsince⟩, hfresh⟩ := hdrafts.drafting c hc
  rw [hcontext] at hx
  cases hx
  unfold Tracker.settleChange at heq
  split at heq
  · next ops value hmade =>
    have hstep : h.step (.prepare i overlay) =
        { h with
          tracker :=
            { (h.tracker.setStatus c .prepared).clearContext c with
              changes := h.tracker.changes.set i ⟨none, some c, true⟩
              prepareds := h.tracker.prepareds ++ [⟨c, value, h.tracker.value, ops⟩] }
          begun := h.begun.modify i fun begun => (begun.1, some h.tracker.prepareds.length)
          prepared := h.prepared ++ [⟨begun.1, (overlay.simple h.tracker.value).isNone⟩] } := by
      simp [History.step, heq, hbegun]
    rw [hstep, Tracker.settle_eq] at hkept ⊢
    have hget : (h.tracker.contexts.modify c fun y => { y.release with status := .prepared })[c]?
        = some { context.release with status := .prepared } := by
      rw [List.getElem?_modify_eq, hcontext]
      rfl
    refine @History.Logged.addPrepared h _ hlog hkept _ _ _ rfl rfl rfl rfl rfl
      (based_of_modify rfl fun _ => rfl) (fun j y z hy hz hne => ?_) hget rfl hsince hfresh ?_
      (fun begun' hmem => ?_) fun j change' hj => ?_
    · have hsame := (List.getElem?_modify_ne _ _ (Ne.symm hne)).symm.trans hz
      rw [hy] at hsame
      cases hsame
      rfl
    · show (h.begun.modify i _).length = (h.tracker.changes.set i _).length
      rw [List.length_modify, List.length_set, hlog.begun]
    · obtain ⟨j, hj⟩ := List.mem_iff_getElem?.mp hmem
      have hj := (List.getElem?_modify _ _ _ _).symm.trans hj
      obtain ⟨old, hold, rfl⟩ := Option.map_eq_some_iff.mp hj
      have hle := hlog.sinces old (List.mem_of_getElem? hold)
      split
      · exact hle
      · exact hle
    · obtain ⟨old, hold, ⟨rfl, rfl⟩ | ⟨hne, rfl⟩⟩ := getElem?_set_some hj
      · refine ⟨old, hold, .inr ⟨rfl, begun.1, ?_⟩⟩
        show (h.begun.modify j _)[j]? = _
        rw [List.getElem?_modify_eq, hbegun]
        rfl
      · refine ⟨change', hold, .inl ⟨rfl, fun hsome => ?_, List.getElem?_modify_ne _ _ (Ne.symm hne)⟩⟩
        exact hne (hlog.own j i change' change c hold hchange hsome hc)
  · next e hmade =>
    have hstep : h.step (.prepare i overlay) =
        { h with
          tracker :=
            { (h.tracker.setStatus c .aborted).clearContext c with
              changes := h.tracker.changes.set i ⟨none, none, true⟩ } } := by
      simp [History.step, heq]
    have hmoves := settle_moves h.tracker c (by decide : Status.aborted ≠ .prepared)
    rw [hstep] at hkept ⊢
    refine @History.Logged.frame h _ hlog hkept ?_ ?_ rfl rfl rfl c hmoves (fun _ => id)
      (fun _ => .inl) (fun index prepared y hget heq => absurd heq
        (hfresh prepared (List.mem_of_getElem? hget))) ?_ fun j change' hj => ?_
    · rw [Tracker.settle_eq]
    · rw [Tracker.settle_eq]
    · exact List.length_set
    · obtain ⟨old, hold, ⟨rfl, rfl⟩ | ⟨-, rfl⟩⟩ := getElem?_set_some hj
      · rw [hchange] at hold
        cases hold
        exact ⟨change, hchange, nofun, fun _ => rfl, .inl (hdrafts.unmade hnone).symm⟩
      · exact ⟨_, hold, fun _ => id, id, .inl rfl⟩

theorem History.Logged.prepareReplace (hlog : h.Logged) (value : Value Nat) :
    (h.step (.prepareReplace value)).Logged := by
  have hkept := History.step_kept hlog.kept (.prepareReplace value)
  have hlast : ∀ (c : Nat) (x context : Context), h.tracker.contexts[c]? = some x →
      (h.tracker.contexts ++ [context])[c]? = some x := fun c x context hx =>
    getElem?_append_of_some hx
  have hown : ∀ prepared ∈ h.tracker.prepareds, prepared.context ≠ h.tracker.contexts.length := by
    intro prepared hmem heq
    obtain ⟨x, hx, -⟩ := hlog.kept.prepareds prepared hmem
    exact absurd (List.getElem?_eq_some_iff.mp hx).1 (by omega)
  unfold History.step Tracker.prepareReplace at hkept ⊢
  dsimp only at hkept ⊢
  cases hmade : materialize h.tracker.value (h.tracker.replacementOps value) none with
  | ok made =>
    rw [hmade] at hkept
    refine @History.Logged.addPrepared h _ hlog hkept _ _ _ rfl rfl rfl rfl rfl
      (based_of_append rfl) (fun c x y hx hy _ => ?_) List.getElem?_concat_length rfl hlog.counts
      hown hlog.begun hlog.sinces fun i change hchange => ⟨change, hchange, .inl ⟨rfl, fun heq => ?_, rfl⟩⟩
    · have hsame := (hlast c x _ hx).symm.trans hy
      cases hsame
      rfl
    · exact Nat.lt_irrefl _ (hlog.kept.changes change (List.mem_of_getElem? hchange) _ heq)
  | error e =>
    rw [hmade] at hkept
    refine ⟨hkept, hlog.counts, hlog.entries, hlog.used, fun index prepared hindex => ?_,
      hlog.distinct, hlog.begun, hlog.sinces, fun i change hchange => ?_, hlog.own⟩
    · obtain ⟨x, entry, hx, hentry, htells⟩ := hlog.prepareds index prepared hindex
      exact ⟨x, entry, hlast _ x _ hx, hentry, htells.since, htells.ready, htells.unused⟩
    · obtain ⟨begun, hbegun, hdrafts⟩ := hlog.changes i change hchange
      exact ⟨begun, hbegun, hdrafts.later (based_of_append rfl) (fun _ _ => id)
        (fun _ _ _ => .inl) (fun _ => id)⟩

/-! ## Adoptions -/

theorem History.step_adopt_ok {index : Nat} {prepared : PreparedImpl}
    (heq : h.tracker.adopt (some ⟨h.tracker.owner, index⟩) = (t, .ok prepared)) :
    h.step (.adopt (some ⟨h.tracker.owner, index⟩))
      = { h with tracker := t, adopted := h.adopted ++ [(index, prepared)] } := by
  simp only [History.step, heq]
  rfl

theorem History.step_adopt_error {ref : Option PreparedRef} {e : TrackerError}
    (heq : h.tracker.adopt ref = (t, .error e)) :
    h.step (.adopt ref) = { h with tracker := t } := by
  simp only [History.step, heq]

theorem History.Logged.adopt (hlog : h.Logged) (ref : Option PreparedRef) :
    (h.step (.adopt ref)).Logged := by
  have hkept := History.step_kept hlog.kept (.adopt ref)
  obtain ⟨index, prepared, context, rfl, hprepared, hcontext, hready, -, -, heq⟩
    | ⟨-, e, heq | ⟨c, context, hcontext, hne, heq⟩⟩ := h.tracker.adopt_cases hlog.kept ref
  · rw [History.step_adopt_ok heq] at hkept ⊢
    have hget : ∀ (c : Nat) x, h.tracker.contexts[c]? = some x → ∃ y : Context,
        (h.tracker.adopted prepared).contexts[c]? = some y ∧ y.baseRevision = x.baseRevision
          ∧ (y.status = .prepared → x.status = .prepared ∧ c ≠ prepared.context) := by
      intro c x hx
      have hlt := (List.getElem?_eq_some_iff.mp hx).1
      rw [← h.tracker.adopted_length prepared] at hlt
      have hy := List.getElem?_eq_getElem hlt
      obtain ⟨-, -, old, hold, -, hbase, hstatus⟩ :=
        h.tracker.adopted_settled hlog.kept hcontext hready hy
      rw [hx] at hold
      cases hold
      exact ⟨_, hy, hbase, hstatus⟩
    refine ⟨hkept, ?_, hlog.entries, ?_, fun other found hfound => ?_, hlog.distinct, hlog.begun,
      fun begun hmem => ?_, fun i change hchange => ?_, hlog.own⟩
    · show h.tracker.revision + 1 = (h.adopted ++ [_]).length
      rw [hlog.counts, List.length_append]
      rfl
    · rintro other (hmem | hmem)
      · exact hlog.used other (.inl hmem)
      · rw [List.map_append, List.mem_append, List.map_singleton, List.mem_singleton] at hmem
        rcases hmem with hmem | rfl
        · exact hlog.used other (.inr hmem)
        · exact (List.getElem?_eq_some_iff.mp hprepared).1
    · have hfound' : h.tracker.prepareds[other]? = some found := hfound
      obtain ⟨x, entry, hx, hentry, htells⟩ := hlog.prepareds other found hfound
      obtain ⟨y, hy, hbase, hstatus⟩ := hget _ x hx
      refine ⟨y, entry, hy, hentry, hbase.trans htells.since, ?_, fun _ hcurrent => ?_⟩
      · rintro hwas (hmem | hmem)
        · exact htells.ready (hstatus hwas).1 (.inl hmem)
        · rw [List.map_append, List.mem_append, List.map_singleton, List.mem_singleton] at hmem
          rcases hmem with hmem | rfl
          · exact htells.ready (hstatus hwas).1 (.inr hmem)
          · rw [hprepared] at hfound'
            cases hfound'
            exact (hstatus hwas).2 rfl
      · -- every base that was taken is older now
        have hle := hlog.kept.revisions x (List.mem_of_getElem? hx)
        rw [htells.since, hcurrent] at hle
        exact absurd hle (Nat.not_succ_le_self _)
    · rw [List.length_append]
      exact Nat.le_add_right_of_le (hlog.sinces begun hmem)
    · obtain ⟨begun, hbegun, hdrafts⟩ := hlog.changes i change hchange
      refine ⟨begun, hbegun, hdrafts.later (fun c x hx => ?_) (fun _ _ => id) (fun _ _ _ => .inl) ?_⟩
      · obtain ⟨y, hy, hbase, -⟩ := hget c x hx
        exact ⟨y, hy, hbase⟩
      · rintro other (hmem | hmem)
        · exact .inl hmem
        · right
          rw [List.map_append]
          exact List.mem_append_left _ hmem
  · rw [History.step_adopt_error heq]
    exact hlog
  · rw [History.step_adopt_error heq] at hkept ⊢
    refine @History.Logged.frame h _ hlog hkept ?_ ?_ rfl rfl rfl c
      (settle_moves h.tracker c (by decide)) (fun _ => id) (fun _ => .inl) ?_ ?_ ?_
    · rw [Tracker.settle_eq]
    · rw [Tracker.settle_eq]
    · intro index prepared x _ _ hx
      rw [hcontext] at hx
      cases hx
      exact .inr hne
    · rw [Tracker.settle_eq]
    · intro i change hchange
      rw [Tracker.settle_eq] at hchange
      exact ⟨change, hchange, fun _ => id, id, .inl rfl⟩

theorem History.Logged.step (hlog : h.Logged) (call : Call) : (h.step call).Logged := by
  cases call with
  | beginChange => exact hlog.beginChange
  | prepare change overlay => exact hlog.prepare change overlay
  | abortChange change => exact hlog.abortChange change
  | prepareReplace value => exact hlog.prepareReplace value
  | abortPrepared index => exact hlog.abortPrepared index
  | adopt ref => exact hlog.adopt ref

end Logged

theorem History.Logged.reachable {h later : History} (hlog : h.Logged)
    (hreach : Run.Reachable History.step Run.always h later) : later.Logged :=
  hreach.invariant History.Logged hlog fun _ call hlog _ => hlog.step call

/-! ## Batches that were adopted -/

/-- The batch takes the base to the value, by the tracker's own replay. -/
def PreparedImpl.Replays (prepared : PreparedImpl) : Prop :=
  ∃ made, materializeOperations prepared.base prepared.ops = .ok made
    ∧ made.data = prepared.value.data

/-- A batch that replays is taken. -/
theorem exists_taken {base : Value Nat} {ops : List (Op (Value Nat))} {y : Data}
    (h : base.data.replay (ops.map Op.data) = some y) :
    ∃ taken, applyImmutable base ops = .ok taken := by
  obtain ⟨taken, htaken, -⟩ := exists_of_outcome ((applyImmutable_data base ops).trans h)
  exact ⟨taken, htaken⟩

/-- The checked replay takes the batch, too. -/
def PreparedImpl.Accepted (prepared : PreparedImpl) : Prop :=
  ∃ made, applyImmutable prepared.base prepared.ops = .ok made

/-- Each was adopted over the value of the one before. -/
def Linked : Value Nat → List PreparedImpl → Value Nat → Prop
  | initial, [], value => initial = value
  | initial, prepared :: adopted, value => prepared.base = initial ∧ Linked prepared.value adopted value

theorem Linked.concat {initial value : Value Nat} {adopted : List PreparedImpl}
    {prepared : PreparedImpl} (h : Linked initial adopted value) (hbase : prepared.base = value) :
    Linked initial (adopted ++ [prepared]) prepared.value := by
  induction adopted generalizing initial with
  | nil => exact ⟨hbase.trans h.symm, rfl⟩
  | cons first adopted ih => exact ⟨h.1, ih h.2⟩

variable {base : Value Nat} {ops : List (Op (Value Nat))}

theorem materializeOperations_outcome {y : Data}
    (hreplay : base.data.replay (ops.map Op.data) = some y) :
    outcome (materializeOperations base ops) = some y := by
  unfold materializeOperations
  split
  · rw [applyImmutable_data, hreplay]
  · next htrusted =>
    apply applyImmutableTrusted_data _ hreplay
    simpa using htrusted

theorem materialize_replays {value : Value Nat} {direct : Option (Value Nat)}
    (hdirect : ∀ clone, direct = some clone →
      base.data.replay (ops.map Op.data) = some clone.data)
    (h : materialize base ops direct = .ok value) :
    ∃ made, materializeOperations base ops = .ok made ∧ made.data = value.data := by
  unfold materialize at h
  split at h
  · next hnil =>
    cases h
    rw [hnil]
    exact ⟨base, rfl, rfl⟩
  split at h
  · cases h
    exact exists_of_outcome (materializeOperations_outcome (hdirect _ rfl))
  · cases hmade : materializeOperations base ops with
    | error e =>
      rw [hmade] at h
      cases h
    | ok made =>
      rw [hmade] at h
      cases h
      exact ⟨_, rfl, rfl⟩

/-- **What a draft comes to** is what its operations do: the clone of a draft of objects, too, and
there the checked replay agrees. -/
theorem Overlay.made_replays {overlay : Overlay} {value : Value Nat}
    (h : overlay.made base = .ok (ops, value)) :
    (∃ made, materializeOperations base ops = .ok made ∧ made.data = value.data)
      ∧ ((overlay.simple base).isNone = false → ∃ made, applyImmutable base ops = .ok made) := by
  obtain ⟨⟨emitted, direct⟩, hemit, h⟩ := Except.bind_eq_ok.mp h
  obtain ⟨made, hmade, h⟩ := Except.bind_eq_ok.mp h
  cases h
  unfold Overlay.emit at hemit
  split at hemit
  · next pair hsimple =>
    cases hemit
    obtain ⟨edits, -, hedits⟩ := Option.bind_eq_some_iff.mp hsimple
    obtain ⟨⟨ops', cloned⟩, hemitted, heq⟩ := Option.bind_eq_some_iff.mp hedits
    cases heq
    have hreplay := emitSimpleObjectOperations_replays (drafted_kept base edits) hemitted
    refine ⟨materialize_replays (fun clone hclone => ?_) hmade, fun _ => ?_⟩
    · split at hclone
      · cases hclone
        exact hreplay
      · cases hclone
    · exact exists_taken hreplay
  · next hnone =>
    rw [hnone]
    refine ⟨materialize_replays (fun clone hclone => ?_) hmade, nofun⟩
    cases hemitted : overlay.emitted with
    | error e =>
      rw [hemitted] at hemit
      cases hemit
    | ok others =>
      rw [hemitted] at hemit
      cases hemit
      cases hclone

theorem PreparedImpl.Replays.accepted_iff {prepared : PreparedImpl} (h : prepared.Replays) :
    prepared.Accepted
      ↔ prepared.base.data.replay (prepared.ops.map Op.data) = some prepared.value.data := by
  constructor
  · rintro ⟨taken, htaken⟩
    have houtcome := applyImmutable_data prepared.base prepared.ops
    rw [htaken] at houtcome
    obtain ⟨made, hmade, hdata⟩ := h
    have hsame := materializeOperations_outcome houtcome.symm
    rw [hmade] at hsame
    have htook : made.data = taken.data := Option.some.inj hsame
    rw [← houtcome, ← hdata, htook]
    rfl
  · exact fun hreplay => exists_taken hreplay

/-- **The adopted batches in their order**: the checked replay takes all of them where it takes each,
and it can come to nothing but the value. -/
theorem Linked.replay {initial value : Value Nat} {adopted : List PreparedImpl}
    (h : Linked initial adopted value) (hreplays : ∀ prepared ∈ adopted, prepared.Replays) (y : Data) :
    initial.data.replay ((adopted.flatMap (·.ops)).map Op.data) = some y
      ↔ (∀ prepared ∈ adopted, prepared.Accepted) ∧ y = value.data := by
  induction adopted generalizing initial with
  | nil =>
    cases h
    refine ⟨fun heq => ⟨nofun, (Option.some.inj heq).symm⟩, ?_⟩
    rintro ⟨-, rfl⟩
    rfl
  | cons prepared adopted ih =>
    rw [List.forall_mem_cons] at hreplays ⊢
    rw [List.flatMap_cons, List.map_append, Data.replay_append, ← h.1]
    by_cases haccepted : prepared.Accepted
    · rw [hreplays.1.accepted_iff.mp haccepted, Option.bind_some, ih h.2 hreplays.2]
      simp [haccepted]
    · have hnone : prepared.base.data.replay (prepared.ops.map Op.data) = none := by
        rw [Option.eq_none_iff_forall_ne_some]
        exact fun z hz => haccepted (exists_taken hz)
      rw [hnone]
      simp [haccepted]

/-- What was adopted is what was prepared, and all of it replays. -/
structure History.Replayed (initial : Value Nat) (h : History) : Prop where
  logged : h.Logged
  prepareds : ∀ (index : Nat) prepared entry, h.tracker.prepareds[index]? = some prepared →
    h.prepared[index]? = some entry →
    prepared.Replays ∧ (entry.general = false → prepared.Accepted)
  adopted : ∀ entry ∈ h.adopted, h.tracker.prepareds[entry.1]? = some entry.2
  linked : Linked initial (h.adopted.map Prod.snd) h.tracker.value

theorem History.Replayed.step {initial : Value Nat} {h : History} (hreplayed : h.Replayed initial)
    (call : Call) : (h.step call).Replayed initial := by
  have hlog := hreplayed.logged.step call
  -- most calls make and adopt nothing; `hadd` is for those that make one `Prepared`
  have hsame : (h.step call).tracker.prepareds = h.tracker.prepareds →
      (h.step call).prepared = h.prepared → (h.step call).adopted = h.adopted →
      (h.step call).tracker.value = h.tracker.value → (h.step call).Replayed initial := by
    intro hprepareds hprepared hadopted hvalue
    exact ⟨hlog, hprepareds ▸ hprepared ▸ hreplayed.prepareds, hadopted ▸ hprepareds ▸ hreplayed.adopted,
      hadopted ▸ hvalue ▸ hreplayed.linked⟩
  have hadd : ∀ prepared entry, (h.step call).tracker.prepareds = h.tracker.prepareds ++ [prepared] →
      (h.step call).prepared = h.prepared ++ [entry] → (h.step call).adopted = h.adopted →
      (h.step call).tracker.value = h.tracker.value →
      prepared.Replays ∧ (entry.general = false → prepared.Accepted) →
      (h.step call).Replayed initial := by
    intro prepared entry hprepareds hprepared hadopted hvalue hnew
    refine ⟨hlog, fun index found entry' hfound hentry => ?_, fun done hdone => ?_,
      hadopted ▸ hvalue ▸ hreplayed.linked⟩
    · rw [hprepareds] at hfound
      rw [hprepared] at hentry
      rcases getElem?_concat_some hfound with hold | ⟨rfl, rfl⟩
      · rcases getElem?_concat_some hentry with hentry | ⟨rfl, -⟩
        · exact hreplayed.prepareds index found entry' hold hentry
        · have hlt := (List.getElem?_eq_some_iff.mp hold).1
          rw [hreplayed.logged.entries] at hlt
          exact absurd hlt (Nat.lt_irrefl _)
      · rw [← hreplayed.logged.entries, List.getElem?_concat_length] at hentry
        cases hentry
        exact hnew
    · rw [hadopted] at hdone
      have hget := hreplayed.adopted done hdone
      rw [hprepareds, getElem?_append_of_some hget]
  cases call with
  | beginChange => exact hsame rfl rfl rfl rfl
  | abortChange i =>
    obtain ⟨⟨hvalue, -⟩, hprepareds⟩ := abortChange_value h.tracker i
    exact hsame hprepareds rfl rfl hvalue
  | abortPrepared index =>
    obtain ⟨⟨hvalue, -⟩, hprepareds⟩ := abortPrepared_value h.tracker index
    exact hsame hprepareds rfl rfl hvalue
  | prepare i overlay =>
    have hvalue : (h.step (.prepare i overlay)).tracker.value = h.tracker.value := by
      rw [History.step_tracker]
      exact (prepare_value hreplayed.logged.kept i overlay).1
    obtain ⟨e, heq⟩ | ⟨-, c, -, -, -, -, heq⟩ :=
      h.tracker.prepare_cases hreplayed.logged.kept i overlay
    · have hstep : h.step (.prepare i overlay) = h := by simp [History.step, heq]
      exact hsame (by rw [hstep]) (by rw [hstep]) (by rw [hstep]) hvalue
    · unfold Tracker.settleChange at heq
      split at heq
      · next ops value hmade =>
        rw [Tracker.settle_eq] at heq
        obtain ⟨hreplays, haccepted⟩ := Overlay.made_replays hmade
        refine hadd ⟨c, value, h.tracker.value, ops⟩
          ⟨(h.begun[i]?).elim 0 Prod.fst, (overlay.simple h.tracker.value).isNone⟩ ?_ ?_ ?_ hvalue
          ⟨hreplays, haccepted⟩
        all_goals
          unfold History.step
          dsimp only
          rw [heq]
      · rw [Tracker.settle_eq] at heq
        refine hsame ?_ ?_ ?_ hvalue
        all_goals
          unfold History.step
          dsimp only
          rw [heq]
  | prepareReplace value =>
    have hvalue : (h.step (.prepareReplace value)).tracker.value = h.tracker.value := by
      rw [History.step_tracker]
      exact (prepareReplace_value h.tracker value).1
    cases hmade : materialize h.tracker.value (h.tracker.replacementOps value) none with
    | ok made =>
      have hreplays : ∃ y, h.tracker.value.data.replay
          ((h.tracker.replacementOps value).map Op.data) = some y := by
        unfold Tracker.replacementOps
        split
        · exact ⟨_, rfl⟩
        · exact ⟨_, rfl⟩
      refine hadd ⟨h.tracker.contexts.length, made, h.tracker.value, h.tracker.replacementOps value⟩
        ⟨h.adopted.length, false⟩ ?_ ?_ ?_ hvalue ⟨materialize_replays (by nofun) hmade, fun _ => ?_⟩
      · simp only [History.step, Tracker.prepareReplace, hmade]
      · simp only [History.step, Tracker.prepareReplace, hmade]
      · simp only [History.step, Tracker.prepareReplace, hmade]
      · obtain ⟨y, hy⟩ := hreplays
        exact exists_taken hy
    | error e =>
      apply hsame _ _ _ hvalue
      · simp only [History.step, Tracker.prepareReplace, hmade]
      · simp only [History.step, Tracker.prepareReplace, hmade]
      · simp only [History.step, Tracker.prepareReplace, hmade]
  | adopt ref =>
    obtain ⟨index, prepared, context, rfl, hprepared, -, -, -, hbase, heq⟩ | ⟨-, e, heq⟩
      := h.tracker.adopt_cases hreplayed.logged.kept ref
    · rw [History.step_adopt_ok heq] at hlog ⊢
      refine ⟨hlog, hreplayed.prepareds, fun done hdone => ?_, ?_⟩
      · rcases List.mem_append.mp hdone with hdone | hdone
        · exact hreplayed.adopted done hdone
        · rw [List.mem_singleton.mp hdone]
          exact hprepared
      · rw [List.map_append]
        exact hreplayed.linked.concat hbase
    · rcases heq with heq | ⟨c, context, -, -, heq⟩
      · have hstep := History.step_adopt_error heq
        exact hsame (by rw [hstep]) (by rw [hstep]) (by rw [hstep]) (by rw [hstep])
      · have hstep := History.step_adopt_error heq
        rw [Tracker.settle_eq] at hstep
        exact hsame (by rw [hstep]) (by rw [hstep]) (by rw [hstep]) (by rw [hstep])

theorem reachable_replayed {owner : Nat} {initial : Value Nat} {h : History}
    (hreach : Run.Reachable History.step Run.always (History.init owner initial) h) :
    h.Replayed initial :=
  hreach.invariant (History.Replayed initial)
    ⟨History.init_logged owner initial, fun _ _ _ hget => absurd hget (by simp [History.init, Tracker.init]),
      nofun, rfl⟩
    fun _ call hreplayed _ => hreplayed.step call

/-! ## Competing changes -/

def Tracker.ThrowsOnUse (t : Tracker) (i : Nat) : Prop :=
  (∃ e, t.state i = .error e) ∧ ∀ overlay, ∃ e, (t.prepare i overlay).2 = .error e

/-- Every operation of a handle throws, but the read of `then`. -/
def Context.HandlesThrow (context : Context) : Prop :=
  ∀ trap, trap ≠ .readThen → ∃ e, context.trap trap = .error e

/-- By the statuses: a prepared change of this tracker that is prepared, over the current revision. -/
theorem adopt_ok_iff (h : t.Kept) (ref : Option PreparedRef) :
    (∃ prepared, (t.adopt ref).2 = .ok prepared)
      ↔ ∃ index prepared context, ref = some ⟨t.owner, index⟩ ∧ t.prepareds[index]? = some prepared
        ∧ t.contexts[prepared.context]? = some context ∧ context.status = .prepared
        ∧ context.baseRevision = t.revision := by
  obtain ⟨index, prepared, context, href, hprepared, hcontext, hready, hrevision, -, heq⟩ | ⟨hnot, e, heq⟩
    := t.adopt_cases h ref
  · rw [heq]
    exact ⟨fun _ => ⟨index, prepared, context, href, hprepared, hcontext, hready, hrevision⟩,
      fun _ => ⟨prepared, rfl⟩⟩
  · have herror : (t.adopt ref).2 = .error e := by
      rcases heq with heq | ⟨c, context, -, -, heq⟩
      · rw [heq]
      · rw [heq]
    rw [herror]
    constructor
    · rintro ⟨prepared, hok⟩
      cases hok
    · exact fun hawaits => absurd hawaits hnot

theorem adopt_ok (h : t.Kept) {ref : Option PreparedRef} {prepared : PreparedImpl}
    (hok : (t.adopt ref).2 = .ok prepared) :
    (t.adopt ref).1 = t.adopted prepared ∧ prepared.base = t.value ∧ ∃ context,
      t.contexts[prepared.context]? = some context ∧ context.status = .prepared := by
  obtain ⟨index, found, context, -, -, hcontext, hready, -, hbase, heq⟩ | ⟨-, e, heq⟩ := t.adopt_cases h ref
  · rw [heq] at hok ⊢
    cases hok
    exact ⟨rfl, hbase, context, hcontext, hready⟩
  · rcases heq with heq | ⟨c, context, -, -, heq⟩
    · rw [heq] at hok
      cases hok
    · rw [heq] at hok
      cases hok

theorem throwsOnUse_of_settled {change : ChangeImpl} (hchange : t.changes[i]? = some change)
    (hsettled : ∀ c, change.context = some c → ∃ context, t.contexts[c]? = some context
      ∧ context.Settled) : t.ThrowsOnUse i := by
  cases hcontext : change.context with
  | none =>
    constructor
    · refine ⟨.typeError "Cannot use a settled overlay", ?_⟩
      simp [Tracker.state, hchange, hcontext]
    · intro overlay
      simp only [Tracker.prepare, hchange, hcontext, Option.bind_none]
      split
      · exact ⟨_, rfl⟩
      · exact ⟨_, rfl⟩
  | some c =>
    obtain ⟨context, hget, hsettled⟩ := hsettled c hcontext
    constructor
    · refine ⟨.typeError "Cannot use a settled overlay", ?_⟩
      simp [Tracker.state, hchange, hcontext, hget, hsettled.1]
    · intro overlay
      simp only [Tracker.prepare, hchange, hcontext, Option.bind_some, hget, Option.map_some,
        hsettled.assertWritable]
      split
      · exact ⟨_, rfl⟩
      · exact ⟨_, rfl⟩

theorem Context.Settled.handlesThrow {context : Context} (h : context.Settled) :
    context.HandlesThrow := by
  intro trap htrap
  cases trap with
  | readThen => exact absurd rfl htrap
  | read => exact ⟨_, h.assertReadable⟩
  | write => exact ⟨_, h.assertWritable⟩

/-- What a run only adds to. -/
structure Grows (h h' : History) : Prop where
  based : Based h.tracker h'.tracker
  adopted : h.adopted.length ≤ h'.adopted.length
  begun : ∀ (i : Nat) (begun : Nat × Option Nat), h.begun[i]? = some begun →
    ∃ begun' : Nat × Option Nat, h'.begun[i]? = some begun' ∧ begun'.1 = begun.1

theorem Grows.trans {h h' h'' : History} (hab : Grows h h') (hbc : Grows h' h'') : Grows h h'' := by
  refine ⟨fun c x hx => ?_, hab.adopted.trans hbc.adopted, fun i begun hbegun => ?_⟩
  · obtain ⟨y, hy, heq⟩ := hab.based c x hx
    obtain ⟨z, hz, heq'⟩ := hbc.based c y hy
    exact ⟨z, hz, heq'.trans heq⟩
  · obtain ⟨begun', hbegun', heq⟩ := hab.begun i begun hbegun
    obtain ⟨begun'', hbegun'', heq'⟩ := hbc.begun i begun' hbegun'
    exact ⟨begun'', hbegun'', heq'.trans heq⟩

theorem History.step_grows {h : History} (hkept : h.tracker.Kept) (call : Call) :
    Grows h (h.step call) := by
  refine ⟨History.step_based hkept call, ?_, ?_⟩
  · cases call with
    | adopt ref =>
      unfold History.step
      dsimp only
      split
      · rw [List.length_append]
        exact Nat.le_add_right _ _
      · exact Nat.le_refl _
    | _ =>
      unfold History.step
      dsimp only
      try split
      all_goals exact Nat.le_refl _
  · intro i begun hbegun
    cases call with
    | beginChange =>
      exact ⟨begun, getElem?_append_of_some hbegun,
        rfl⟩
    | prepare j overlay =>
      unfold History.step
      dsimp only
      split
      · refine ⟨_, (List.getElem?_modify _ _ _ _).trans (congrArg _ hbegun), ?_⟩
        split
        · rfl
        · rfl
      · exact ⟨begun, hbegun, rfl⟩
    | abortChange j => exact ⟨begun, hbegun, rfl⟩
    | abortPrepared j => exact ⟨begun, hbegun, rfl⟩
    | _ =>
      unfold History.step
      dsimp only
      split
      all_goals exact ⟨begun, hbegun, rfl⟩

theorem reachable_grows {h later : History} (hkept : h.tracker.Kept)
    (hreach : Run.Reachable History.step Run.always h later) : Grows h later :=
  hreach.relation (fun h => h.tracker.Kept) Grows
    (fun _ => ⟨fun _ x hx => ⟨x, hx, rfl⟩, Nat.le_refl _, fun _ begun hbegun => ⟨begun, hbegun, rfl⟩⟩)
    (fun _ _ _ hab hbc => hab.trans hbc) (fun _ call hkept _ => History.step_kept hkept call)
    (fun _ call hkept _ => History.step_grows hkept call) hkept

/-- No base is newer than the tracker is. -/
theorem Context.settled_of_older (h : t.Kept) {c : Nat} {context : Context}
    (hget : t.contexts[c]? = some context) (hold : context.baseRevision < t.revision) :
    context.Settled := by
  refine (h.released context (List.mem_of_getElem? hget)).resolve_left fun hopen => ?_
  have heq := (h.opened c context hget hopen).1
  omega

/-- **What was open before an adoption** throws on use for ever: its base is older. -/
theorem adopt_settles {h : History} (hlog : h.Logged) {ref : Option PreparedRef}
    {prepared : PreparedImpl} (hok : (h.tracker.adopt ref).2 = .ok prepared) {later : History}
    (hlater : later.Logged)
    (hreach : Run.Reachable History.step Run.always (h.step (.adopt ref)) later) :
    (∀ i < h.tracker.changes.length, later.tracker.ThrowsOnUse i)
      ∧ ∀ c < h.tracker.contexts.length, ∃ context, later.tracker.contexts[c]? = some context
        ∧ context.HandlesThrow := by
  have hgrows := (History.step_grows hlog.kept (.adopt ref)).trans
    (reachable_grows (History.step_kept hlog.kept _) hreach)
  have hmore : h.adopted.length < later.tracker.revision := by
    rw [hlater.counts]
    refine Nat.lt_of_lt_of_le ?_ (reachable_grows (History.step_kept hlog.kept _) hreach).adopted
    unfold History.step
    dsimp only
    split
    · rw [List.length_append]
      exact Nat.lt_succ_self _
    · next heq =>
      rw [heq] at hok
      cases hok
  constructor
  · intro i hi
    rw [← hlog.begun] at hi
    obtain ⟨begun', hbegun', hsince⟩ := hgrows.begun i _ (List.getElem?_eq_getElem hi)
    have hlt := (List.getElem?_eq_some_iff.mp hbegun').1
    rw [hlater.begun] at hlt
    obtain ⟨found, hfound, hdrafts⟩ := hlater.changes i _ (List.getElem?_eq_getElem hlt)
    rw [hbegun'] at hfound
    cases hfound
    apply throwsOnUse_of_settled (List.getElem?_eq_getElem hlt)
    intro c hc
    obtain ⟨-, ⟨context, hget, hbase⟩, -⟩ := hdrafts.drafting c hc
    refine ⟨context, hget, Context.settled_of_older hlater.kept hget ?_⟩
    have hle := hlog.sinces _ (List.getElem_mem hi)
    omega
  · intro c hc
    obtain ⟨context, hget, hbase⟩ := hgrows.based c _ (List.getElem?_eq_getElem hc)
    have hle := hlog.kept.revisions _ (List.getElem_mem hc)
    rw [hlog.counts] at hle
    exact ⟨context, hget, (Context.settled_of_older hlater.kept hget (by omega)).handlesThrow⟩

/-- By the calls: the statuses are what the calls make of them. -/
theorem adopt_ok_iff_adoptable {h : History} (hlog : h.Logged) (ref : Option PreparedRef) :
    (∃ prepared, (h.tracker.adopt ref).2 = .ok prepared) ↔ h.Adoptable ref := by
  rw [adopt_ok_iff hlog.kept]
  constructor
  · rintro ⟨index, prepared, context, rfl, hprepared, hcontext, hready, hbase⟩
    obtain ⟨x, entry, hx, hentry, htells⟩ := hlog.prepareds index prepared hprepared
    rw [hcontext] at hx
    cases hx
    exact ⟨index, entry, rfl, hentry, htells.ready hready, by rw [← htells.since, hbase, hlog.counts]⟩
  · rintro ⟨index, entry, rfl, hentry, hunused, hsince⟩
    have hlt := (List.getElem?_eq_some_iff.mp hentry).1
    rw [hlog.entries] at hlt
    have hprepared := List.getElem?_eq_getElem hlt
    obtain ⟨x, entry', hx, hentry', htells⟩ := hlog.prepareds index _ hprepared
    rw [hentry] at hentry'
    cases hentry'
    have hcurrent : entry.since = h.tracker.revision := hsince.trans hlog.counts.symm
    exact ⟨index, _, x, rfl, hprepared, hx, htells.unused hunused hcurrent, htells.since.trans hcurrent⟩

/-- **A tracker is optimistic**: in every run, a prepared change is adopted exactly when it is one of
this tracker that was neither aborted nor adopted and nothing was adopted since its base was taken;
an adoption is one revision further, with the value that was prepared over the one that was there; a
call that throws changes neither value nor revision; and the changes from before an adoption throw on
use for ever. Each adopted batch takes the value it was adopted over to the next; replayed in their
order onto the initial value by the checked replay they can come to nothing but the value of the
tracker, and they do where that replay takes each of them, as it does what drafts of objects and
replacements come to. -/
theorem tracker_is_optimistic {owner : Nat} {initial : Value Nat} {h : History}
    (hreach : Run.Reachable History.step Run.always (History.init owner initial) h) :
    (∀ ref, (∃ prepared, (h.tracker.adopt ref).2 = .ok prepared) ↔ h.Adoptable ref)
      ∧ (∀ ref prepared, (h.tracker.adopt ref).2 = .ok prepared →
        (h.tracker.adopt ref).1.revision = h.tracker.revision + 1
          ∧ (h.tracker.adopt ref).1.value = prepared.value ∧ prepared.base = h.tracker.value)
      ∧ (∀ ref e, (h.tracker.adopt ref).2 = .error e →
        (h.tracker.adopt ref).1.value = h.tracker.value
          ∧ (h.tracker.adopt ref).1.revision = h.tracker.revision)
      ∧ (∀ i overlay e, (h.tracker.prepare i overlay).2 = .error e →
        (h.tracker.prepare i overlay).1.value = h.tracker.value
          ∧ (h.tracker.prepare i overlay).1.revision = h.tracker.revision)
      ∧ (∀ ref prepared, (h.tracker.adopt ref).2 = .ok prepared →
        ∀ later, Run.Reachable History.step Run.always (h.step (.adopt ref)) later →
          (∀ i < h.tracker.changes.length, later.tracker.ThrowsOnUse i)
            ∧ ∀ c < h.tracker.contexts.length, ∃ context, later.tracker.contexts[c]? = some context
              ∧ context.HandlesThrow)
      ∧ (Linked initial (h.adopted.map Prod.snd) h.tracker.value
        ∧ ∀ done ∈ h.adopted, done.2.Replays)
      ∧ (∀ result, applyImmutableBatches initial (h.adopted.map (·.2.ops)) = .ok result →
        result.data = h.tracker.value.data)
      ∧ ((∃ result, applyImmutableBatches initial (h.adopted.map (·.2.ops)) = .ok result)
        ↔ ∀ done ∈ h.adopted, done.2.Accepted)
      ∧ ∀ done ∈ h.adopted, ¬ done.2.Accepted → (∃ entry, h.prepared[done.1]? = some entry
        ∧ entry.general = true) ∧ ∀ op ∈ done.2.ops, op.trusted = true := by
  have hreplayed := reachable_replayed hreach
  have hlog := hreplayed.logged
  have hdone : ∀ done ∈ h.adopted, done.2.Replays ∧ ∃ entry, h.prepared[done.1]? = some entry
      ∧ (entry.general = false → done.2.Accepted) := by
    intro done hdone
    have hget := hreplayed.adopted done hdone
    obtain ⟨-, entry, -, hentry, -⟩ := hlog.prepareds _ _ hget
    obtain ⟨hreplays, haccepted⟩ := hreplayed.prepareds _ _ entry hget hentry
    exact ⟨hreplays, entry, hentry, haccepted⟩
  -- the adopted batches are linked, so that they replay as one list of ops
  have hbatches := hreplayed.linked.replay (fun prepared hmem => by
    obtain ⟨done, hin, rfl⟩ := List.mem_map.mp hmem
    exact (hdone done hin).1)
  have houtcome := applyImmutableBatches_data initial (h.adopted.map (·.2.ops))
  have hflat : (h.adopted.map (·.2.ops)).flatten = (h.adopted.map Prod.snd).flatMap (·.ops) := by
    rw [List.flatMap_map, List.flatMap_def]
  rw [hflat] at houtcome
  refine ⟨adopt_ok_iff_adoptable hlog, fun ref prepared hok => ?_,
    fun ref e herror => adopt_error_value hlog.kept herror, fun i overlay e _ => prepare_value hlog.kept i overlay,
    fun ref prepared hok later hlater => adopt_settles hlog hok
      ((hlog.step (.adopt ref)).reachable hlater) hlater,
    ⟨hreplayed.linked, fun done hmem => (hdone done hmem).1⟩, fun result hresult => ?_, ⟨?_, ?_⟩,
    fun done hmem hnot => ⟨?_, fun op hop => ?_⟩⟩
  · obtain ⟨heq, hbase, -⟩ := adopt_ok hlog.kept hok
    rw [heq]
    exact ⟨rfl, rfl, hbase⟩
  · rw [hresult] at houtcome
    exact ((hbatches _).mp houtcome.symm).2
  · rintro ⟨result, hresult⟩ done hmem
    rw [hresult] at houtcome
    exact ((hbatches _).mp houtcome.symm).1 _ (List.mem_map_of_mem hmem)
  · intro hall
    rw [(hbatches _).mpr ⟨fun prepared hmem => by
      obtain ⟨done, hin, rfl⟩ := List.mem_map.mp hmem
      exact hall done hin, rfl⟩] at houtcome
    obtain ⟨result, hresult, -⟩ := exists_of_outcome houtcome
    exact ⟨result, hresult⟩
  · obtain ⟨-, entry, hentry, haccepted⟩ := hdone done hmem
    refine ⟨entry, hentry, ?_⟩
    rw [← Bool.not_eq_false]
    exact fun hfalse => hnot (haccepted hfalse)
  · by_contra hop'
    obtain ⟨⟨made, hmade, -⟩, -⟩ := hdone done hmem
    unfold materializeOperations at hmade
    rw [if_pos (List.any_eq_true.mpr ⟨op, hop, by simpa using hop'⟩)] at hmade
    exact hnot ⟨made, hmade⟩

/-- Two changes are open at once, and both append to a text and are prepared; the second is aborted,
and after the first is adopted a third is open. -/
def trackedText : Value Nat := .obj 0 [([97], .str [98])]

def appending : Overlay := ⟨some [([], .append [97] [99])], .error .absent⟩

def competing : History :=
  ((History.init 7 trackedText).step .beginChange).step .beginChange

def competed : History :=
  ((competing.step (.prepare 0 appending)).step (.prepare 1 appending)).step (.abortChange 1)

theorem tracker_is_optimistic_competing :
    (∃ prepared, (competed.tracker.adopt (some ⟨7, 0⟩)).2 = .ok prepared)
      ∧ (¬ ∃ prepared, (competed.tracker.adopt (some ⟨7, 1⟩)).2 = .ok prepared)
      ∧ (competed.step (.adopt (some ⟨7, 0⟩))).tracker.ThrowsOnUse 1
      ∧ (∃ result, applyImmutableBatches trackedText [[.a [.key [97]] [99]]] = .ok result)
      ∧ ∀ result, applyImmutableBatches trackedText [[.a [.key [97]] [99]]] = .ok result →
        result.data = (competed.step (.adopt (some ⟨7, 0⟩))).tracker.value.data := by
  have hreach : Run.Reachable History.step Run.always (History.init 7 trackedText) competed :=
    .step _ (.step _ (.step _ (.step _ (.step _ .init trivial) trivial) trivial) trivial) trivial
  have hok : (competed.tracker.adopt (some ⟨7, 0⟩)).2
      = .ok ⟨0, .obj 1 [([97], .str [98, 99])], trackedText, [.a [.key [97]] [99]]⟩ := rfl
  obtain ⟨hadopt, -, -, -, hthrows, -⟩ := tracker_is_optimistic hreach
  obtain ⟨-, -, -, -, -, -, hresult, haccepted, -⟩ := tracker_is_optimistic
    (Run.Reachable.step (.adopt (some ⟨7, 0⟩)) hreach trivial)
  refine ⟨⟨_, hok⟩, fun hother => ?_, (hthrows _ _ hok _ .init).1 1 (by decide), ?_, hresult⟩
  · obtain ⟨index, entry, heq, -, hunused, -⟩ := (hadopt _).mp hother
    cases heq
    exact hunused (.inl (by decide))
  · apply haccepted.mpr
    intro done hdone
    cases List.mem_singleton.mp hdone
    exact ⟨_, rfl⟩

end ThreeXhaust.Delta
