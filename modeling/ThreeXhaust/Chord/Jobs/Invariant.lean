import ThreeXhaust.Chord.Jobs.Commit

/-!
# What holds between the steps of the line

`Inv s owed` is the invariant of a job's records and of its line, while the actions of the adopted
changes `owed` are still to run. A step away from the line changes neither the maps nor the counts, and
no run's key, entry or waiters (`Offline`): the invariant is kept by all of them at once. A run's phase
may change there (`cut`), but never to or from blocked.
-/

namespace ThreeXhaust.Chord.Jobs

variable {J : Type}

namespace State

structure TxSound (s : State J) (tx : Transaction J) : Prop where
  staged : Staged s.toRecords tx.staging.finishing tx.staging.changes
  starts : tx.starts = true → tx.staging.changes = tx.staging.started.map .create ++
    (if tx.stage = .stepping then (tx.staging.finishing.map .delete).toList else [])
  plain : tx.starts = false → tx.staging.started = [] ∧ tx.staging.finishing = none ∧
    (tx.loads = false → tx.staging.changes.filterMap Adopted.new = [])
  loads : tx.loads = true → tx.starts = false
  unsettled : ∀ r ∈ tx.staging.changes.filterMap Adopted.new, (s.run r).waiters.settled = none
  live : tx.staging.started ≠ [] → s.live = true
  finishing : ∀ f, tx.staging.finishing = some f → f < s.made ∧ f ∉ tx.staging.started

def createdIn (s : State J) (tx : Transaction J) : List Nat :=
  if tx.stage = .adopted ∧ s.isEnded = false then [] else createds tx.staging.changes

/-- The created runs that are in no map: those of the transaction on the line, and of the cut ones. -/
def created (s : State J) : List Nat :=
  (match s.holder with | some tx => s.createdIn tx | none => []) ++
    s.cuts.flatMap fun staging => createds staging.changes

/-- What the concurrency check of a transaction's starts leaves until they are adopted: the definition
the job has now allows them. -/
def Within (s : State J) (tx : Transaction J) : Prop :=
  tx.stage ≠ .adopted → tx.staging.started ≠ [] →
    ∀ c ∈ s.definition.concurrency, s.activeIn tx.staging ≤ (c : Nat)

/-- **The invariant**, with the actions of the adopted changes `owed` still to run. -/
structure Inv (s : State J) (owed : List (Adopted J)) : Prop where
  kept : s.isDropped = false → s.Kept none
  counted : s.isEnded = false → s.counted = s.active + (owed.countP Adopted.uncounts : Nat)
  ended : s.isEnded = true → s.counted = 0
  dropped : s.isDropped = true → s.isEnded = true
  once : ∀ r, (s.run r).waiters.Once
  unsettled : s.isEnded = false → ∀ r ∈ s.runs, (s.run r).waiters.settled = none
  settled : s.isEnded = true → ∀ r ∈ s.runs, (s.run r).waiters.settled.isSome
  gone : s.isEnded = false → ∀ r ∈ owed.filterMap Adopted.gone, r ∉ s.runs
  fate : ∀ r, (s.run r).waiters.settled = none →
    (s.isEnded = false ∧ (r ∈ s.runs ∨ r ∈ owed.filterMap Adopted.gone)) ∨ r ∈ s.created ∨
      ((s.run r).started = false ∧ (s.run r).waiters.waiting = [])
  holder : s.isEnded = false → ∀ tx, s.holder = some tx → tx.stage ≠ .adopted → s.TxSound tx
  within : ∀ tx, s.holder = some tx → s.Within tx
  shut : s.isEnded = true → ∀ tx, s.holder = some tx → tx.stage ≠ .open
  cuts : ∀ r ∈ s.cuts.flatMap fun staging => createds staging.changes, r < s.made ∧ r ∉ s.runs ∧
    ∀ tx, s.holder = some tx → r ∉ tx.staging.changes.filterMap Adopted.new
  live : s.live = true → s.persisted = true → s.load = .done
  reading : ∀ stored, s.load = .reading stored → s.persisted = true
  staged : ∀ tx, s.holder = some tx → tx.loads = true → s.load = .staged
  unloaded : s.live = false → s.load ≠ .done →
    (∃ tx, s.holder = some tx ∧ tx.loads = true ∧ tx.stage = .adopted) ∨
      (s.runs = [] ∧ ∀ key, s.keys key = none)

/-! ## Away from the line -/

/-- The maps, the counts, the line's transactions and the load are as they were, and of the runs neither
keys and waiters nor whether they are blocked. -/
structure Quiet (s t : State J) : Prop where
  made : t.made = s.made
  runs : t.runs = s.runs
  keys : t.keys = s.keys
  active : t.active = s.active
  counted : t.counted = s.counted
  key : ∀ r, (t.run r).key = (s.run r).key
  waiters : ∀ r, (t.run r).waiters = (s.run r).waiters
  started : ∀ r, (t.run r).started = (s.run r).started
  blocked : ∀ r, (t.run r).phase = .blocked ↔ (s.run r).phase = .blocked
  holder : t.holder = s.holder
  cuts : t.cuts = s.cuts
  isEnded : t.isEnded = s.isEnded
  isDropped : t.isDropped = s.isDropped
  live : t.live = s.live
  load : t.load = s.load
  persisted : t.persisted = s.persisted

/-- A step away from the line, which leaves `running` and the definition alone too. -/
structure Offline (s t : State J) : Prop extends Quiet s t where
  definition : t.definition = s.definition
  running : t.running = s.running
  tags : t.tags = s.tags
  entry : ∀ r, (t.run r).entry = (s.run r).entry

variable {s t u : State J} {owed : List (Adopted J)} {r : Nat}

/-- A job that has not ended is not dropped either, so that its books are kept. -/
theorem Inv.books (h : s.Inv owed) (hended : s.isEnded = false) : s.Kept none := by
  refine h.kept (Bool.eq_false_iff.mpr fun hdropped => ?_)
  rw [h.dropped hdropped] at hended
  cases hended

theorem Offline.of (hrecords : t.toRecords = s.toRecords) (hholder : t.holder = s.holder)
    (hcuts : t.cuts = s.cuts) (hended : t.isEnded = s.isEnded) (hdropped : t.isDropped = s.isDropped)
    (hlive : t.live = s.live) (hload : t.load = s.load) (hpersisted : t.persisted = s.persisted)
    (hdefinition : t.definition = s.definition) : Offline s t := by
  refine ⟨⟨?_, ?_, ?_, ?_, ?_, ?_, ?_, ?_, ?_, hholder, hcuts, hended, hdropped, hlive, hload,
    hpersisted⟩, hdefinition, ?_, ?_, ?_⟩ <;> simp only [hrecords, implies_true]

theorem Offline.refl : Offline s s :=
  .of rfl rfl rfl rfl rfl rfl rfl rfl rfl

theorem Offline.trans (h : Offline s t) (h' : Offline t u) : Offline s u where
  made := h'.made.trans h.made
  runs := h'.runs.trans h.runs
  keys := h'.keys.trans h.keys
  active := h'.active.trans h.active
  counted := h'.counted.trans h.counted
  definition := h'.definition.trans h.definition
  running := h'.running.trans h.running
  tags := h'.tags.trans h.tags
  key r := (h'.key r).trans (h.key r)
  entry r := (h'.entry r).trans (h.entry r)
  waiters r := (h'.waiters r).trans (h.waiters r)
  started r := (h'.started r).trans (h.started r)
  blocked r := (h'.blocked r).trans (h.blocked r)
  holder := h'.holder.trans h.holder
  cuts := h'.cuts.trans h.cuts
  isEnded := h'.isEnded.trans h.isEnded
  isDropped := h'.isDropped.trans h.isDropped
  live := h'.live.trans h.live
  load := h'.load.trans h.load
  persisted := h'.persisted.trans h.persisted

theorem Offline.foldl {α : Type} {f : State J → α → State J} (h : ∀ t a, Offline t (f t a))
    (list : List α) (s : State J) : Offline s (list.foldl f s) := by
  induction list generalizing s with
  | nil => exact .refl
  | cons a rest ih => exact (h s a).trans (ih _)

theorem Offline.kept (h : Offline s t) {leaving : Option Nat} (hkept : s.Kept leaving) :
    t.Kept leaving := by
  refine ⟨h.runs ▸ hkept.nodup, ?_, ?_, ?_, ?_, ?_, ?_, h.running ▸ hkept.tags, ?_⟩
  · rw [h.runs, h.made]
    exact hkept.made
  · intro key r hr
    rw [h.keys] at hr
    rw [h.runs, h.key]
    exact hkept.keysRun key r hr
  · intro r hr hne key hk
    rw [h.runs] at hr
    rw [h.key] at hk
    rw [h.keys]
    exact hkept.runKeys r hr hne key hk
  · rw [h.active, hkept.active, h.runs]
    congr 1
    refine List.countP_congr fun x _ => ?_
    simp only [Records.counts, ne_eq, h.blocked x]
  · rw [h.running, h.runs, hkept.entries]
    exact List.map_congr_left fun x _ => (h.entry x).symm
  · intro r hr e he
    rw [h.runs] at hr
    rw [h.entry] at he
    exact hkept.owner r hr e he
  · rw [h.running, h.tags]
    exact hkept.tagged

theorem Quiet.stagedChanges (h : Quiet s t) {leaving : Option Nat} {changes : List (Adopted J)}
    (hstaged : Staged s.toRecords leaving changes) : Staged t.toRecords leaving changes := by
  refine ⟨hstaged.nodup, ?_, ?_, ?_, hstaged.once, ?_, hstaged.alone⟩
  · rw [h.made, h.runs]
    exact hstaged.fresh
  · simp only [h.key]
    exact hstaged.keys
  · intro r hr key hk
    rw [h.key] at hk
    rw [h.keys]
    exact hstaged.free r hr key hk
  · intro r phase hmem
    rw [h.runs, h.blocked]
    exact hstaged.blocked r phase hmem

theorem Quiet.inv (h : Quiet s t) (hinv : s.Inv owed) (hkept : s.Kept none → t.Kept none)
    (hwithin : ∀ tx, s.holder = some tx → s.Within tx → t.Within tx) : t.Inv owed := by
  have hcreated : t.created = s.created := by
    unfold created createdIn
    rw [h.holder, h.cuts, h.isEnded]
  refine ⟨?_, ?_, ?_, ?_, ?_, ?_, ?_, ?_, ?_, ?_, ?_, ?_, ?_, ?_, ?_, ?_, ?_⟩
  · rw [h.isDropped]
    exact fun hdropped => hkept (hinv.kept hdropped)
  · rw [h.isEnded, h.counted, h.active]
    exact hinv.counted
  · rw [h.isEnded, h.counted]
    exact hinv.ended
  · rw [h.isDropped, h.isEnded]
    exact hinv.dropped
  · simp only [h.waiters]
    exact hinv.once
  · rw [h.isEnded, h.runs]
    simp only [h.waiters]
    exact hinv.unsettled
  · rw [h.isEnded, h.runs]
    simp only [h.waiters]
    exact hinv.settled
  · rw [h.isEnded, h.runs]
    exact hinv.gone
  · rw [h.isEnded, h.runs, hcreated]
    simp only [h.waiters, h.started]
    exact hinv.fate
  · rw [h.isEnded, h.holder]
    intro hended tx htx hstage
    have htx' := hinv.holder hended tx htx hstage
    refine ⟨h.stagedChanges htx'.staged, htx'.starts, htx'.plain, htx'.loads, ?_, h.live ▸ htx'.live,
      h.made ▸ htx'.finishing⟩
    simp only [h.waiters]
    exact htx'.unsettled
  · rw [h.holder]
    exact fun tx htx => hwithin tx htx (hinv.within tx htx)
  · rw [h.isEnded, h.holder]
    exact hinv.shut
  · rw [h.cuts, h.made, h.runs, h.holder]
    exact hinv.cuts
  · rw [h.live, h.persisted, h.load]
    exact hinv.live
  · rw [h.load, h.persisted]
    exact hinv.reading
  · rw [h.holder, h.load]
    exact hinv.staged
  · rw [h.live, h.load, h.holder, h.runs, h.keys]
    exact hinv.unloaded

/-- **A step away from the line keeps the invariant.** -/
theorem Offline.inv (h : Offline s t) (hinv : s.Inv owed) : t.Inv owed :=
  h.toQuiet.inv hinv h.kept fun tx _ hwithin => by
    unfold Within activeIn
    rw [h.definition, h.active]
    exact hwithin

theorem Offline.setRun (r : Nat) {f : JobRun J → JobRun J} (hkey : (f (s.run r)).key = (s.run r).key)
    (hentry : (f (s.run r)).entry = (s.run r).entry)
    (hwaiters : (f (s.run r)).waiters = (s.run r).waiters)
    (hstarted : (f (s.run r)).started = (s.run r).started)
    (hblocked : (f (s.run r)).phase = .blocked ↔ (s.run r).phase = .blocked) :
    Offline s (s.setRun r f) := by
  have hrun (x : Nat) : (s.setRun r f).run x = if x = r then f (s.run r) else s.run x :=
    Records.setRun_run _ r f x
  refine ⟨⟨rfl, rfl, rfl, rfl, rfl, fun x => ?_, fun x => ?_, fun x => ?_, fun x => ?_, rfl, rfl, rfl,
    rfl, rfl, rfl, rfl⟩, rfl, rfl, rfl, fun x => ?_⟩ <;>
  · rw [hrun]
    split
    · next heq => subst heq; assumption
    · rfl

theorem Offline.push (s : State J) (body : Body J) : Offline s (s.push body) :=
  .of rfl rfl rfl rfl rfl rfl rfl rfl rfl

theorem Offline.invoked (s : State J) (r : Nat) (invoked : Bool) :
    Offline s (s.setRun r fun run => { run with invoked }) :=
  .setRun r rfl rfl rfl rfl Iff.rfl

theorem Offline.dispatch (s : State J) (r : Nat) : Offline s (s.dispatch r) := by
  have hinvoke (t : State J) : Offline t (t.invoke r) := by
    unfold State.invoke
    split
    · exact (Offline.invoked t r true).trans (.push _ _)
    · exact .invoked t r true
  unfold State.dispatch
  split
  · exact .refl
  split
  · exact .push _ _
  split
  · exact .push _ _
  split
  · exact .refl
  split
  · exact .push _ _
  split
  · exact .push _ _
  · have hresume : Offline s (s.setRun r fun run => { run with resuming := false }) :=
      .setRun r rfl rfl rfl rfl Iff.rfl
    exact hresume.trans (hinvoke _)

theorem Offline.need (s : State J) (r : Nat) : Offline s (s.need r) := by
  unfold State.need
  split
  · exact .refl
  split
  · split
    · exact .refl
    · exact .push _ _
  split
  · exact .of rfl rfl rfl rfl rfl rfl rfl rfl rfl
  · exact .dispatch s r

theorem Offline.needAll (s : State J) (runs : List Nat) : Offline s (s.needAll runs) :=
  .foldl Offline.need runs s

theorem Offline.detach (s : State J) (j : Nat) (finishing : List Nat) :
    Offline s (s.detach j finishing) := by
  unfold State.detach
  split
  · have hnone : Offline s { s with job := none } := .of rfl rfl rfl rfl rfl rfl rfl rfl rfl
    exact hnone.trans (.needAll _ finishing)
  · exact .needAll s finishing

theorem Offline.undeclare (s : State J) : Offline s s.undeclare := by
  unfold State.undeclare
  split
  · exact .refl
  · have hnone : Offline s { s with declared := false, job := none, waiting := [] } :=
      .of rfl rfl rfl rfl rfl rfl rfl rfl rfl
    exact hnone.trans (.foldl (fun t r => .push t _) s.waiting _)

theorem Offline.retryBlocked (s : State J) : Offline s s.retryBlocked := by
  unfold State.retryBlocked
  split
  · exact .refl
  split
  · exact .of rfl rfl rfl rfl rfl rfl rfl rfl rfl
  · exact .refl

theorem Offline.read (s : State J) (ok : Bool) : Offline s (s.read ok) := by
  unfold State.read
  split
  · exact .refl
  · split
    · exact .of rfl rfl rfl rfl rfl rfl rfl rfl rfl
    · exact .of rfl rfl rfl rfl rfl rfl rfl rfl rfl

theorem Offline.cut (s : State J) (r : Nat) (reload : Bool)
    (hphase : s.persisted = true → (s.run r).phase ≠ .blocked) : Offline s (s.cut r reload) := by
  have hfenced : Offline s (s.setRun r fun run => { run with invoked := false }) := .invoked s r false
  unfold State.cut
  split
  · next hpersisted =>
    have hnot : ((s.setRun r fun run => { run with invoked := false }).run r).phase ≠ .blocked :=
      fun hblocked => hphase hpersisted ((hfenced.blocked r).mp hblocked)
    have hstopped : Offline (s.setRun r fun run => { run with invoked := false })
        ((s.setRun r fun run => { run with invoked := false }).setRun r fun run =>
          { run with phase := .stopped, resuming := true }) :=
      .setRun r rfl rfl rfl rfl ⟨nofun, fun hblocked => absurd hblocked hnot⟩
    exact (hfenced.trans hstopped).trans (.need _ r)
  · split
    · exact hfenced
    · exact hfenced.trans (.push _ _)

theorem Offline.finishFailed (s : State J) (r : Nat) : Offline s (s.finishFailed r) := by
  dsimp only [State.finishFailed]
  split <;> exact .push _ _

theorem Offline.abort (s : State J) (r : Nat) : Offline s (s.abort r) := by
  unfold State.abort
  split
  · exact .refl
  split
  · exact .push _ _
  split
  · exact .refl
  · exact .push _ _

theorem Offline.runMicrotask (s : State J) : Offline s s.runMicrotask := by
  unfold State.runMicrotask
  split
  · next r rest _ =>
    have hrest : Offline s { s with microtasks := rest } := .of rfl rfl rfl rfl rfl rfl rfl rfl rfl
    exact hrest.trans (.need _ r)
  · exact .refl

end State

end ThreeXhaust.Chord.Jobs
