import ThreeXhaust.Chord.Jobs.LineCommit
import ThreeXhaust.Lib.Run

/-!
# Run accounting over whole runs

`Accounted` is what the records of a job promise in every state reached: `#active`, the sum passed to
`countRuns`, `#keys`, the concurrency of starts, the waiters and `running`. `accounting_of_timely` proves it
for every interleaving whose steps find the runs as they were decided for (`State.Timely`).

Without that it fails in three ways. A decision is checked again on the line by the identity of its run
alone, so that a drop decided on a blocked run is adopted after a reload unblocked it, and `#active` keeps
counting a run that is gone. And the actions of an adopted change are skipped when the object ends before
them: the object is counted for the run that finished, and its waiters wait for ever. And a definition
that comes between a start and its commit may allow fewer runs than were started.
-/

namespace ThreeXhaust.Chord.Jobs

variable {J : Type}

namespace State

/-- The runs whose life is not over: those of the job while its object lives, those that a transaction on
the line or a cut one created, and those whose end is adopted and whose actions are still to run. -/
def Alive (s : State J) (r : Nat) : Prop :=
  (s.isEnded = false ∧ (r ∈ s.runs ∨ r ∈ s.owed.filterMap Adopted.gone)) ∨ r ∈ s.created

/-- A step that adopts the starts of the transaction on the line leaves `#active` within the job's
concurrency. -/
def StartsWithin (s t : State J) : Prop :=
  ∀ tx ∈ s.holder, tx.stage ≠ .adopted → tx.staging.started ≠ [] →
    ∀ tx' ∈ t.holder, tx'.stage = .adopted → ∀ c ∈ t.definition.concurrency, t.active ≤ (c : Nat)

/-- **What the records of a job promise**, whatever happened before. -/
structure Accounted (s : State J) : Prop where
  /-- `#active` is the number of runs that are not blocked. -/
  active : s.isDropped = false → s.active = (s.runs.countP fun r => (s.run r).phase ≠ .blocked : Nat)
  /-- The object is counted for as many runs, once the actions after the commit ran. -/
  counted : s.isEnded = false → (∀ tx, s.holder = some tx → tx.stage ≠ .adopted) → s.counted = s.active
  ended : s.isEnded = true → s.counted = 0
  /-- `#keys` names an unsettled run with that key. -/
  keys : s.isDropped = false → ∀ key r, s.keys key = some r → r ∈ s.runs ∧ (s.run r).key = some key
  oneKey : s.isDropped = false → ∀ r ∈ s.runs, ∀ r' ∈ s.runs, ∀ key, (s.run r).key = some key →
    (s.run r').key = some key → r = r'
  /-- A start never raises `#active` above the job's concurrency: `commit` and `adopt` adopt one. -/
  starts : ∀ input, input = .commit ∨ input = .adopt → s.Timely input → s.StartsWithin (s.step input)
  /-- Every wait is answered once at most, and all of a run's with one answer. -/
  once : ∀ r, (s.run r).waiters.Once
  unsettled : s.isEnded = false → ∀ r ∈ s.runs, (s.run r).waiters.settled = none
  /-- A wait is open only while its run's life is. -/
  settled : ∀ r, (s.run r).waiters.waiting ≠ [] → s.Alive r
  /-- `running` has one entry of each run, in start order. -/
  running : s.isDropped = false → s.running.map (·.id) = s.runs

theorem Inv.startsWithin {s : State J} (h : s.Inv s.owed) {input : Input J}
    (hinput : input = .commit ∨ input = .adopt) (htimely : s.Timely input) :
    s.StartsWithin (s.step input) := by
  intro tx htx hstage hne tx' htx' hadopted c hc
  rcases hinput with rfl | rfl
  · change tx' ∈ s.commit.holder at htx'
    change c ∈ s.commit.definition.concurrency at hc
    show s.commit.active ≤ c
    by_cases hopen : tx.stage = .open
    · obtain ⟨-, hstarted, -⟩ := closed_eq tx
      have hentered : s.enterStep = { s with holder := some { tx.closed with stage := .stepping } } := by
        unfold State.enterStep
        rw [htx]
        exact if_pos hopen
      rw [commit_eq htx hopen] at hc ⊢
      rw [adopt_definition, hentered] at hc
      have hinv := h.enterStep
      rw [hentered] at hinv ⊢
      refine hinv.adopt_active_le rfl rfl ?_ (fun hended => htimely hended tx htx hopen) hc
      show tx.closed.staging.started ≠ []
      rwa [hstarted]
    · have heq : s.commit = s := by
        unfold State.commit
        rw [htx]
        exact if_neg hopen
      rw [heq, htx] at htx'
      cases htx'
      exact absurd hadopted hstage
  · change tx' ∈ s.adopt.holder at htx'
    change c ∈ s.adopt.definition.concurrency at hc
    by_cases hstepping : tx.stage = .stepping
    · rw [adopt_definition] at hc
      exact h.adopt_active_le htx hstepping hne (fun hended => htimely hended tx htx hstepping) hc
    · have heq : s.adopt = s := by
        unfold State.adopt
        rw [htx]
        exact if_neg hstepping
      rw [heq, htx] at htx'
      cases htx'
      exact absurd hadopted hstage

theorem Inv.accounted {s : State J} (h : s.Inv s.owed) : s.Accounted where
  active hdropped := (h.kept hdropped).active
  counted hended hstage := by
    have hcounted := h.counted hended
    have howed : s.owed = [] := by
      unfold owed
      split
      · next tx htx => exact if_neg fun hadopted => hstage tx htx hadopted.1
      · rfl
    rw [howed, List.countP_nil] at hcounted
    simpa using hcounted
  ended := h.ended
  keys hdropped := (h.kept hdropped).keysRun
  oneKey hdropped r hr r' hr' key hk hk' := by
    have hkept := h.kept hdropped
    have hnames := hkept.runKeys r hr nofun key hk
    exact Option.some_inj.mp (hnames.symm.trans (hkept.runKeys r' hr' nofun key hk'))
  starts _ hinput htimely := h.startsWithin hinput htimely
  once := h.once
  unsettled := h.unsettled
  settled r hr := by
    have hnone : (s.run r).waiters.settled = none := by
      by_contra hsome
      exact hr ((h.once r).closed (Option.isSome_iff_ne_none.mpr hsome))
    rcases h.fate r hnone with hlive | hcreated | ⟨-, hnil⟩
    · exact .inl hlive
    · exact .inr hcreated
    · exact absurd hnil hr
  running hdropped := by
    have hkept := h.kept hdropped
    -- an entry and its run have one place
    refine List.ext_getElem? fun i => ?_
    have hentries := congrArg (·[i]?) hkept.entries
    simp only [List.getElem?_map] at hentries ⊢
    cases hr : s.runs[i]? with
    | none =>
      rw [hr] at hentries
      cases he : s.running[i]? with
      | none => rfl
      | some e => rw [he] at hentries; cases hentries
    | some r =>
      rw [hr] at hentries
      cases he : s.running[i]? with
      | none => rw [he] at hentries; cases hentries
      | some e =>
        rw [he] at hentries
        have hentry : (s.run r).entry = some e := (Option.some_inj.mp hentries).symm
        exact congrArg some (hkept.owner r (List.mem_of_getElem? hr) e hentry)

/-- **Every timely step keeps the invariant.** -/
theorem Inv.step {s : State J} (h : s.Inv s.owed) {input : Input J} (htimely : s.Timely input) :
    (s.step input).Inv (s.step input).owed := by
  have hoffline {t : State J} (hst : Offline s t) : t.Inv t.owed := by
    have howed : t.owed = s.owed := by
      unfold owed
      rw [hst.holder, hst.isEnded]
    rw [howed]
    exact hst.inv h
  -- a step that leaves the line's transaction alone leaves the same actions due
  have hsame {t : State J} (hholder : t.holder = s.holder) (hended : t.isEnded = s.isEnded)
      (ht : t.Inv s.owed) : t.Inv t.owed := by
    have howed : t.owed = s.owed := by
      unfold owed
      rw [hholder, hended]
    rw [howed]
    exact ht
  cases input with
  | load stored =>
    have hframe : (s.loadRecords stored).holder = s.holder ∧ (s.loadRecords stored).isEnded = s.isEnded := by
      unfold State.loadRecords
      split
      · split <;> exact ⟨rfl, rfl⟩
      · exact ⟨rfl, rfl⟩
    exact hsame hframe.1 hframe.2 (h.loadRecords stored)
  | attach j =>
    have hframe : (s.attach j).holder = s.holder ∧ (s.attach j).isEnded = s.isEnded := by
      unfold State.attach
      split
      · exact ⟨rfl, rfl⟩
      · have hfold := Offline.foldl Offline.dispatch s.waiting
          { s with job := some j, live := true, waiting := [] }
        exact ⟨hfold.holder, hfold.isEnded⟩
    exact hsame hframe.1 hframe.2 (h.attach j)
  | detach j finishing => exact hoffline (.detach s j finishing)
  | undeclare => exact hoffline (.undeclare s)
  | redefine definition =>
    cases definition with
    | none => exact hsame rfl rfl (h.redefine none htimely)
    | some d => exact hsame rfl rfl (h.redefine (some d) htimely)
  | retryBlocked => exact hoffline (.retryBlocked s)
  | read ok => exact hoffline (.read s ok)
  | endObject => exact h.endObject htimely
  | drop => exact h.drop
  | settled r ended => exact hoffline ((Offline.invoked s r false).trans (.push _ _))
  | cut r reload => exact hoffline (.cut s r reload htimely)
  | unreserved r => exact hoffline (.invoked s r false)
  | requeue r => exact hoffline (.need s r)
  | finish r => exact hoffline (.push s _)
  | finishFailed r => exact hoffline (.finishFailed s r)
  | progress r value => exact hoffline (.push s _)
  | plugin => exact hoffline (.push s _)
  | abort r => exact hoffline (.abort s r)
  | wait r =>
    have hframe : (s.wait r).holder = s.holder ∧ (s.wait r).isEnded = s.isEnded := by
      unfold State.wait
      split <;> exact ⟨rfl, rfl⟩
    exact hsame hframe.1 hframe.2 (h.wait r)
  | leave r w => exact hsame rfl rfl (h.leave r w)
  | microtask => exact hoffline (.runMicrotask s)
  | take => exact h.take
  | takeLoad => exact h.takeLoad
  | refuse => exact hoffline (.of rfl rfl rfl rfl rfl rfl rfl rfl rfl)
  | start args key => exact h.start args key
  | commit =>
    show s.commit.Inv s.commit.owed
    cases hholder : s.holder with
    | none =>
      have heq : s.commit = s := by
        unfold State.commit
        rw [hholder]
      rw [heq]
      exact h
    | some tx =>
      by_cases hstage : tx.stage = .open
      · rw [commit_eq hholder hstage]
        refine h.enterStep.adopt fun hended tx' htx' _ => ?_
        have hentered : s.enterStep = { s with holder := some { tx.closed with stage := .stepping } } := by
          unfold State.enterStep
          rw [hholder]
          exact if_pos hstage
        rw [hentered] at hended htx' ⊢
        cases htx'
        exact htimely hended tx hholder hstage
      · have heq : s.commit = s := by
          unfold State.commit
          rw [hholder]
          exact if_neg hstage
        rw [heq]
        exact h
  | enterStep => exact h.enterStep
  | adopt => exact h.adopt htimely
  | settle => exact h.settle
  | discard => exact h.discard
  | cutHolder => exact h.cutHolder
  | settleCut n => exact h.settleCut n

variable [Inhabited J]

theorem Inv.init (definition : JobDefinition J) : (State.init definition).Inv [] where
  kept _ :=
    { nodup := List.nodup_nil
      made := nofun
      keysRun := nofun
      runKeys := nofun
      active := rfl
      entries := rfl
      owner := nofun
      tags := List.nodup_nil
      tagged := nofun }
  counted _ := rfl
  ended := nofun
  dropped := nofun
  once _ := .new
  unsettled _ := nofun
  settled := nofun
  gone _ := nofun
  fate _ _ := .inr (.inr ⟨rfl, rfl⟩)
  holder _ := nofun
  within := nofun
  shut := nofun
  cuts := nofun
  live := nofun
  reading := nofun
  staged := nofun
  unloaded _ _ := .inr ⟨rfl, fun _ => rfl⟩

end State

/-- **Run accounting**: in every run whose steps find the job's runs as they were decided for, every
state reached accounts for them. -/
theorem accounting_of_timely [Inhabited J] (definition : JobDefinition J) {s : State J}
    (h : Run.Reachable State.step State.Timely (State.init definition) s) : s.Accounted := by
  refine State.Inv.accounted (h.invariant (fun s => s.Inv s.owed) ?_ ?_)
  · exact State.Inv.init definition
  · exact fun s input hs hinput => hs.step hinput

section Runs

def aJob : JobDefinition Unit where
  version := 1
  fingerprint := "f"
  concurrency := some 1
  accepts := fun _ => none
  initial := none
  persist := none

def finishes : List (Input Unit) :=
  [.attach 0, .plugin, .take, .start () (some "k"), .commit, .settle, .microtask, .wait 0,
    .settled 0 (.done ()), .take, .commit, .settle, .take, .commit, .settle]

theorem accounting_finishes : (finishes.foldl State.step (State.init aJob)).Accounted :=
  accounting_of_timely aJob (Run.reachable_foldl .init (by decide))

/-- A blocked run is aborted while a reload's transaction that unblocks it waits for the line. -/
def drops : List (Input Unit) :=
  [.attach 0, .plugin, .take, .start () none, .commit, .settle, .microtask, .detach 0 [],
    .settled 0 (.done ()), .take, .commit, .settle, .undeclare, .take, .commit, .settle, .redefine none,
    .attach 1, .retryBlocked, .read true, .abort 0, .take, .commit, .settle, .take, .commit]

/-- The object ends between the adoption of a finish in the store's step and its actions. -/
def ends : List (Input Unit) :=
  [.attach 0, .plugin, .take, .start () none, .commit, .settle, .microtask, .wait 0,
    .settled 0 (.done ()), .take, .commit, .settle, .take, .enterStep, .adopt, .endObject, .settle]

/-- A reload allows one run where two were started. -/
def lowers : List (Input Unit) :=
  [.attach 0, .plugin, .take, .start () none, .start () none, .redefine (some aJob)]

/-- **The claim fails**: after the stale drop one run is active and there is none; after the early end the
object is still counted for a run, whose waiter nothing answers; and two runs are adopted where the job
allows one. -/
theorem accounting_fails :
    ¬ (drops.foldl State.step (State.init aJob)).Accounted ∧
      ¬ (ends.foldl State.step (State.init aJob)).Accounted ∧
        let started := lowers.foldl State.step (State.init { aJob with concurrency := some 2 })
        ¬ started.StartsWithin (started.step .commit) := by
  refine ⟨?_, ?_, ?_⟩
  · intro h
    have := h.active (by decide)
    revert this
    decide
  · intro h
    have := h.ended (by decide)
    revert this
    decide
  · intro started h
    have hwithin : (started.step .commit).active ≤ (1 : Nat) :=
      h _ rfl (by decide) (by decide) _ rfl rfl 1 rfl
    revert hwithin
    decide

end Runs

end ThreeXhaust.Chord.Jobs
