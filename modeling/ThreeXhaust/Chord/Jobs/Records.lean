import ThreeXhaust.Chord.Jobs.Running
import ThreeXhaust.Lib.Oneshot
import Mathlib.Logic.Function.Basic

/-!
# The records of one job on one object

`JobRecords`: the runs by id and by key, the active count, `running`, and the runs' waiters. Records
change in two phases: `adopt`, inside the commit step of a transaction, and `committed`, the actions
once the object's line is free. `Records` is what these two change; who decides the changes, and when
they reach the line, is `State` (`Chord.Jobs.Line`).

A run is named by the number of its object: the ids are UUIDs, which never repeat, so that the check
`#runs.get(run.id) === run` of the source is membership here. JSON values are of any type `J`.
-/

namespace ThreeXhaust.Chord.Jobs

inductive AbortReason where
  | abort | reload | restart
  deriving DecidableEq, Repr

inductive JobError where
  | threw (message : String)
  | aborted (reason : AbortReason)
  | restartLimit (restarts : Nat)
  deriving DecidableEq, Repr

/-- How a run's invocation ended, before its outcome is recorded. -/
inductive Settled (J : Type) where
  | done (result : J)
  | failed (error : JobError)

structure Outcome (J : Type) where
  args : J
  state : Option J
  ended : Settled J

inductive Rejection where
  /-- The object ended. -/
  | ended
  /-- The start's transaction was discarded. -/
  | discarded
  /-- The blocked run was aborted. -/
  | dropped
  deriving DecidableEq, Repr

inductive Answer (J : Type) where
  | done (outcome : Option (Outcome J))
  | failed (error : Rejection)

inductive Resume where
  | rerun | abandon
  deriving DecidableEq, Repr

/-- An older version's mappings forwards; `none` is one that throws. -/
structure Accepts (J : Type) where
  args : J → Option J
  result : J → Option J

structure JobDefinition (J : Type) where
  version : Nat
  fingerprint : String
  concurrency : Option Nat
  accepts : Nat → Option (Accepts J)
  /-- The state document a new run starts with, when the job has one. -/
  initial : Option J
  persist : Option Resume

structure JobRun (J : Type) where
  version : Nat
  fingerprint : String
  key : Option String
  args : J
  phase : Phase
  restarts : Nat := 0
  finishFailures : Nat := 0
  abortMarked : Bool := false
  resuming : Bool := false
  blocked : Option BlockedReason := none
  /-- A run blocked at its load: the phase its record had. -/
  blockedPhase : Option Phase := none
  outcome : Option (Outcome J) := none
  /-- Its entry in `running`, while its record exists. -/
  entry : Option (Entry J) := none
  /-- Whether its current invocation runs, or is reserved. -/
  invoked : Bool := false
  /-- The value of its state document. -/
  state : Option J := none
  /-- Whether a start made it, whose caller has its handle; the others are loaded. -/
  started : Bool
  waiters : Oneshot (Answer J) := {}

/-- What a change sets on a run's record besides its phase transitions. -/
structure RunFields where
  phase : Option Phase := none
  restarts : Option Nat := none
  finishFailures : Option Nat := none
  abortMarked : Bool := false

/-- A change of the records, staged in a transaction and adopted in its commit step; `restore` takes a
loaded run into memory as stored, `state` is a change of a run's state document. -/
inductive Adopted (J : Type) where
  | create (run : Nat)
  | restore (run : Nat)
  | update (run : Nat) (fields : RunFields)
  | outcome (run : Nat) (outcome : Outcome J)
  | block (run : Nat) (reason : BlockedReason)
  | unblock (run : Nat) (phase : Phase)
  | delete (run : Nat)
  | drop (run : Nat)
  | state (run : Nat) (value : J)

structure Records (J : Type) where
  /-- Every run ever made. -/
  run : Nat → JobRun J
  /-- The number of runs ever made. -/
  made : Nat
  /-- `#runs`, in insertion order. -/
  runs : List Nat
  /-- `#keys`. -/
  keys : String → Option Nat
  /-- `#active`. -/
  active : Int
  /-- The sum passed to `countRuns`. -/
  counted : Int
  running : List (Entry J)
  /-- The number of entry objects ever made. -/
  tags : Nat

variable {J : Type}

namespace JobDefinition

variable (d : JobDefinition J)

/-- Whether the current code takes `run`. -/
def takes (run : JobRun J) : Bool :=
  if run.version = d.version then run.fingerprint == d.fingerprint
  else run.version < d.version && (d.accepts run.version).isSome

/-- `run`'s args as the code of `d` takes them; `none` is a mapping that throws. -/
def argsOf (run : JobRun J) : Option J :=
  if run.version = d.version then some run.args
  else (d.accepts run.version).bind fun adapter => adapter.args run.args

end JobDefinition

/-- What `run`'s `running` entry shows, with its args as the current code takes them. -/
def JobRun.shown (d : JobDefinition J) (run : JobRun J) : Shown J :=
  if run.phase = .blocked then .blocked run.blocked
  else
    let args := if run.version ≠ d.version ∧ d.takes run then (d.argsOf run).getD run.args else run.args
    .active run.key args run.state (run.phase = .finishing)

namespace RunFields

/-- `Object.assign(run, fields)`. -/
def assign (fields : RunFields) (run : JobRun J) : JobRun J :=
  { run with
    phase := fields.phase.getD run.phase
    restarts := fields.restarts.getD run.restarts
    finishFailures := fields.finishFailures.getD run.finishFailures
    abortMarked := fields.abortMarked || run.abortMarked }

end RunFields

namespace Records

variable (d : JobDefinition J) (s : Records J)

def empty [Inhabited J] : Records J where
  run := fun _ =>
    { version := 0, fingerprint := "", key := none, args := default, phase := .pending, started := false }
  made := 0
  runs := []
  keys := fun _ => none
  active := 0
  counted := 0
  running := []
  tags := 0

/-- Changes run `r`'s object. -/
def setRun (r : Nat) (f : JobRun J → JobRun J) : Records J :=
  { s with run := Function.update s.run r (f (s.run r)) }

/-- `run`'s new entry, an object of its own. -/
def entryOf (r : Nat) : Entry J :=
  ⟨s.tags, r, (s.run r).version, (s.run r).shown d⟩

/-- Run `r` gets a new entry. -/
def showEntry (r : Nat) : Records J :=
  { s.setRun r (fun run => { run with entry := some (s.entryOf d r) }) with tags := s.tags + 1 }

/-- The new entry of a new run, appended to `running`. -/
def addEntry (r : Nat) : Records J :=
  { s.showEntry d r with running := Running.add s.running (s.entryOf d r) }

/-- A new entry in the place of run `r`'s; the flag is false when the list's `with` throws. -/
def replaceEntry (r : Nat) : Records J × Bool :=
  match Running.replace s.running (s.run r).entry (s.entryOf d r) with
  | some running => ({ s.showEntry d r with running }, true)
  | none => (s.showEntry d r, false)

/-- Counts run `r`, unless it is blocked. -/
def count (r : Nat) : Records J :=
  if (s.run r).phase = .blocked then s
  else { s with active := s.active + 1, counted := s.counted + 1 }

/-- Run `r` in the maps. -/
def join (r : Nat) : Records J :=
  { s with
    runs := s.runs ++ [r]
    keys := match (s.run r).key with
      | some key => Function.update s.keys key (some r)
      | none => s.keys }

/-- `#adopt` of a new or a loaded run. -/
def insert (r : Nat) : Records J :=
  ((s.join r).count r).addEntry d r

/-- Run `r`'s record changes by `f`, and the counts; its entry is replaced. -/
def edit (r : Nat) (f : JobRun J → JobRun J) (active counted : Int) : Records J × Bool :=
  let changed := s.setRun r f
  { changed with active := s.active + active, counted := s.counted + counted }.replaceEntry d r

/-- Run `r` leaves the maps and `running`. -/
def forget (r : Nat) : Records J :=
  let gone := { s with
    runs := s.runs.erase r
    -- the finishing run's key may name its successor already
    keys := match (s.run r).key with
      | some key => if s.keys key = some r then Function.update s.keys key none else s.keys
      | none => s.keys
    running := Running.remove s.running (s.run r).entry }
  gone.setRun r fun run => { run with entry := none, state := none }

/-- The state document of run `r` changes (`#stateChanged`); its record may not be adopted yet. -/
def changeState (r : Nat) (value : J) : Records J × Bool :=
  if r ∈ s.runs ∧ (s.run r).entry.isSome then
    s.edit d r (fun run => { run with state := some value }) 0 0
  else (s.setRun r fun run => { run with state := some value }, true)

/-- `#adopt`: one record change inside the commit step; the flag is false when it throws. -/
def adopt : Adopted J → Records J × Bool
  | .create r => (s.insert d r, true)
  | .restore r => (s.insert d r, true)
  | .update r fields => s.edit d r fields.assign 0 0
  | .outcome r outcome =>
    s.edit d r (fun run => { run with outcome := some outcome, phase := .finishing }) 0 0
  | .block r reason =>
    s.edit d r (fun run => { run with phase := .blocked, blocked := some reason }) (-1) 0
  | .unblock r phase =>
    let resume (run : JobRun J) : JobRun J :=
      { run with
        phase
        blocked := none
        blockedPhase := none
        finishFailures := 0
        resuming := if phase = .pending then true else run.resuming }
    s.edit d r resume 1 1
  | .delete r => ({ s.forget r with active := s.active - 1 }, true)
  | .drop r => (s.forget r, true)
  | .state r value => s.changeState d r value

def adoptAll (s : Records J) : List (Adopted J) → Records J × Bool
  | [] => (s, true)
  | change :: rest =>
    match s.adopt d change with
    | (next, true) => adoptAll next rest
    | (next, false) => (next, false)

/-- Run `r`'s waiters get `answer`. -/
def settle (r : Nat) (answer : Answer J) : Records J :=
  s.setRun r fun run => { run with waiters := run.waiters.settle answer }

/-- `#committed`: the actions after a change committed, what they do to the records. -/
def committed : Adopted J → Records J
  | .create _ | .restore _ | .update _ _ | .outcome _ _ | .unblock _ _ | .state _ _ => s
  | .delete r => { s with counted := s.counted - 1 }.settle r (.done (s.run r).outcome)
  | .block _ _ => { s with counted := s.counted - 1 }
  | .drop r => s.settle r (.failed .dropped)

/-- The waiters of every run a transaction created get `error`. -/
def rejectCreated (error : Rejection) (s : Records J) : List (Adopted J) → Records J
  | [] => s
  | .create r :: rest => rejectCreated error (s.settle r (.failed error)) rest
  | _ :: rest => rejectCreated error s rest

/-- `end`, the runs' part: every waiter is rejected, and the active runs are not counted any more. -/
def ended : Records J :=
  let runs := s.runs.foldl (fun s r => s.settle r (.failed .ended)) s
  if s.active > 0 then { runs with counted := runs.counted - s.active } else runs

/-- `drop`: the maps and `running` go. -/
def dropped : Records J :=
  { s with runs := [], keys := fun _ => none, running := [] }

end Records

end ThreeXhaust.Chord.Jobs
