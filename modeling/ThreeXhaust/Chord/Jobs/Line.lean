import ThreeXhaust.Chord.Jobs.Records

/-!
# A job's records on the object's line

Changes are decided at once and reach the line later: `abort`, `undeclare`, `#need` and the attempt's
job queue a transaction, whose body runs when it holds the line, whose commit step adopts what it
staged (at once, or inside the store's step), and which is told how it ended once the line is free.
Between any two of these the object's other code may run, which is why `step` takes them one by one:
an input that cannot happen in a state changes nothing.

Left to the environment is what plugin code and the attempts do: which starts a transaction makes, when
a run settles, whose seal refuses a queued transaction or cuts the one on the line, when the store
admits and rolls back.
-/

namespace ThreeXhaust.Chord.Jobs

variable {J : Type}

structure Staging (J : Type) where
  started : List Nat := []
  changes : List (Adopted J) := []
  finishing : Option Nat := none

inductive Stage where
  /-- Its callback runs, or its commit waits in the store's queue. -/
  | «open»
  /-- The store's step admitted it. -/
  | stepping
  | adopted
  deriving DecidableEq, Repr

structure Transaction (J : Type) where
  staging : Staging J := {}
  stage : Stage := .open
  /-- Whether plugin code has it, and may start runs in it. -/
  starts : Bool := false
  /-- Whether it is the load's. -/
  loads : Bool := false
  /-- The runs that need a live attempt once it committed. -/
  after : List Nat := []

def Transaction.closed (tx : Transaction J) : Transaction J :=
  match tx.staging.finishing with
  | some r => { tx with staging := { tx.staging with changes := tx.staging.changes ++ [.delete r] } }
  | none => tx

/-- The changes `JobRecords.record` is called with. -/
inductive Recorded where
  | update (fields : RunFields)
  | block (reason : BlockedReason)
  | drop

def Recorded.change (r : Nat) : Recorded → Adopted J
  | .update fields => .update r fields
  | .block reason => .block r reason
  | .drop => .drop r

inductive Body (J : Type) where
  /-- `self.tx` and `Job.start`. -/
  | plugin
  /-- `Job.#finish`. -/
  | finish (run : Nat)
  /-- `JobRecords.record`. -/
  | record (run : Nat) (change : Recorded)
  /-- `#recordOutcome`. -/
  | outcome (run : Nat) (ended : Settled J)
  | reserve (run : Nat)
  /-- A change of the run's state document by its invocation. -/
  | progress (run : Nat) (value : J)
  | retry (runs : List Nat) (distinct : runs.Nodup)

/-- The record document of one unsettled persisted run, with its state document. -/
structure StoredRun (J : Type) where
  version : Nat
  fingerprint : String
  key : Option String
  args : J
  phase : Phase
  restarts : Nat
  finishFailures : Nat
  abort : Bool
  blocked : Option BlockedReason
  outcome : Option (Settled J)
  state : Option J

/-- What an earlier life of the object left in the store: no two records have one key. -/
structure Stored (J : Type) where
  records : List (StoredRun J)
  keys : (records.filterMap (·.key)).Nodup

inductive Load (J : Type) where
  | idle
  | reading (stored : Stored J)
  /-- Its transaction holds the line. -/
  | staged
  | done

def Load.isDone : Load J → Bool
  | .done => true
  | _ => false

structure State (J : Type) extends Records J where
  definition : JobDefinition J
  /-- Whether the job persists its runs. -/
  persisted : Bool
  /-- The live attempt's job. -/
  job : Option Nat
  /-- Whether an attempt went live: its job takes starts. -/
  live : Bool
  waiting : List Nat
  declared : Bool
  load : Load J
  isEnded : Bool
  isDropped : Bool
  /-- The blocked runs a `retryBlocked` reads the state documents of. -/
  reading : List { runs : List Nat // runs.Nodup }
  /-- The line's queue. -/
  queue : List (Body J)
  holder : Option (Transaction J)
  /-- The changes of the transactions that were cut and whose callbacks still run. -/
  cuts : List (Staging J)
  /-- The `#need`s in the microtask queue. -/
  microtasks : List Nat

inductive Input (J : Type) where
  /- the object and its attempts -/
  | load (stored : Stored J)
  | attach (job : Nat)
  | detach (job : Nat) (finishing : List Nat)
  | undeclare
  /-- Another definition, or (`none`) the same. -/
  | redefine (definition : Option (JobDefinition J))
  | retryBlocked
  | read (ok : Bool)
  | endObject
  | drop
  /- the attempt's job -/
  | settled (run : Nat) (ended : Settled J)
  | cut (run : Nat) (reload : Bool)
  | unreserved (run : Nat)
  | requeue (run : Nat)
  | finish (run : Nat)
  | finishFailed (run : Nat)
  | progress (run : Nat) (value : J)
  /- callers -/
  | plugin
  | abort (run : Nat)
  | wait (run : Nat)
  | leave (run : Nat) (wait : Nat)
  | microtask
  /- the line -/
  | take
  | takeLoad
  | refuse
  | start (args : J) (key : Option String)
  | commit
  | enterStep
  | adopt
  | settle
  | discard
  | cutHolder
  | settleCut (n : Nat)

def FINISH_ATTEMPTS : Nat := 5

/-- A persisted run cut off this many times in a row ends `restart_limit`. -/
def RESTART_LIMIT : Nat := 5

namespace State

def init [Inhabited J] (definition : JobDefinition J) : State J where
  toRecords := .empty
  definition
  persisted := definition.persist.isSome
  job := none
  live := false
  waiting := []
  declared := true
  load := .idle
  isEnded := false
  isDropped := false
  reading := []
  queue := []
  holder := none
  cuts := []
  microtasks := []

variable (s : State J)

def push (body : Body J) : State J :=
  { s with queue := s.queue ++ [body] }

def setRun (r : Nat) (f : JobRun J → JobRun J) : State J :=
  { s with toRecords := s.toRecords.setRun r f }

/-! ## Needing a live attempt -/

/-- `Job.invoke`: a persisted run is reserved first. -/
def invoke (r : Nat) : State J :=
  let begun := s.setRun r fun run => { run with invoked := true }
  if s.persisted && (s.run r).phase ≠ .running then begun.push (.reserve r) else begun

/-- `#dispatch`: invokes or finishes run `r` on the live job, as its record stands. -/
def dispatch (r : Nat) : State J :=
  if r ∉ s.runs ∨ (s.run r).phase = .blocked then s
  else if ¬ s.definition.takes (s.run r) then s.push (.record r (.block .version))
  else if (s.run r).phase = .finishing then s.push (.finish r)
  else if (s.run r).invoked then s
  else if (s.run r).abortMarked then s.push (.outcome r (.failed (.aborted .abort)))
  else if (s.run r).resuming ∧ s.definition.persist = some .abandon then
    s.push (.outcome r (.failed (.aborted .restart)))
  else (s.setRun r fun run => { run with resuming := false }).invoke r

/-- `#need`: run `r` needs a live attempt, now or once one attaches. -/
def need (r : Nat) : State J :=
  if s.isEnded ∨ r ∉ s.runs then s
  else if ¬ s.declared then
    if (s.run r).phase = .blocked then s else s.push (.record r (.block .version))
  else if s.job.isNone then { s with waiting := if r ∈ s.waiting then s.waiting else s.waiting ++ [r] }
  else s.dispatch r

def needAll (s : State J) (runs : List Nat) : State J :=
  runs.foldl State.need s

/-! ## The attempts -/

def attach (j : Nat) : State J :=
  -- an activation loads the runs before it goes live
  if s.isEnded ∨ (s.persisted ∧ s.load.isDone = false) then s
  else s.waiting.foldl State.dispatch { s with job := some j, live := true, waiting := [] }

def detach (j : Nat) (finishing : List Nat) : State J :=
  State.needAll (if s.job = some j then { s with job := none } else s) finishing

def undeclare : State J :=
  if ¬ s.declared ∨ s.isEnded then s
  else
    s.waiting.foldl (fun s r => s.push (.record r (.block .version)))
      { s with declared := false, job := none, waiting := [] }

/-- `redefine`: the entries show their args as the new definition takes them; the flag of
`replaceEntry` cannot be false for a run that has an entry. -/
def redefine : Option (JobDefinition J) → State J
  | none => { s with declared := true }
  | some definition =>
    let taken := { s with declared := true, definition }
    let shown := s.runs.foldl
      (fun ρ r => if (ρ.run r).entry.isSome then (ρ.replaceEntry definition r).1 else ρ) s.toRecords
    { taken with toRecords := shown }

def retried : List Nat :=
  s.runs.filter fun r =>
    (s.run r).phase = .blocked && ((s.run r).blocked = some .finishFailed || s.definition.takes (s.run r))

def retryBlocked : State J :=
  if ¬ s.declared ∨ s.isEnded then s
  else if h : s.retried.Nodup ∧ s.retried ≠ [] then { s with reading := s.reading ++ [⟨s.retried, h.1⟩] }
  else s

/-- The state documents of the first `retryBlocked` are read, or cannot be. -/
def read (ok : Bool) : State J :=
  match s.reading with
  | [] => s
  | ⟨runs, distinct⟩ :: rest =>
    let done := { s with reading := rest }
    if ok then done.push (.retry runs distinct) else done

/-! ## A run's invocation -/

def settled (r : Nat) (ended : Settled J) : State J :=
  (s.setRun r fun run => { run with invoked := false }).push (.outcome r ended)

/-- `cut`: run `r`'s attempt was sealed while it ran. -/
def cut (r : Nat) (reload : Bool) : State J :=
  let fenced := s.setRun r fun run => { run with invoked := false }
  if s.persisted then
    (fenced.setRun r fun run => { run with phase := .stopped, resuming := true }).need r
  else if s.isEnded then fenced
  else fenced.push (.outcome r (.failed (.aborted (if reload then .reload else .restart))))

/-- The failure path of `Job.#finish`. -/
def finishFailed (r : Nat) : State J :=
  let finishFailures := (s.run r).finishFailures + 1
  if finishFailures ≥ FINISH_ATTEMPTS then s.push (.record r (.block .finishFailed))
  else s.push (.record r (.update { finishFailures := some finishFailures }))

def abort (r : Nat) : State J :=
  if r ∉ s.runs ∨ s.isEnded then s
  else if (s.run r).phase = .blocked then s.push (.record r .drop)
  else if (s.run r).abortMarked then s
  else s.push (.record r (.update { abortMarked := true }))

/-! ## A transaction's body -/

/-- `retryBlocked`'s body: the runs still blocked, each back to its phase. -/
def unblocks (runs : List Nat) : List (Adopted J) :=
  (runs.filter fun r => r ∈ s.runs && (s.run r).phase = .blocked).map fun r =>
    .unblock r <|
      if (s.run r).outcome.isSome then .finishing else if s.persisted then .pending else .running

def begin : Body J → Transaction J
  | .plugin => { starts := true }
  -- a number past `made` names no run
  | .finish r => { staging := { finishing := if r < s.made then some r else none }, starts := true }
  | .record r change => { staging := { changes := if r ∈ s.runs then [change.change r] else [] } }
  | .outcome r ended =>
    { staging := { changes := [.outcome r ⟨(s.run r).args, (s.run r).state, ended⟩] }, after := [r] }
  | .reserve r => { staging := { changes := [.update r { phase := some .running }] } }
  | .progress r value =>
    let resets : List (Adopted J) := if (s.run r).restarts ≠ 0 then [.update r { restarts := some 0 }] else []
    { staging := { changes := .state r value :: resets } }
  | .retry runs _ => { staging := { changes := s.unblocks runs } }

def take : State J :=
  match s.holder, s.queue with
  | none, body :: rest =>
    if s.isEnded then { s with queue := rest }
    else { s with queue := rest, holder := some (s.begin body) }
  | _, _ => s

/-! ## The load -/

/-- The run a loaded record stands for (`#restored`). -/
def restored (d : JobDefinition J) (stored : StoredRun J) : JobRun J :=
  let run : JobRun J :=
    { version := stored.version
      fingerprint := stored.fingerprint
      key := stored.key
      args := stored.args
      phase := stored.phase
      restarts := stored.restarts
      finishFailures := stored.finishFailures
      abortMarked := stored.abort
      blocked := stored.blocked
      outcome := stored.outcome.map fun ended => ⟨stored.args, stored.state, ended⟩
      state := stored.state
      started := false }
  if stored.version ≠ d.version ∨ stored.fingerprint ≠ d.fingerprint then
    { run with
      phase := .blocked
      blocked := some .version
      blockedPhase := some stored.phase
      outcome := stored.outcome.map fun ended => ⟨stored.args, none, ended⟩
      state := none }
  else match stored.phase with
    | .running =>
      let restarts := stored.restarts + 1
      { run with resuming := true, restarts := if restarts < RESTART_LIMIT then run.restarts else restarts }
    | .stopped | .pending => { run with resuming := true }
    | .finishing | .blocked => run

def activation (r : Nat) (run : JobRun J) : List (Adopted J) :=
  match run.phase with
  | .running =>
    let restarts := run.restarts + 1
    if restarts < RESTART_LIMIT then [.update r { phase := some .pending, restarts := some restarts }]
    else [.outcome r ⟨run.args, run.state, .failed (.restartLimit run.restarts)⟩]
  | .stopped => [.update r { phase := some .pending }]
  | .pending | .finishing | .blocked => []

def make (d : JobDefinition J) (s : Records J) : List (StoredRun J) → Records J
  | [] => s
  | stored :: rest =>
    make d { s with run := Function.update s.run s.made (restored d stored), made := s.made + 1 } rest

/-- `#restoreAll`: the load's transaction, each run restored, then the activation changes. -/
def takeLoad : State J :=
  match s.holder, s.load with
  | none, .reading stored =>
    if s.isEnded then { s with load := .idle }
    else
      let made := make s.definition s.toRecords stored.records
      let runs := List.range' s.made stored.records.length
      let changes := runs.map .restore ++ runs.flatMap fun r => activation r (made.run r)
      { s with
        toRecords := made
        load := .staged
        holder := some { staging := { changes }, loads := true, after := runs } }
  | _, _ => s

def loadRecords (stored : Stored J) : State J :=
  match s.load with
  | .idle => if s.persisted ∧ s.live = false then { s with load := .reading stored } else s
  | _ => s

/-! ## A start -/

/-- `#active` as a start in a transaction with `staging` counts it. -/
def activeIn (staging : Staging J) : Int :=
  s.active + staging.started.length - (if staging.finishing.isNone then 0 else 1)

/-- The unsettled run with `key` that a start in `staging` returns. -/
def known (staging : Staging J) (key : String) : Option Nat :=
  (staging.started.find? fun r => (s.run r).key = some key).or (s.keys key)

/-- The run of a start: `pending` until its reservation when it is persisted. -/
def newRun (args : J) (key : Option String) : JobRun J :=
  { version := s.definition.version
    fingerprint := s.definition.fingerprint
    key
    args
    phase := if s.persisted then .pending else .running
    state := s.definition.initial
    started := true }

/-- `stage`, past the checks: a new run, its creation staged. -/
def stageRun (tx : Transaction J) (args : J) (key : Option String) : State J :=
  let staging := tx.staging
  { s with
    run := Function.update s.run s.made (s.newRun args key)
    made := s.made + 1
    holder := some
      { tx with
        staging :=
          { staging with
            started := staging.started ++ [s.made]
            changes := staging.changes ++ [.create s.made] } } }

/-- `stage`: dedupe by key, then the concurrency check, then the staged creation. -/
def start (args : J) (key : Option String) : State J :=
  match s.holder with
  | some tx =>
    if tx.stage = .open ∧ tx.starts ∧ s.live then
      let staging := tx.staging
      let deduped := key.any fun key =>
        let known := s.known staging key
        known.isSome && known != staging.finishing
      let busy := s.definition.concurrency.any fun concurrency => s.activeIn staging ≥ (concurrency : Nat)
      if deduped || busy then s else s.stageRun tx args key
    else s
  | none => s

/-! ## The end of a transaction -/

/-- The transaction committed: the actions after each change, then the runs that wait for it. -/
def committed (s : State J) : Adopted J → State J
  | .create r => { s with microtasks := s.microtasks ++ [r] }
  | .unblock r _ => s.need r
  | change => { s with toRecords := s.toRecords.committed change }

def loadAfter (s : State J) (tx : Transaction J) (committed : Bool) : Load J :=
  if tx.loads then (if committed then .done else .idle) else s.load

/-- `Transaction.settle` after the commit; a run of an ended object ends as its other runs did. -/
def settle : State J :=
  match s.holder with
  | some tx =>
    if tx.stage = .adopted then
      let free := { s with holder := none, load := s.loadAfter tx true }
      if s.isEnded then
        { free with toRecords := .rejectCreated .ended free.toRecords tx.staging.changes }
      else State.needAll (tx.staging.changes.foldl committed free) tx.after
    else s
  | none => s

/-- `Transaction.settle` after a discard. -/
def discarded (s : State J) (tx : Transaction J) : State J :=
  { s with
    holder := none
    load := s.loadAfter tx false
    toRecords := .rejectCreated .discarded s.toRecords tx.staging.changes }

def discard : State J :=
  match s.holder with
  | some tx => if tx.stage = .adopted then s else s.discarded tx
  | none => s

/-- The adoption inside the commit step, none once the object ended; a throw discards the rest. -/
def adoptTx (tx : Transaction J) : State J :=
  if s.isEnded then { s with holder := some { tx with stage := .adopted } }
  else match s.toRecords.adoptAll s.definition tx.staging.changes with
    | (adopted, true) => { s with toRecords := adopted, holder := some { tx with stage := .adopted } }
    | (adopted, false) => { s with toRecords := adopted }.discarded tx

/-- The commit of a transaction without store writes: adopted at once. -/
def commit : State J :=
  match s.holder with
  | some tx => if tx.stage = .open then s.adoptTx tx.closed else s
  | none => s

def enterStep : State J :=
  match s.holder with
  | some tx => if tx.stage = .open then { s with holder := some { tx.closed with stage := .stepping } } else s
  | none => s

def adopt : State J :=
  match s.holder with
  | some tx => if tx.stage = .stepping then s.adoptTx tx else s
  | none => s

/-- The seal of its token: the open transaction is discarded and the line free; its starts are rejected
once its callback settles. -/
def cutHolder : State J :=
  match s.holder with
  | some tx =>
    if tx.stage = .open then
      { s with holder := none, cuts := s.cuts ++ [tx.staging], load := s.loadAfter tx false }
    else s
  | none => s

def settleCut (n : Nat) : State J :=
  match s.cuts[n]? with
  | some staging =>
    { s with
      cuts := s.cuts.eraseIdx n
      toRecords := .rejectCreated .discarded s.toRecords staging.changes }
  | none => s

/-! ## The end of the object -/

/-- `end`, then the seal of the object's documents, which cuts the open transaction. -/
def endObject : State J :=
  if s.isEnded then s
  else
    State.cutHolder
      { s with isEnded := true, job := none, waiting := [], toRecords := s.toRecords.ended }

/-- `drop`, once the line is free. -/
def drop : State J :=
  if s.isEnded ∧ s.holder.isNone then { s with isDropped := true, toRecords := s.toRecords.dropped }
  else s

/-- A wait for run `r`'s outcome, by its id or by the handle a start returned. -/
def wait (r : Nat) : State J :=
  if r ∈ s.runs ∨ (s.run r).started then
    s.setRun r fun run => { run with waiters := run.waiters.wait }
  else s

def runMicrotask : State J :=
  match s.microtasks with
  | r :: rest => State.need { s with microtasks := rest } r
  | [] => s

/-- **One step of the records and of the line.** -/
def step : Input J → State J
  | .load stored => s.loadRecords stored
  | .attach j => s.attach j
  | .detach j finishing => s.detach j finishing
  | .undeclare => s.undeclare
  | .redefine definition => s.redefine definition
  | .retryBlocked => s.retryBlocked
  | .read ok => s.read ok
  | .endObject => s.endObject
  | .drop => s.drop
  | .settled r ended => s.settled r ended
  | .cut r reload => s.cut r reload
  | .unreserved r => s.setRun r fun run => { run with invoked := false }
  | .requeue r => s.need r
  | .finish r => s.push (.finish r)
  | .finishFailed r => s.finishFailed r
  | .progress r value => s.push (.progress r value)
  | .plugin => s.push .plugin
  | .abort r => s.abort r
  | .wait r => s.wait r
  | .leave r w => s.setRun r fun run => { run with waiters := run.waiters.leave w }
  | .microtask => s.runMicrotask
  | .take => s.take
  | .takeLoad => s.takeLoad
  | .refuse => { s with queue := s.queue.tail }
  | .start args key => s.start args key
  | .commit => s.commit
  | .enterStep => s.enterStep
  | .adopt => s.adopt
  | .settle => s.settle
  | .discard => s.discard
  | .cutHolder => s.cutHolder
  | .settleCut n => s.settleCut n

end State

end ThreeXhaust.Chord.Jobs
