import ThreeXhaust.Lib.Run

/-!
# The writer of a session

`durable/src/session/writer.ts`: the commits that the mutation line admits are stored in batches
off the line and published in line order. The writer runs between awaits, and at every await
parts may be admitted and the session may fail from outside, so the state holds where the writer
waits (`Stage`) and an `Input` is what happens next. The calls the writer makes and the promises
it settles are kept in a log.

An input that does not fit where the writer waits does nothing. Every part of a loop is a step of
its own, also where the source does not wait: that allows more orders than the source has.
-/

namespace ThreeXhaust.Durable

/-- `PartSpec`: a commit with writes is `stored`, one without is held in memory only. -/
structure PartSpec where
  index : Nat
  stored : Bool
  keys : List String

/-- An admitted part; `id` is its identity, the number of parts admitted before it. -/
structure Part extends PartSpec where
  id : Nat

section Writer

variable (ε : Type)

inductive PublishFailure where
  | adoption (error : ε)
  | listener (error : ε)

inductive Outcome where
  | resolved
  | own (error : ε)
  | sessionFailed (error : ε)

/-- How a part that will not resolve settles: with an error of its own, or `SessionFailed`. -/
inductive FailedOutcome where
  | own (error : ε)
  | failed

/-- What `Storage.commit` settles with. -/
inductive CommitResult where
  | resolved (stored : Nat) (refused : Option ε)
  | rejected (error : ε)

structure Stop where
  error : ε
  index : Nat
  external : Bool

structure Failing where
  part : Part
  outcome : FailedOutcome ε
  published : Bool

/-- The loop of `#publish`: the parts of the call, those not looked at yet, and its variables. -/
structure Loop where
  parts : List Part
  rest : List Part
  seqs : List (Nat × Nat)
  result : Option (Nat × Option ε)
  rejected : Option ε
  stop : Option (Stop ε)
  failing : List (Failing ε)
  storedIndex : Nat

inductive Stage where
  | idle
  /-- `await host.commit(...)`; `seqs` are the receipts. -/
  | storing (parts : List Part) (seqs : List (Nat × Nat))
  /-- At the head of the loop, for the publication of the next part. -/
  | publishing (loop : Loop ε)
  /-- The publication of `part` ran, unless the session had failed. -/
  | ran (loop : Loop ε) (part : Part) (external : Option ε) (failure : Option (PublishFailure ε))
  /-- `await Promise.resolve()` before the session is failed. -/
  | failing (loop : Loop ε)
  /-- `#send` returned. -/
  | ending

inductive Event where
  | received (id seq : Nat)
  | published (id : Nat) (failure : Option (PublishFailure ε))
  | discarded (id : Nat)
  | settled (id : Nat) (outcome : Outcome ε)
  | opened (id : Nat)
  | failed (error : ε) (index : Option Nat) (own : List Nat)
  | reported (error : ε)

/-- The writer with the failure of its session. `unpublished` is, for a key, the newest unpublished
part that writes it. -/
structure Writer where
  admitted : List Part
  queue : List Part
  stage : Stage ε
  unpublished : String → Option Nat
  newest : Option Nat
  failure : Option ε
  log : List (Event ε)

inductive Input where
  | admitPart (spec : PartSpec)
  | failOutside (error : ε)
  | receive (index seq : Nat)
  | settle (result : CommitResult ε)
  /-- The host runs the publication, which ends with this failure, if any. -/
  | publish (failure : Option (PublishFailure ε))
  /-- The writer goes on after a wait. -/
  | resume
  /-- A throw that the writer did not expect. -/
  | throws (error : ε)

end Writer

variable {ε : Type}

def Loop.start (parts : List Part) (seqs : List (Nat × Nat)) (result : Option (CommitResult ε)) :
    Loop ε where
  parts := parts
  rest := parts
  seqs := seqs
  result := match result with
    | some (.resolved stored refused) => some (stored, refused)
    | _ => none
  rejected := match result with
    | some (.rejected error) => some error
    | _ => none
  stop := none
  failing := []
  storedIndex := 0

namespace Writer

def init : Writer ε := ⟨[], [], .idle, fun _ => none, none, none, []⟩

def record (w : Writer ε) (event : Event ε) : Writer ε := { w with log := w.log ++ [event] }

/-! ## Settling a part -/

/-- `#unregister`: drop the keys a part is still the newest writer of. -/
def unregister (w : Writer ε) (part : Part) : Writer ε :=
  { w with unpublished := fun key =>
      if key ∈ part.keys ∧ w.unpublished key = some part.id then none else w.unpublished key }

def openGate (w : Writer ε) (part : Part) : Writer ε :=
  { w.record (.opened part.id) with newest := if w.newest = some part.id then none else w.newest }

def settle (w : Writer ε) (part : Part) (outcome : Outcome ε) : Writer ε :=
  w.record (.settled part.id outcome)

def unpublish (w : Writer ε) (part : Part) (outcome : Outcome ε) : Writer ε :=
  (((w.record (.discarded part.id)).settle part outcome).unregister part).openGate part

def unpublishAll (w : Writer ε) (parts : List Part) (outcome : Outcome ε) : Writer ε :=
  parts.foldl (fun w part => w.unpublish part outcome) w

/-- `host.fail`: the first failure of the session stays. -/
def fail (w : Writer ε) (error : ε) (index : Option Nat) (own : List Nat) : Writer ε :=
  { w.record (.failed error index own) with failure := w.failure.or (some error) }

/-! ## A call -/

def dropQueue (w : Writer ε) : Writer ε :=
  match w.failure with
  | none => w
  | some error => { w with queue := [] }.unpublishAll w.queue (.sessionFailed error)

def failedWith (w : Writer ε) (error : ε) : Outcome ε := .sessionFailed (w.failure.getD error)

/-- What a failing part settles with; `stop` is there when a part fails with `SessionFailed`. -/
def failingOutcome (w : Writer ε) (loop : Loop ε) : FailedOutcome ε → Outcome ε
  | .own error => .own error
  | .failed =>
    match loop.stop with
    | some stop => w.failedWith stop.error
    | none => .resolved

def settleFailing (w : Writer ε) (loop : Loop ε) (failing : Failing ε) : Writer ε :=
  let outcome := w.failingOutcome loop failing.outcome
  if failing.published then (w.settle failing.part outcome).openGate failing.part
  else w.unpublish failing.part outcome

def finishPublish (w : Writer ε) (loop : Loop ε) : Writer ε :=
  { (loop.failing.foldl (fun w failing => w.settleFailing loop failing) w).dropQueue with
    stage := .ending }

def failHost (w : Writer ε) (loop : Loop ε) : Writer ε :=
  let own := loop.failing.filterMap fun failing =>
    match failing.outcome with
    | .own _ => some failing.part.index
    | .failed => none
  match loop.rejected, loop.stop with
  | some error, _ => w.fail error own.head? own
  | none, some stop => w.fail stop.error (some stop.index) own
  | none, none => w

/-- The rest of `#send` once the call has settled: publish, unless the session failed meanwhile. -/
def startPublish (w : Writer ε) (loop : Loop ε) : Writer ε :=
  match w.failure with
  | some error => { w.unpublishAll loop.parts (.sessionFailed error) with stage := .ending }
  | none => { w with stage := .publishing loop }

/-- `#send`, up to its first wait. -/
def send (w : Writer ε) (parts : List Part) : Writer ε :=
  match w.failure with
  | some error => { w.unpublishAll parts (.sessionFailed error) with stage := .ending }
  | none =>
    if parts.any (·.stored) then { w with stage := .storing parts [] }
    else w.startPublish (.start parts [] none)

def pump (w : Writer ε) : Writer ε :=
  match w.stage, w.queue with
  | .idle, part :: queue => { w with queue := [] }.send (part :: queue)
  | _, _ => w

def enlist (w : Writer ε) (spec : PartSpec) : Writer ε :=
  { w with
    admitted := w.admitted ++ [⟨spec, w.admitted.length⟩]
    queue := w.queue ++ [⟨spec, w.admitted.length⟩]
    unpublished := fun key =>
      if key ∈ spec.keys then some w.admitted.length else w.unpublished key
    newest := some w.admitted.length }

/-- The writer's own `admit`. -/
def admitPart (w : Writer ε) (spec : PartSpec) : Writer ε := (w.enlist spec).pump

/-- `gate` and `drained` return the gate of this part. -/
def gate (w : Writer ε) (key : String) : Option Nat := w.unpublished key

def drained (w : Writer ε) : Option Nat := w.newest

/-! ## The loop of a publication -/

def receipt (loop : Loop ε) : Option Nat := loop.seqs.lookup loop.storedIndex

def advance (loop : Loop ε) (part : Part) (rest : List Part) : Loop ε :=
  { loop with
    rest
    storedIndex := if part.stored then loop.storedIndex + 1 else loop.storedIndex }

def skip (loop : Loop ε) (part : Part) (rest : List Part) (stop : Stop ε) : Loop ε :=
  -- a part after a rejected call's last receipt has the call's error
  let outcome := match loop.rejected with
    | some error => if part.stored ∧ stop.external = false then .own error else .failed
    | none => .failed
  { advance loop part rest with failing := loop.failing ++ [⟨part, outcome, false⟩] }

/-- The error of a part that storage did not take; `adopted` is the one of a storage that resolved
without taking it. -/
def missing (adopted : ε) (loop : Loop ε) : ε :=
  match loop.rejected, loop.result with
  | some error, _ => error
  | none, some (stored, some refused) => if loop.storedIndex = stored then refused else adopted
  | none, _ => adopted

def refuse (adopted : ε) (loop : Loop ε) (part : Part) (rest : List Part) : Loop ε :=
  { advance loop part rest with
    failing := loop.failing ++ [⟨part, .own (missing adopted loop), false⟩]
    stop := some ⟨missing adopted loop, part.index, false⟩ }

def publishPart (w : Writer ε) (loop : Loop ε) (part : Part) (rest : List Part)
    (failure : Option (PublishFailure ε)) : Writer ε :=
  match w.failure with
  | some error => { w with stage := .ran (advance loop part rest) part (some error) none }
  | none =>
    { (w.unregister part).record (.published part.id failure) with
      stage := .ran (advance loop part rest) part none failure }

def afterPublish (w : Writer ε) (loop : Loop ε) (part : Part) (external : Option ε)
    (failure : Option (PublishFailure ε)) : Writer ε :=
  match external, failure, loop.rejected with
  | some error, _, _ =>
    { w with stage := .publishing { loop with
        stop := some ⟨error, part.index, true⟩
        failing := loop.failing ++ [⟨part, .failed, false⟩] } }
  | none, some (.adoption error), _ =>
    { w with stage := .publishing { loop with
        stop := some ⟨error, part.index, false⟩
        failing := loop.failing ++ [⟨part, .own error, true⟩] } }
  | none, some (.listener error), some rejected =>
    { w.record (.reported error) with stage := .publishing { loop with
        failing := loop.failing ++ [⟨part, .own rejected, true⟩] } }
  | none, none, some rejected =>
    { w with stage := .publishing { loop with
        failing := loop.failing ++ [⟨part, .own rejected, true⟩] } }
  | none, some (.listener error), none =>
    -- the commit stands; the session fails after it
    { (w.settle part .resolved).openGate part with
      stage := .publishing { loop with stop := some ⟨error, part.index, false⟩ } }
  | none, none, none =>
    let outcome := match w.failure with
      | some error => .sessionFailed error
      | none => .resolved
    { (w.settle part outcome).openGate part with stage := .publishing loop }

def round (adopted : ε) (w : Writer ε) (loop : Loop ε) : Writer ε :=
  match loop.rest, loop.stop with
  | [], _ =>
    if loop.rejected.isSome ∨ loop.stop.isSome then { w with stage := .failing loop }
    else w.finishPublish loop
  | part :: rest, some stop => { w with stage := .publishing (skip loop part rest stop) }
  | part :: rest, none =>
    if part.stored ∧ receipt loop = none then
      { w with stage := .publishing (refuse adopted loop part rest) }
    else w

def roundPublish (w : Writer ε) (loop : Loop ε) (failure : Option (PublishFailure ε)) :
    Writer ε :=
  match loop.rest, loop.stop with
  | part :: rest, none =>
    if part.stored ∧ receipt loop = none then w else w.publishPart loop part rest failure
  | _, _ => w

/-- Whether the outcome of a part is settled: its flag `done`. -/
def done (w : Writer ε) (id : Nat) : Bool :=
  w.log.any fun event => match event with
    | .settled other _ => other = id
    | _ => false

/-- A part of a call that is abandoned. -/
def giveUp (error : ε) (w : Writer ε) (part : Part) : Writer ε :=
  ((if w.done part.id then w else w.unpublish part (w.failedWith error)).unregister part).openGate
    part

def abandon (w : Writer ε) (parts : List Part) (error : ε) : Writer ε :=
  { parts.foldl (giveUp error) (w.fail error (parts.head?.map (·.index)) []) with
    stage := .ending }

/-! ## Steps -/

def callParts : Stage ε → Option (List Part)
  | .storing parts _ => some parts
  | .publishing loop => some loop.parts
  | .ran loop _ _ _ => some loop.parts
  | .failing loop => some loop.parts
  | _ => none

/-- What happens next; `adopted` is the error of a storage that resolved without taking a batch. -/
def step (adopted : ε) (w : Writer ε) (input : Input ε) : Writer ε :=
  match input, w.stage with
  | .admitPart spec, _ => w.admitPart spec
  | .failOutside error, _ => { w with failure := w.failure.or (some error) }
  | .receive index seq, .storing parts seqs =>
    match (parts.filter (·.stored))[index]? with
    | some part =>
      { w.record (.received part.id seq) with stage := .storing parts ((index, seq) :: seqs) }
    | none => w
  | .settle result, .storing parts seqs => w.startPublish (.start parts seqs (some result))
  | .publish failure, .publishing loop => w.roundPublish loop failure
  | .resume, .publishing loop => w.round adopted loop
  | .resume, .ran loop part external failure => w.afterPublish loop part external failure
  | .resume, .failing loop => (w.failHost loop).finishPublish loop
  | .resume, .ending => pump { w with stage := .idle }
  | .throws error, stage =>
    match callParts stage with
    | some parts => w.abandon parts error
    | none => w
  | _, _ => w

end Writer

end ThreeXhaust.Durable
