import ThreeXhaust.Env.Frame

/-!
# The client's connection to its daemon

`connection.ts`: a daemon is started with the first request and again after it was lost. One run of
it is a session; a promise remembered in `#ready` starts it, and what it is asked waits in the
session's table until it answers or the session is torn down.

Everything that can interleave is an `Input`: the calls of the owner, what comes back from the
command, from the daemon and its process, and the continuations behind each `await`. A request's
`onStart` runs in the middle of `#send`, so what it calls comes before its `returned`. Other
callbacks are the last thing their step does. `log` records what happens, in order.

The bytes of frames that arrive, the timers' clocks and what is logged are not modelled, and a
message that ends a start has the remote stderr beside it, not in its text.
-/

namespace ThreeXhaust.Env.Connection

def REQUEST : Nat := 1
def RESULT : Nat := 2
def ERROR : Nat := 3
def EVENT : Nat := 4
def CANCEL : Nat := 5
def PING : Nat := 6

inductive Failure where
  | lost (message : String)
  | closed
  /-- The daemon could not be spawned. -/
  | spawn (message : String)
  /-- The daemon's own error. -/
  | remote (json : Data)

inductive Owner where
  | hello (start : Nat)
  | request (request : Nat)

structure Session where
  pending : List (Nat × Owner)
  live : Bool
  /-- The start it belongs to. -/
  start : Nat

inductive Start where
  /-- Waits for the command. -/
  | command
  /-- Waits for `hello`, for an end of the process, or for the time to run out. -/
  | hello (session : Nat)
  /-- What it waited for has come. -/
  | decided (session : Nat) (outcome : Except Failure Data)
  | ready (session : Nat)
  | failed (failure : Failure) (stderr : String)

inductive Settlement where
  /-- With a result or an error frame of a session. -/
  | reply (session : Nat) (m : Message)
  /-- With the teardown of the session that had it in its table. -/
  | teardown (session : Nat) (failure : Failure)
  /-- With a start that failed. -/
  | start (start : Nat) (failure : Failure) (stderr : String)
  /-- At once: the session it is for is not live. -/
  | notLive (session : Nat)
  /-- At once: the connection is closed. -/
  | closed
  /-- At once: its frame cannot be built, or its `onStart` throws. -/
  | threw

inductive Written where
  | hello (start id : Nat)
  | request (request id : Nat)
  | cancel (id : Nat)
  | ping

inductive Entry where
  | requested (request : Nat) (bound : Option Nat)
  | spawned (session : Nat)
  /-- A request got its id and its place in the session's table. -/
  | registered (request session id : Nat)
  | wrote (session : Nat) (what : Written) (bytes : Bytes)
  /-- A frame of a live session. -/
  | received (session : Nat) (m : Message)
  /-- `onEvent` of a request was called. -/
  | event (request session : Nat) (m : Message)
  | settled (request : Nat) (how : Settlement)
  | torn (session : Nat)
  | startFailed (start : Nat)
  | closed

inductive Status where
  | awaiting (start : Nat)
  | registered (session id : Nat)
  | settled

/-- What a request asks, and the part of its options that matters here. -/
structure Ask where
  /-- The JSON with its `op`. -/
  json : Data
  payload : Bytes
  /-- Only run in this session. -/
  session : Option Nat
  onEvent : Bool
  /-- Whether it has a signal, and whether that is aborted already. -/
  signal : Option Bool

structure Request where
  ask : Ask
  aborted : Bool
  /-- The abort listener: the session and the id it cancels. -/
  listener : Option (Nat × Nat)
  status : Status

structure State where
  /-- `#session` -/
  session : Option Nat
  /-- `#ready`: the start that is remembered. -/
  ready : Option Nat
  /-- `#sessions`, and the sessions by their ids. -/
  sessions : Nat
  table : Nat → Session
  nextId : Nat
  closed : Bool
  starts : Nat
  start : Nat → Start
  requests : Nat
  request : Nat → Request
  /-- The sends whose `onStart` has not returned, the innermost first. -/
  sending : List Nat
  log : List Entry

def init : State where
  session := none
  ready := none
  sessions := 0
  table := fun _ => ⟨[], false, 0⟩
  nextId := 1
  closed := false
  starts := 0
  start := fun _ => .failed .closed ""
  requests := 0
  request := fun _ => ⟨⟨.null, [], none, false, none⟩, false, none, .settled⟩
  sending := []
  log := []

namespace State

def note (s : State) (e : Entry) : State := { s with log := s.log ++ [e] }

def setSession (s : State) (i : Nat) (session : Session) : State :=
  { s with table := fun j => if j = i then session else s.table j }

def setStart (s : State) (k : Nat) (start : Start) : State :=
  { s with start := fun j => if j = k then start else s.start j }

def setRequest (s : State) (r : Nat) (request : Request) : State :=
  { s with request := fun j => if j = r then request else s.request j }

def settle (s : State) (r : Nat) (how : Settlement) : State :=
  match (s.request r).status with
  | .settled => s
  | _ => (s.setRequest r { s.request r with status := .settled }).note (.settled r how)

/-- `#write`, of bytes that could be built. -/
def write (s : State) (i : Nat) (what : Written) (bytes : Option Bytes) : State :=
  match bytes with
  | none => s
  | some bytes => if (s.table i).live then s.note (.wrote i what bytes) else s

def decide (s : State) (k : Nat) (outcome : Except Failure Data) : State :=
  match s.start k with
  | .hello i => s.setStart k (.decided i outcome)
  | _ => s

def decideFor (s : State) (i : Nat) (failure : Failure) : State :=
  match s.start (s.table i).start with
  | .hello j => if j = i then s.decide (s.table i).start (.error failure) else s
  | _ => s

/-- What is called where an entry of a table is resolved or rejected; a request's abort listener is
removed first. -/
def finish (s : State) (owner : Owner) (outcome : Except Failure Data) (how : Settlement) : State :=
  match owner with
  | .hello k => s.decide k outcome
  | .request r => (s.setRequest r { s.request r with listener := none }).settle r how

def teardown (s : State) (i : Nat) (failure : Failure) : State :=
  if ¬ (s.table i).live then s
  else
    let pending := (s.table i).pending
    let s := (s.setSession i { s.table i with live := false, pending := [] }).note (.torn i)
    let s := if s.session = some i then { s with session := none, ready := none } else s
    pending.foldl (fun s entry => s.finish entry.2 (.error failure) (.teardown i failure)) s

end State

section Io

variable (io : Serialisers)

def cancelFrame (id : Nat) : Option Bytes := frame io ⟨CANCEL, id, .obj [], []⟩

def killFrame (id : Nat) : Option Bytes :=
  frame io ⟨CANCEL, id, .obj [(Utf16.units "mode", .str (Utf16.units "kill"))], []⟩

def pingFrame : Option Bytes := frame io ⟨PING, 0, .obj [], []⟩

def requestFrame (id : Nat) (ask : Ask) : Option Bytes :=
  frame io ⟨REQUEST, id, ask.json, ask.payload⟩

/-- The `hello` of a session. -/
def helloFrame (id : Nat) : Option Bytes :=
  frame io ⟨REQUEST, id, .obj [(Utf16.units "protocol", .num (.finite (.ofNat 1))),
    (Utf16.units "op", .str (Utf16.units "hello"))], []⟩

namespace State

/-- `onAbort` -/
def cancel (s : State) (i id : Nat) : State := s.write i (.cancel id) (cancelFrame io id)

/-- `#send` of a request, until `onStart` is called. -/
def register (s : State) (r i : Nat) : State :=
  if ¬ (s.table i).live then s.settle r (.notLive i)
  else
    let id := s.nextId
    let request := s.request r
    let listener := if request.ask.signal.isSome && !request.aborted then some (i, id) else none
    let s := { s with nextId := id + 1 }
    let s := s.setSession i { s.table i with pending := (s.table i).pending ++ [(id, .request r)] }
    let s := s.setRequest r { request with status := .registered i id, listener }
    { s with sending := r :: s.sending }.note (.registered r i id)

/-- The rest of `#send`, behind `onStart`. -/
def sent (s : State) (r i id : Nat) : State :=
  match requestFrame io id (s.request r).ask with
  | none => s.settle r .threw
  | some bytes =>
    let s := s.write i (.request r id) (some bytes)
    if (s.request r).aborted then s.cancel io i id else s

/-- `#connect`: the start to wait for, none where the connection is closed. -/
def connect (s : State) : State × Option Nat :=
  if s.closed then (s, none)
  else
    match s.ready with
    | some k => (s, some k)
    | none =>
      let k := s.starts
      ({ s with starts := k + 1, ready := some k }.setStart k .command, some k)

/-- `request`, until its first `await`. -/
def askFor (s : State) (ask : Ask) : State :=
  let r := s.requests
  let request : Request := ⟨ask, ask.signal = some true, none, .awaiting 0⟩
  let s := ({ s with requests := r + 1 }.setRequest r request).note (.requested r ask.session)
  match ask.session with
  | some i =>
    if s.session = some i ∧ (s.table i).live then s.register r i else s.settle r (.notLive i)
  | none =>
    match s.connect with
    | (s, none) => s.settle r .closed
    | (s, some k) => s.setRequest r { request with status := .awaiting k }

def resume (s : State) (r : Nat) : State :=
  match (s.request r).status with
  | .awaiting k =>
    match s.start k with
    | .ready i => s.register r i
    | .failed failure stderr => s.settle r (.start k failure stderr)
    | _ => s
  | _ => s

def close (s : State) : State :=
  let s := { s with closed := true }.note .closed
  match s.session with
  | some i => s.teardown i .closed
  | none => s

def kill (s : State) (id i : Nat) : State :=
  if s.session = some i ∧ (s.table i).live then s.write i (.cancel id) (killFrame io id) else s

def abort (s : State) (r : Nat) : State :=
  let request := s.request r
  if request.ask.signal.isSome && !request.aborted then
    let s := s.setRequest r { request with aborted := true, listener := none }
    match request.listener with
    | some (i, id) => s.cancel io i id
    | none => s
  else s

/-- A start that fails: its promise is rejected. -/
def failStart (s : State) (k : Nat) (failure : Failure) (stderr : String) : State :=
  (s.setStart k (.failed failure stderr)).note (.startFailed k)

end State

inductive CommandResult where
  | failed (message : String)
  /-- It has no program. -/
  | empty
  /-- `spawn` throws. -/
  | throws (message : String)
  | spawned

namespace State

/-- A daemon was spawned: its session, and its `hello`. -/
def spawn (s : State) (k : Nat) : State :=
  let i := s.sessions + 1
  let id := s.nextId
  let s := { s with sessions := i, session := some i, nextId := id + 1 }
  let s := s.setSession i ⟨[(id, .hello k)], true, k⟩
  let s := (s.setStart k (.hello i)).note (.spawned i)
  match helloFrame io id with
  | none => s.decide k (.error (.lost "The value of \"value\" is out of range."))
  | some bytes => s.write i (.hello k id) (some bytes)

def commanded (s : State) (k : Nat) (result : CommandResult) : State :=
  match s.start k with
  | .command =>
    match result with
    | .failed message => s.failStart k (.spawn message) ""
    | result =>
      if s.closed then s.failStart k .closed ""
      else
        match result with
        | .failed message => s.failStart k (.spawn message) ""
        | .empty => s.failStart k (.spawn "No daemon command") ""
        | .throws message => s.failStart k (.spawn message) ""
        | .spawned => s.spawn io k
  | _ => s

end State

end Io

/-- Whether a `hello` reports protocol 1. -/
def isProtocolOne (json : Data) : Bool :=
  match json with
  | .obj fields =>
    match (fields.find? (·.1 = Utf16.units "protocol")).map Prod.snd with
    | some (.num (.finite d)) => d = .ofNat 1
    | _ => false
  | _ => false

namespace State

/-- `#start`, behind its race. -/
def started (s : State) (k : Nat) (stderr : String) : State :=
  match s.start k with
  | .decided i outcome =>
    match outcome with
    | .ok json =>
      if isProtocolOne json then s.setStart k (.ready i)
      else
        let failure := Failure.lost "Unsupported protocol"
        (s.teardown i failure).failStart k failure stderr
    | .error failure => (s.teardown i failure).failStart k failure stderr
  | _ => s

def forget (s : State) (k : Nat) : State :=
  match s.start k with
  | .failed .. => if s.ready = some k then { s with ready := none } else s
  | _ => s

/-- `#dispatch`, of a frame of a live session. -/
def dispatch (s : State) (i : Nat) (m : Message) : State :=
  if ¬ (s.table i).live then s
  else
    let s := s.note (.received i m)
    let pending := (s.table i).pending.lookup m.id
    if m.type = EVENT then
      match pending with
      | some (.request r) => if (s.request r).ask.onEvent then s.note (.event r i m) else s
      | _ => s
    else if m.type = RESULT ∨ m.type = ERROR then
      match pending with
      | none => s
      | some owner =>
        let s := s.setSession i
          { s.table i with pending := (s.table i).pending.filter (·.1 ≠ m.id) }
        s.finish owner (if m.type = RESULT then .ok m.json else .error (.remote m.json))
          (.reply i m)
    else s

def isReady (s : State) (i : Nat) : Bool :=
  match s.start (s.table i).start with
  | .ready j => j = i
  | _ => false

end State

inductive Input where
  /-- `request` -/
  | request (ask : Ask)
  /-- `info` or `session` -/
  | info
  | kill (id session : Nat)
  | abort (request : Nat)
  | close
  /-- `onStart` of the innermost send returned or threw. -/
  | returned (throws : Bool)
  /-- A request goes on behind its start. -/
  | resume (request : Nat)
  /-- A start goes on behind its command. -/
  | commanded (start : Nat) (result : CommandResult)
  /-- A start goes on behind its race. -/
  | started (start : Nat) (stderr : String)
  | forget (start : Nat)
  | frame (session : Nat) (m : Message)
  /-- Bytes that are no frame. -/
  | corrupt (session : Nat)
  | processError (session : Nat) (message : String)
  | exit (session : Nat)
  | processClose (session : Nat)
  /-- The start takes too long. -/
  | timeout (start : Nat)
  /-- Nothing was received for too long. -/
  | silence (session : Nat)
  | ping (session : Nat)

/-- Whether it can come from inside of `onStart`. -/
def Input.fromOwner : Input → Bool
  | .request _ | .info | .kill .. | .abort _ | .close | .returned _ => true
  | _ => false

def lostConnection : Failure := .lost "pi-env connection lost"

def step (io : Serialisers) (s : State) (input : Input) : State :=
  if s.sending ≠ [] ∧ ¬ input.fromOwner then s
  else
    match input with
    | .request ask => s.askFor ask
    | .info => s.connect.1
    | .kill id i => s.kill io id i
    | .abort r => s.abort io r
    | .close => s.close
    | .returned throws =>
      match s.sending with
      | [] => s
      | r :: rest =>
        let s := { s with sending := rest }
        if throws then s.settle r .threw
        else
          match (s.request r).status with
          | .registered i id => s.sent io r i id
          | _ => s
    | .resume r => s.resume r
    | .commanded k result => s.commanded io k result
    | .started k stderr => s.started k stderr
    | .forget k => s.forget k
    | .frame i m => s.dispatch i m
    | .corrupt i => s.teardown i (.lost "Corrupt frame from pi-env")
    | .processError i message =>
      (s.decideFor i (.spawn message)).teardown i lostConnection
    | .exit i => if s.isReady i then s.teardown i lostConnection else s
    | .processClose i =>
      (s.decideFor i (.lost "pi-env exited before it was ready")).teardown i lostConnection
    | .timeout k => s.decide k (.error (.lost "pi-env did not answer within 60 s"))
    | .silence i => s.teardown i (.lost "pi-env connection timed out")
    | .ping i => s.write i .ping (pingFrame io)

def run (io : Serialisers) (inputs : List Input) : State := inputs.foldl (step io) init

end ThreeXhaust.Env.Connection
