import ThreeXhaust.Chord.Message
import ThreeXhaust.Lib.Log

/-!
# A host's end of a link

`chord/src/next/link/channel.ts` over `LinkEnd` of `link.ts`: the handshake, the checks of every
message, the heartbeat, and messages handled in order while one waits for an asynchronous
inflate.

What the channel runs on is given by an `Env`: its codec, and what its owner and its link do. The
owner's reactions and a send that fails and closes the link are functions of everything that
happened before, so that they may be anything in any run. A function that throws in the source
says so in its result here, and `log` records what happens, in order.
-/

namespace ThreeXhaust.Chord

def protocolVersion : Nat := 1

namespace Channel

inductive Entry where
  /-- The link end took a message from its transport. -/
  | arrived (bytes : Bytes)
  /-- A message was sent on the channel before the handshake: it waits. -/
  | queued (bytes : Bytes)
  | sent (bytes : Bytes)
  /-- The channel turns to a received message. -/
  | handled (bytes : Bytes)
  /-- `handler.opened()` -/
  | opened
  /-- `handler.message(message)` -/
  | message (m : Message)
  /-- The handler returned a promise for the last message. -/
  | held
  /-- That promise settled, either way. -/
  | settled
  /-- A protocol error: caught by the channel, or a rejection. -/
  | fault
  /-- The protocol error was reported. -/
  | reported
  /-- The link end closed. -/
  | ended
  /-- `handler.closed()` -/
  | closed

inductive Act where
  | send (m : Message)
  | close
  | tick (now ping close : Nat)

inductive Result where
  | returns
  | throws
  | promises
deriving DecidableEq

structure Reply where
  acts : List Act
  result : Result

structure Env where
  /-- `codec.encode`; `none` when it throws. -/
  encode : Message → Option Bytes
  /-- `codec.decode`; `none` when it throws. -/
  decode : Bytes → Option Message
  trusted : Bool
  /-- The channel's own `hello`, encoded. -/
  hello : Bytes
  /-- What the handler does, called at the end of this log. -/
  handler : List Entry → Reply
  /-- Whether the send that ends this log closes the link. -/
  breaks : List Entry → Bool

inductive ChannelState where
  | greeting (queued : List Bytes)
  | opened (peer : String) (calls : Nat)
  | closed

structure Held where
  queue : List Bytes
  next : Nat

/-- `LinkEnd`: messages that arrived before the listener was set wait in `queued`. -/
structure LinkEnd where
  closed : Bool
  listener : Bool
  queued : List Bytes
  closeListener : Bool

structure State where
  state : ChannelState
  lastReceived : Nat
  pinged : Bool
  held : Option Held
  waiting : Bool
  link : LinkEnd
  started : Bool
  /-- Promises of the handler that did not settle yet. -/
  promises : Nat
  log : List Entry

def init : State where
  state := .greeting []
  lastReceived := 0
  pinged := false
  held := none
  waiting := false
  link := { closed := false, listener := false, queued := [], closeListener := false }
  started := false
  promises := 0
  log := []

def State.note (s : State) (e : Entry) : State := { s with log := s.log ++ [e] }

/-- `Channel.#closed`. What the handler does to a closed channel has no effect. -/
def channelClosed (s : State) : State :=
  match s.state with
  | .closed => s
  | _ => { s with state := .closed, held := none }.note .closed

/-- `LinkEnd.ended`, which a close and a failed send come to. -/
def closeLink (s : State) : State :=
  if s.link.closed then s
  else
    let listening := s.link.closeListener
    let s := { s with
      link := { closed := true, listener := false, queued := [], closeListener := false } }.note
        .ended
    if listening then channelClosed s else s

def linkSend (env : Env) (s : State) (bytes : Bytes) : State :=
  if s.link.closed then s
  else
    let s := s.note (.sent bytes)
    if env.breaks s.log then closeLink s else s

/-- `Channel.send`. A message its codec refuses throws to the caller and changes nothing. -/
def send (env : Env) (s : State) (m : Message) : State :=
  match s.state with
  | .closed => s
  | .greeting queued =>
    match env.encode m with
    | none => s
    | some bytes => { s with state := .greeting (queued ++ [bytes]) }.note (.queued bytes)
  | .opened .. =>
    match env.encode m with
    | none => s
    | some bytes => linkSend env s bytes

def pingMessage : Message := { origin := none, body := .ping }

def pongMessage : Message := { origin := none, body := .pong }

def ChannelState.isOpen : ChannelState → Bool
  | .opened .. => true
  | _ => false

def tick (env : Env) (s : State) (now ping close : Nat) : State :=
  let silent := now - s.lastReceived
  if close ≤ silent then closeLink s
  else if ping ≤ silent && !s.pinged && s.state.isOpen then
    match env.encode pingMessage with
    | none => { s with pinged := true }
    | some bytes => linkSend env { s with pinged := true } bytes
  else s

def act (env : Env) (s : State) : Act → State
  | .send m => send env s m
  | .close => closeLink s
  | .tick now ping close => tick env s now ping close

def call (env : Env) (s : State) (e : Entry) : State × Result :=
  let s := s.note e
  let reply := env.handler s.log
  (reply.acts.foldl (act env) s, reply.result)

def failed (s : State) : State :=
  let s := s.note .fault
  match s.state with
  | .closed => s
  | _ => closeLink (s.note .reported)

def hold (s : State) : State :=
  { s with
    held := some (s.held.getD { queue := [], next := 0 })
    waiting := true
    promises := s.promises + 1 }.note .held

def decode (env : Env) (bytes : Bytes) : Option Message := do
  let m ← env.decode bytes
  if env.trusted || checkMessage m then some m else none

/-- `Channel.#greet`, with the throw of a wrong first message caught by `#handle`. -/
def greet (env : Env) (s : State) (bytes : Bytes) (queued : List Bytes) : State :=
  match decode env bytes with
  | none => failed s
  | some m =>
    match m.body with
    | .hello protocol incarnation calls =>
      if protocol = protocolVersion then
        let s := { s with state := .opened incarnation calls }
        let s := queued.foldl (linkSend env) s
        match call env s .opened with
        | (s, .throws) => failed s
        | (s, _) => s
      else failed s
    | _ => failed s

def dispatch (env : Env) (s : State) (m : Message) : State :=
  match m.body with
  | .hello .. => failed s
  | .ping =>
    match env.encode pongMessage with
    | none => failed s
    | some bytes => linkSend env s bytes
  | .pong => s
  | _ =>
    match call env s (.message m) with
    | (s, .returns) => s
    | (s, .throws) => failed s
    | (s, .promises) => hold s

def handle (env : Env) (s : State) (bytes : Bytes) : State :=
  let s := s.note (.handled bytes)
  match s.state with
  | .greeting queued => greet env s bytes queued
  | _ =>
    match decode env bytes with
    | none => failed s
    | some m => dispatch env s m

def receive (env : Env) (now : Nat) (s : State) (bytes : Bytes) : State :=
  match s.state with
  | .closed => s
  | _ =>
    let s := { s with lastReceived := now, pinged := false }
    match s.held with
    | none => handle env s bytes
    | some held => { s with held := some { held with queue := held.queue ++ [bytes] } }

/-- The handled messages are dropped from the queue. A channel that closed has forgotten the queue,
and may hold a new one by now. -/
def cut (s : State) : State :=
  if s.state.isOpen then
    { s with held := s.held.map fun h => { queue := h.queue.drop h.next, next := 0 } }
  else s

/-- The loop of `Channel.#release`: over the messages of the queue from `next` on. -/
def releaseLoop (env : Env) (queue : List Bytes) : List Bytes → Nat → State → State
  | [], _, s => { s with held := none }
  | bytes :: rest, next, s =>
    if s.state.isOpen then
      let s := handle env { s with held := some { queue, next := next + 1 } } bytes
      if s.waiting then cut s else releaseLoop env queue rest (next + 1) s
    else s

def release (env : Env) (s : State) : State :=
  match s.held with
  | none => s
  | some held => releaseLoop env held.queue (held.queue.drop held.next) held.next s

/-- The loop of `LinkEnd.onMessage` over the messages that arrived earlier. -/
def replay (env : Env) (now : Nat) : List Bytes → State → State
  | [], s => s
  | bytes :: rest, s =>
    if s.link.closed then s else replay env now rest (receive env now s bytes)

/-- `LinkEnd.onMessage` -/
def onMessage (env : Env) (now : Nat) (s : State) : State :=
  if s.link.closed then s
  else replay env now s.link.queued
    { s with link := { s.link with listener := true, queued := [] } }

/-- `LinkEnd.onClose` -/
def onClose (s : State) : State :=
  if s.link.closed then channelClosed s
  else { s with link := { s.link with closeListener := true } }

def start (env : Env) (now : Nat) (s : State) : State :=
  onClose (onMessage env now (linkSend env { s with started := true } env.hello))

/-- `LinkEnd.deliver` -/
def deliver (env : Env) (now : Nat) (s : State) (bytes : Bytes) : State :=
  if s.link.closed then s
  else
    let s := s.note (.arrived bytes)
    if s.link.listener then receive env now s bytes
    else { s with link := { s.link with queued := s.link.queued ++ [bytes] } }

inductive Event where
  | start (now : Nat)
  | deliver (bytes : Bytes) (now : Nat)
  /-- The handler's promise is fulfilled. -/
  | settle
  /-- The handler's promise is rejected. -/
  | reject
  /-- The owner sends, closes or ticks on its own, or the link is closed from elsewhere. -/
  | act (a : Act)

def step (env : Env) (s : State) : Event → State
  | .start now => if s.started then s else start env now s
  | .deliver bytes now => deliver env now s bytes
  | .settle =>
    if s.promises = 0 then s
    else release env
      ({ s with promises := s.promises - 1, waiting := false }.note .settled)
  | .reject =>
    if s.promises = 0 then s
    else failed ({ s with promises := s.promises - 1 }.note .settled)
  | .act a => act env s a

def run (env : Env) (events : List Event) : State := events.foldl (step env) init

end Channel
end ThreeXhaust.Chord
