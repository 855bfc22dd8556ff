import ThreeXhaust.Lib.Bytes
import ThreeXhaust.Lib.Json.Script

/-!
# Messages

`chord/src/next/link/message.ts` and `part.ts`: the one message type every link carries and the
schema it is checked against after every decode. A part is opaque: JSON text at its origin, the
bytes a binary link received, or bytes its origin deflated. What a host inflates a part to stays
on that host and is left out.

Ids, indexes and counts are natural numbers (the schema's `int` has a minimum of 0 or 1
everywhere). JSON fields are kept as values, since the schema only looks at their envelope.
-/

namespace ThreeXhaust.Chord

open Json

inductive Part where
  | text (json : String)
  | bytes (bytes : Bytes)
  | deflated (bytes : Bytes)
deriving DecidableEq

structure Address where
  kind : String
  params : Value

structure FailedMember where
  member : Nat
  error : Value

structure BoundMember where
  member : Nat
  value : Part

structure StateMember where
  member : Nat
  ops : Part

/-- One hold's entry of a `bound` message. -/
structure BoundEntry where
  hold : Nat
  variant : Nat
  members : List BoundMember
  failed : List FailedMember

/-- One hold's entry of a `state` message. -/
structure StateEntry where
  hold : Nat
  members : List StateMember
  failed : List FailedMember
  retired : List Nat

inductive CauseKind where
  | transient
  | broken
  | waiting
deriving DecidableEq

/-- `CAUSE_KINDS`: the kinds in their codes' order. -/
def causeKinds : List CauseKind := [.transient, .broken, .waiting]

structure Cause where
  kind : CauseKind
  error : Value

structure Hold where
  hold : Nat
  type : String
  version : Nat
  fingerprint : String
  params : Part
  address : Address
  principal : Option Value
  incarnation : Option String
  chain : Option (List String)
  limit : Option Nat

inductive Body where
  | hello (protocol : Nat) (incarnation : String) (calls : Nat)
  | hold (fields : Hold)
  | release (hold : Nat)
  | call (call hold method : Nat) (args : Option Part) (segments : Option (List Bytes))
  | abort (call : Nat)
  | retry (hold hops : Nat)
  | bound (holds : List BoundEntry)
  | state (holds : List StateEntry)
  | ack
  | closed
  | revoke (revocation : Value)
  | ping
  | pong
  | failed (hold : Nat) (cause : Cause) (retryIn : Option Nat)
  | loading (hold : Nat)
  | result (call : Nat) (value : Option Part) (segments : Option (List Bytes))
  | error (call : Nat) (error : Value)
  | gone (hold : Nat) (error : Value)

structure Message where
  /-- Whose work the message is; absent for the sender's own. -/
  origin : Option Nat
  body : Body

/-! ## The schema -/

def isHexDigit (c : Char) : Bool := ('0' ≤ c && c ≤ '9') || ('a' ≤ c && c ≤ 'f')

/-- Groups of hex digits of the given lengths, a dash between them. -/
def matchesGroups : List Nat → List Char → Bool
  | [], cs => cs.isEmpty
  | [n], cs => cs.length == n && cs.all isHexDigit
  | n :: ns, cs =>
    (cs.take n).length == n && (cs.take n).all isHexDigit &&
      match cs.drop n with
      | '-' :: rest => matchesGroups ns rest
      | _ => false

/-- `^[0-9a-f]{8}-[0-9a-f]{4}-[0-9a-f]{4}-[0-9a-f]{4}-[0-9a-f]{12}$` -/
def isIncarnation (s : String) : Bool := matchesGroups [8, 4, 4, 4, 12] s.toList

/-- `^[0-9a-f]{16}$` -/
def isFingerprint (s : String) : Bool := matchesGroups [16] s.toList

def isStr : Value → Bool
  | .str _ => true
  | _ => false

/-- An object with every required key and no key outside the allowed ones. -/
def hasKeys (v : Value) (required allowed : List String) : Bool :=
  required.all (v.keys.contains ·) && v.keys.all (allowed.contains ·)

/-- A `ChordError` in its JSON, or a plugin's code and message. -/
def isWireError (v : Value) : Bool :=
  match v.get "kind" with
  | .str "chord" => hasKeys v ["kind", "error"] ["kind", "error"]
  | .str "plugin" =>
    hasKeys v ["kind", "code", "message"] ["kind", "code", "message", "details"] &&
      isStr (v.get "code") && isStr (v.get "message")
  | _ => false

/-- JSON with a `kind`; other fields are the host's own. -/
def isPrincipal (v : Value) : Bool := isStr (v.get "kind")

def maxChain : Nat := 32

/-- A `retry`'s hop budget as the first host sends it. -/
def retryHops : Nat := 16

def checkFailed (failed : List FailedMember) : Bool := failed.all fun f => isWireError f.error

def Hold.check (h : Hold) : Bool :=
  1 ≤ h.version && isFingerprint h.fingerprint && h.principal.all isPrincipal &&
    h.incarnation.all isIncarnation &&
    h.chain.all (fun chain => chain.length ≤ maxChain && chain.all isIncarnation)

def Body.check : Body → Bool
  | .hello _ incarnation calls => isIncarnation incarnation && 1 ≤ calls
  | .hold fields => fields.check
  | .retry _ hops => 1 ≤ hops && hops ≤ retryHops
  | .bound holds => holds.all fun h => checkFailed h.failed
  | .state holds => holds.all fun h => checkFailed h.failed
  | .failed _ cause _ => isWireError cause.error
  | .error _ e => isWireError e
  | .gone _ e => isWireError e
  | _ => true

/-- Whether the schema lets a kind carry an origin: no, it may, or it must. -/
def Body.checkOrigin (body : Body) (origin : Option Nat) : Bool :=
  match body with
  | .hello .. | .revoke _ | .ping | .pong => origin.isNone
  | .closed => origin.any (1 ≤ ·)
  | _ => origin.all (1 ≤ ·)

def checkMessage (m : Message) : Bool := m.body.checkOrigin m.origin && m.body.check

/-! ## What a message holds -/

def Hold.integers (h : Hold) : List Nat := h.hold :: h.version :: h.limit.toList

def FailedMember.integers (failed : List FailedMember) : List Nat := failed.map (·.member)

def Body.integers : Body → List Nat
  | .hello protocol _ calls => [protocol, calls]
  | .hold fields => fields.integers
  | .release id | .loading id => [id]
  | .call callId holdId method _ _ => [callId, holdId, method]
  | .abort id => [id]
  | .retry id hops => [id, hops]
  | .bound holds => holds.flatMap fun h =>
      h.hold :: h.variant :: (h.members.map (·.member) ++ FailedMember.integers h.failed)
  | .state holds => holds.flatMap fun h =>
      h.hold :: (h.members.map (·.member) ++ FailedMember.integers h.failed ++ h.retired)
  | .failed id _ retryIn => id :: retryIn.toList
  | .result id _ _ => [id]
  | .error id _ => [id]
  | .gone id _ => [id]
  | .ack | .closed | .revoke _ | .ping | .pong => []

def FailedMember.json (failed : List FailedMember) : List Value := failed.map (·.error)

def Body.json : Body → List Value
  | .hold fields => fields.address.params :: fields.principal.toList
  | .bound holds => holds.flatMap fun h => FailedMember.json h.failed
  | .state holds => holds.flatMap fun h => FailedMember.json h.failed
  | .revoke revocation => [revocation]
  | .failed _ cause _ => [cause.error]
  | .error _ e => [e]
  | .gone _ e => [e]
  | _ => []

def Message.SafeIntegers (m : Message) : Prop :=
  ∀ n ∈ m.origin.toList ++ m.body.integers, isSafeInteger n

def Message.JsonData (m : Message) : Prop := ∀ v ∈ m.body.json, v.IsJson

/-! ## Parts as a binary link receives them -/

def Part.received : Part → Part
  | .text json => .bytes (utf8 json)
  | .bytes b => .bytes b
  | .deflated b => .deflated b

def BoundEntry.received (h : BoundEntry) : BoundEntry :=
  { h with members := h.members.map fun m => { m with value := m.value.received } }

def StateEntry.received (h : StateEntry) : StateEntry :=
  { h with members := h.members.map fun m => { m with ops := m.ops.received } }

def Body.received : Body → Body
  | .hold fields => .hold { fields with params := fields.params.received }
  | .call callId holdId method args segments =>
    .call callId holdId method (args.map Part.received) segments
  | .bound holds => .bound (holds.map BoundEntry.received)
  | .state holds => .state (holds.map StateEntry.received)
  | .result id value segments => .result id (value.map Part.received) segments
  | body => body

def Message.received (m : Message) : Message := { m with body := m.body.received }

theorem checkMessage_received (m : Message) : checkMessage m.received = checkMessage m := by
  obtain ⟨origin, body⟩ := m
  cases body with
  | bound holds =>
    have hfailed : ∀ h, checkFailed (BoundEntry.received h).failed = checkFailed h.failed :=
      fun h => rfl
    simp only [checkMessage, Message.received, Body.received, Body.check, Body.checkOrigin,
      List.all_map, Function.comp_def, hfailed]
  | state holds =>
    have hfailed : ∀ h, checkFailed (StateEntry.received h).failed = checkFailed h.failed :=
      fun h => rfl
    simp only [checkMessage, Message.received, Body.received, Body.check, Body.checkOrigin,
      List.all_map, Function.comp_def, hfailed]
  | _ => rfl

end ThreeXhaust.Chord
