import ThreeXhaust.Chord.Binary.Reader

/-!
# The binary codec

`encodeFields`, `decodeFields` and `binaryCodec` of `chord/src/next/link/binary.ts`: a kind byte
(its high bit set when an origin follows as a varint), then the kind's fields.
-/

namespace ThreeXhaust.Chord

open Json

inductive Kind where
  | hello | hold | release | call | abort | bound | state | failed | result | error | gone
  | retry | loading | ack | closed | ping | pong | revoke
deriving DecidableEq

/-- `KINDS`: kinds by their byte. -/
def kinds : List Kind :=
  [.hello, .hold, .release, .call, .abort, .bound, .state, .failed, .result, .error, .gone,
    .retry, .loading, .ack, .closed, .ping, .pong, .revoke]

def Body.kind : Body → Kind
  | .hello .. => .hello
  | .hold _ => .hold
  | .release _ => .release
  | .call .. => .call
  | .abort _ => .abort
  | .retry .. => .retry
  | .bound _ => .bound
  | .state _ => .state
  | .ack => .ack
  | .closed => .closed
  | .revoke _ => .revoke
  | .ping => .ping
  | .pong => .pong
  | .failed .. => .failed
  | .loading _ => .loading
  | .result .. => .result
  | .error .. => .error
  | .gone .. => .gone

namespace Binary

def originFlag : Nat := 0x80

/-! A hold's optional fields, one bit each. -/

def principalFlag : Nat := 1

def incarnationFlag : Nat := 2

def chainFlag : Nat := 4

def limitFlag : Nat := 8

/-! ## Hex -/

def hexPairs : List Char → Bytes
  | a :: b :: rest =>
    UInt8.ofNat (16 * (hexValue a).getD 0 + (hexValue b).getD 0) :: hexPairs rest
  | _ => []

/-- `length` bytes from lowercase hex. -/
def hex (text : List Char) (length : Nat) : Option Bytes :=
  if matchesGroups [2 * length] text then some (hexPairs text) else none

def hexText (bytes : Bytes) : List Char :=
  bytes.flatMap fun b => [hexDigit (b.toNat / 16), hexDigit (b.toNat % 16)]

/-- `text.replaceAll("-", "")` -/
def withoutDashes (text : String) : List Char := text.toList.filter (· ≠ '-')

def uuid (bytes : Bytes) : String :=
  let text := hexText bytes
  String.ofList (text.take 8 ++ '-' :: ((text.take 12).drop 8 ++ '-' :: ((text.take 16).drop 12 ++
    '-' :: ((text.take 20).drop 16 ++ '-' :: text.drop 20))))

/-! ## Encoding -/

def rawHex (text : List Char) (length : Nat) : Write Unit := do raw (← hex text length)

def rawIncarnation (text : String) : Write Unit := rawHex (withoutDashes text) 16

def holdFlags (h : Hold) : Nat :=
  (if h.principal.isNone then 0 else principalFlag) |||
    (if h.incarnation.isNone then 0 else incarnationFlag) |||
    (if h.chain.isNone then 0 else chainFlag) |||
    (if h.limit.isNone then 0 else limitFlag)

def optional {α : Type} (write : α → Write Unit) : Option α → Write Unit
  | none => pure ()
  | some a => write a

def encodeChain (chain : List String) : Write Unit := do
  varint chain.length
  each rawIncarnation chain

def encodeHold (h : Hold) : Write Unit := do
  varint h.hold
  string h.type
  varint h.version
  rawHex h.fingerprint.toList 8
  part h.params
  string h.address.kind
  json h.address.params
  byte (holdFlags h)
  optional json h.principal
  optional rawIncarnation h.incarnation
  optional encodeChain h.chain
  optional varint h.limit

def encodeBoundMember (m : BoundMember) : Write Unit := do
  varint m.member
  part m.value

def encodeBoundEntry (h : BoundEntry) : Write Unit := do
  varint h.hold
  varint h.variant
  varint h.members.length
  each encodeBoundMember h.members
  failed h.failed

def encodeStateMember (m : StateMember) : Write Unit := do
  varint m.member
  part m.ops

def encodeStateEntry (h : StateEntry) : Write Unit := do
  varint h.hold
  varint h.members.length
  each encodeStateMember h.members
  failedAndRetired h.failed h.retired

/-- 0 when absent, else one more than the delay. -/
def delayField : Option Nat → Nat
  | none => 0
  | some delay => delay + 1

def encodeFields : Body → Write Unit
  | .hello protocol incarnation calls => do
    varint protocol
    rawIncarnation incarnation
    varint calls
  | .hold fields => encodeHold fields
  | .release hold | .loading hold => varint hold
  | .retry hold hops => do
    varint hold
    varint hops
  | .call call hold method args segments => do
    varint call
    varint hold
    varint method
    payload args segments
  | .abort call => varint call
  | .bound holds => do
    varint holds.length
    each encodeBoundEntry holds
  | .state holds => do
    varint holds.length
    each encodeStateEntry holds
  | .failed hold cause retryIn => do
    varint hold
    byte (causeKinds.idxOf cause.kind)
    json cause.error
    varint (delayField retryIn)
  | .result call value segments => do
    varint call
    payload value segments
  | .error call error => do
    varint call
    json error
  | .gone hold error => do
    varint hold
    json error
  | .revoke revocation => json revocation
  | .ack | .closed | .ping | .pong => pure ()

def encodeHead (m : Message) : Write Unit :=
  match m.origin with
  | none => byte (kinds.idxOf m.body.kind)
  | some origin => do
    byte (kinds.idxOf m.body.kind ||| originFlag)
    varint origin

def encodeMessage (m : Message) : Write Unit := do
  encodeHead m
  encodeFields m.body

/-- `binaryCodec.encode`; `none` when it throws. -/
def encode (m : Message) : Option Bytes := do
  let ((), writer) ← encodeMessage m .new
  some writer.finish

/-! ## Decoding -/

namespace Read

open Reader

def incarnation : Reader String := do return uuid (← take 16)

/-- A field read only when its flag is set. -/
def optional {α : Type} (flags flag : Nat) (read : Reader α) : Reader (Option α) :=
  if flags &&& flag ≠ 0 then some <$> read else pure none

def decodeHold : Reader Hold := do
  let hold ← varint
  let type ← string
  let version ← varint
  let fingerprint ← take 8
  let params ← part
  let kind ← string
  let addressParams ← json
  let flags ← byte
  ensure (flags ≤ principalFlag ||| incarnationFlag ||| chainFlag ||| limitFlag)
  let principal ← optional flags principalFlag json
  let incarnation ← optional flags incarnationFlag incarnation
  let chain ← optional flags chainFlag (list Read.incarnation)
  let limit ← optional flags limitFlag varint
  pure {
    hold, type, version, fingerprint := String.ofList (hexText fingerprint), params
    address := { kind, params := addressParams }
    principal, incarnation, chain, limit }

def decodeBoundMember : Reader BoundMember := do
  let member ← varint
  let value ← part
  pure { member, value }

def decodeBoundEntry : Reader BoundEntry := do
  let hold ← varint
  let variant ← varint
  let members ← list decodeBoundMember
  let failed ← failed
  pure { hold, variant, members, failed }

def decodeStateMember : Reader StateMember := do
  let member ← varint
  let ops ← part
  pure { member, ops }

def retired (flags : Nat) : Reader (List Nat) :=
  if flags % 2 = 0 then pure [] else list varint

def decodeStateEntry : Reader StateEntry := do
  let hold ← varint
  let members ← list decodeStateMember
  -- the failure count times two, plus one when retirements follow
  let flags ← varint
  let failed ← failedEntries (flags / 2)
  let retired ← retired flags
  pure { hold, members, failed, retired }

def decodeFields : Kind → Reader Body
  | .hello => do
    let protocol ← varint
    let incarnation ← incarnation
    let calls ← varint
    pure (.hello protocol incarnation calls)
  | .hold => do return .hold (← decodeHold)
  | .release => do return .release (← varint)
  | .loading => do return .loading (← varint)
  | .retry => do
    let hold ← varint
    let hops ← varint
    pure (.retry hold hops)
  | .call => do
    let call ← varint
    let hold ← varint
    let method ← varint
    let (args, segments) ← payload
    pure (.call call hold method args segments)
  | .abort => do return .abort (← varint)
  | .bound => do return .bound (← list decodeBoundEntry)
  | .state => do return .state (← list decodeStateEntry)
  | .failed => do
    let hold ← varint
    let code ← byte
    let kind ← causeKinds[code]?
    let error ← json
    let retryIn ← varint
    pure (.failed hold { kind, error } (if retryIn = 0 then none else some (retryIn - 1)))
  | .result => do
    let call ← varint
    let (value, segments) ← payload
    pure (.result call value segments)
  | .error => do
    let call ← varint
    let error ← json
    pure (.error call error)
  | .gone => do
    let hold ← varint
    let error ← json
    pure (.gone hold error)
  | .revoke => do return .revoke (← json)
  | .ack => pure .ack
  | .ping => pure .ping
  | .pong => pure .pong
  | .closed => pure .closed

/-- The origin a kind's fields come with: a `closed` message has 0 until the kind byte's is set,
which the schema refuses. -/
def fieldsOrigin : Body → Option Nat
  | .closed => some 0
  | _ => none

def decodeHead : Reader (Option Nat × Kind) := do
  let b ← byte
  let origin ← optional b originFlag varint
  let kind ← kinds[b &&& 0x7f]?
  pure (origin, kind)

def decodeMessage : Reader Message := do
  let (origin, kind) ← decodeHead
  let body ← decodeFields kind
  ensure ((← left) = 0)
  pure { origin := origin <|> fieldsOrigin body, body }

end Read

/-- `binaryCodec.decode`; `none` when it throws. -/
def decode (bytes : Bytes) : Option Message := (Read.decodeMessage bytes).map Prod.fst

end Binary
end ThreeXhaust.Chord
