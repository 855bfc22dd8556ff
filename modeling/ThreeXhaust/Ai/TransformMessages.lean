import ThreeXhaust.Lib.Json.Value
import Mathlib.Data.List.Perm.Lattice

/-!
# Messages for another model

`ai/src/api/transform-messages.ts` rewrites a conversation for the model that is asked next. The
first pass drops what only the model that wrote it can read and renames the ids of tool calls; the
second closes every call that has no result and moves system messages behind the results.
-/

namespace ThreeXhaust.Ai

open Json (Value)

/-! ## Messages -/

inductive Part where
  | text (text : String) (textSignature : Option String)
  | image (data mimeType : String)

inductive Content where
  | text (text : String)
  | parts (parts : List Part)

structure ToolCall where
  id : String
  name : String
  arguments : Value
  thoughtSignature : Option String

inductive Block where
  | text (text : String) (textSignature : Option String)
  | thinking (thinking : String) (thinkingSignature : Option String) (redacted : Bool)
  | toolCall (call : ToolCall)

inductive StopReason where
  | pending
  | stop
  | length
  | toolUse
  | error
  | aborted
  | deferred
deriving DecidableEq

/-- `content` is `none` where an untyped caller gave `null`. -/
structure AssistantMessage where
  provider : String
  api : String
  model : String
  stopReason : StopReason
  content : Option (List Block)

structure ToolResultMessage where
  toolCallId : String
  toolName : String
  content : Option (List Part)
  isError : Bool

inductive Message where
  | system (content : Option Content)
  | user (content : Option Content)
  | assistant (message : AssistantMessage)
  | toolResult (message : ToolResultMessage)

structure Model where
  id : String
  provider : String
  api : String
  /-- `input.includes("image")` -/
  takesImages : Bool

def Block.toolCall? : Block → Option ToolCall
  | .toolCall call => some call
  | _ => none

def AssistantMessage.toolCalls (a : AssistantMessage) : List ToolCall :=
  (a.content.getD []).filterMap Block.toolCall?

def AssistantMessage.callIds (a : AssistantMessage) : List String := a.toolCalls.map (·.id)

def AssistantMessage.failed (a : AssistantMessage) : Bool :=
  a.stopReason = .error || a.stopReason = .aborted

/-! ## Images -/

def nonVisionUserImagePlaceholder : String := "(image omitted: model does not support images)"

def nonVisionToolImagePlaceholder : String := "(tool image omitted: model does not support images)"

/-- The loop of `replaceImagesWithPlaceholder`: a run of images becomes one placeholder. -/
def replaceImagesFrom (placeholder : String) : Bool → List Part → List Part
  | _, [] => []
  | previousWasPlaceholder, .image _ _ :: rest =>
    if previousWasPlaceholder then replaceImagesFrom placeholder true rest
    else .text placeholder none :: replaceImagesFrom placeholder true rest
  | _, .text text textSignature :: rest =>
    .text text textSignature :: replaceImagesFrom placeholder (text = placeholder) rest

def replaceImagesWithPlaceholder (content : List Part) (placeholder : String) : List Part :=
  replaceImagesFrom placeholder false content

/-- `msg.content == null ? { ...msg, content: [] } : msg` -/
def normalizeContent : Message → Message
  | .system none => .system (some (.parts []))
  | .user none => .user (some (.parts []))
  | .assistant a => .assistant { a with content := some (a.content.getD []) }
  | .toolResult r => .toolResult { r with content := some (r.content.getD []) }
  | m => m

def downgradeMessage : Message → Message
  | .user (some (.parts parts)) =>
    .user (some (.parts (replaceImagesWithPlaceholder parts nonVisionUserImagePlaceholder)))
  | .toolResult r => .toolResult { r with
      content := r.content.map (replaceImagesWithPlaceholder · nonVisionToolImagePlaceholder) }
  | m => m

def downgradeUnsupportedImages (messages : List Message) (model : Model) : List Message :=
  if model.takesImages then messages else messages.map downgradeMessage

/-! ## The first pass -/

section FirstPass

variable (model : Model)
  (normalizeToolCallId : Option (String → Model → AssistantMessage → String))

/-- `toolCallIdMap`, the latest entry first. -/
abbrev IdMap := List (String × String)

def isSameModel (a : AssistantMessage) : Bool :=
  a.provider = model.provider && a.api = model.api && a.model = model.id

/-- What `trim` removes. -/
def isTrimmed (c : Char) : Bool :=
  c.toNat ∈ [9, 10, 11, 12, 13, 32, 0xA0, 0x1680, 0x2028, 0x2029, 0x202F, 0x205F, 0x3000, 0xFEFF]
    || (0x2000 ≤ c.toNat && c.toNat ≤ 0x200A)

def isTruthy (text : Option String) : Bool := text.any (· ≠ "")

/-- `Some` id the call of a message of another model is given. -/
def normalizedId (a : AssistantMessage) (id : String) : String :=
  match normalizeToolCallId with
  | some normalize => if isSameModel model a then id else normalize id model a
  | none => id

def transformBlock (a : AssistantMessage) (ids : IdMap) : Block → IdMap × List Block
  | .thinking thinking thinkingSignature redacted =>
    if !isSameModel model a then (ids, [])
    else if redacted || isTruthy thinkingSignature then
      (ids, [.thinking thinking thinkingSignature redacted])
    else if thinking.toList.all isTrimmed then (ids, [])
    else (ids, [.thinking thinking thinkingSignature redacted])
  | .text text textSignature =>
    (ids, [.text text (if isSameModel model a then textSignature else none)])
  | .toolCall call =>
    let normalizedToolCall :=
      if !isSameModel model a && isTruthy call.thoughtSignature then
        { call with thoughtSignature := none }
      else call
    let id := normalizedId model normalizeToolCallId a call.id
    if id ≠ call.id then ((call.id, id) :: ids, [.toolCall { normalizedToolCall with id := id }])
    else (ids, [.toolCall normalizedToolCall])

def transformBlocks (a : AssistantMessage) : IdMap → List Block → IdMap × List Block
  | ids, [] => (ids, [])
  | ids, block :: rest =>
    let (ids, blocks) := transformBlock model normalizeToolCallId a ids block
    let (ids, others) := transformBlocks a ids rest
    (ids, blocks ++ others)

/-- The id a tool result is sent under. An empty one is falsy and ignored. -/
def idInForce (ids : IdMap) (id : String) : String :=
  match ids.lookup id with
  | some normalized => if normalized ≠ "" ∧ normalized ≠ id then normalized else id
  | none => id

def transformMessage (ids : IdMap) : Message → IdMap × Message
  | .assistant a =>
    let (ids, content) := transformBlocks model normalizeToolCallId a ids (a.content.getD [])
    (ids, .assistant { a with content := some content })
  | .toolResult r => (ids, .toolResult { r with toolCallId := idInForce ids r.toolCallId })
  | m => (ids, m)

def firstPass : IdMap → List Message → List Message
  | _, [] => []
  | ids, m :: rest =>
    let (ids, m) := transformMessage model normalizeToolCallId ids m
    m :: firstPass ids rest

end FirstPass

/-! ## The second pass -/

structure Pass where
  result : List Message
  pendingToolCalls : List ToolCall
  existingToolResultIds : List String
  heldSystemMessages : List Message

def noResult (call : ToolCall) : ToolResultMessage :=
  ⟨call.id, call.name, some [.text "No result provided" none], true⟩

namespace Pass

def closePendingToolCalls (s : Pass) : Pass where
  result := s.result
    ++ (s.pendingToolCalls.filter (·.id ∉ s.existingToolResultIds)).map (.toolResult ∘ noResult)
    ++ s.heldSystemMessages
  pendingToolCalls := []
  existingToolResultIds := if s.pendingToolCalls.isEmpty then s.existingToolResultIds else []
  heldSystemMessages := []

def step (s : Pass) : Message → Pass
  | .assistant a =>
    let s := s.closePendingToolCalls
    if a.failed then s
    else if a.toolCalls.isEmpty then { s with result := s.result ++ [.assistant a] }
    else { s with
      result := s.result ++ [.assistant a]
      pendingToolCalls := a.toolCalls
      existingToolResultIds := [] }
  | .toolResult r => { s with
      result := s.result ++ [.toolResult r]
      existingToolResultIds := r.toolCallId :: s.existingToolResultIds }
  | .system content =>
    if s.pendingToolCalls.isEmpty then { s with result := s.result ++ [.system content] }
    else { s with heldSystemMessages := s.heldSystemMessages ++ [.system content] }
  | .user content =>
    let s := s.closePendingToolCalls
    { s with result := s.result ++ [.user content] }

end Pass

def transformMessages (messages : List Message) (model : Model)
    (normalizeToolCallId : Option (String → Model → AssistantMessage → String)) : List Message :=
  let imageAware := downgradeUnsupportedImages (messages.map normalizeContent) model
  let transformed := firstPass model normalizeToolCallId [] imageAware
  (transformed.foldl Pass.step ⟨[], [], [], []⟩).closePendingToolCalls.result

end ThreeXhaust.Ai
