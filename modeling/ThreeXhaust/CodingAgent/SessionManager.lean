import ThreeXhaust.Lib.Assoc
import ThreeXhaust.Lib.Lines
import ThreeXhaust.Lib.Utf8Decode
import ThreeXhaust.Lib.Json.Line
import ThreeXhaust.Lib.Json.Script
import ThreeXhaust.Tui.Schema

/-!
# Session files

`session-manager.ts`: a session is a tree of entries, kept in memory and in a file of JSON lines,
its header first. An append puts the entry into memory, writes its line, and takes the entry out
again where the write throws. The file is created with the first message of the conversation, from
everything there is in memory by then.

An entry is the JSON it is written as: a field that is undefined is left out. What a write does
besides writing everything is its `Fault`; the clock and the random ids are arguments of a call.
What the context of the branch says about the system prompt is an argument of `appendCompaction`.
-/

namespace ThreeXhaust.CodingAgent

open Json

/-- Data that a caller hands over. -/
abbrev Payload := {v : Value // v.IsJson}

abbrev Message := {v : Value // v.IsJson ∧ ∃ fields, v = .obj fields}

abbrev FileEntry := Value

def optional (key : String) : Option Payload → List (String × Value)
  | none => []
  | some v => [(key, v.1)]

def optionalText (key : String) : Option String → List (String × Value)
  | none => []
  | some s => [(key, .str s)]

def optionalFlag (key : String) : Option Bool → List (String × Value)
  | none => []
  | some b => [(key, .bool b)]

def nullable : Option String → Value
  | none => .null
  | some s => .str s

def hasKey (v : Value) (key : String) : Bool := key ∈ v.keys

def isFiniteNumber : Value → Bool
  | .num (.finite _) => true
  | _ => false

def textOf (v : Value) (key : String) : Option String :=
  match v.get key with
  | .str s => some s
  | _ => none

def idOf (entry : FileEntry) : String := (textOf entry "id").getD ""

def isSession (e : FileEntry) : Bool := textOf e "type" = some "session"

/-! ## Loading -/

/-- What one line holds: nothing where it is blank, malformed, or no object or other true value. -/
def parseSessionEntryLine (line : Bytes) : Option FileEntry :=
  let text := decodeUtf8 line
  if Tui.isBlank text then none else (parse text).filter Value.truthy

def sessionReadBufferSize : Nat := 1024 * 1024

def readEntries (file : Bytes) : List FileEntry × Bytes :=
  let (entries, pending) := Lines.read 10 parseSessionEntryLine
    (Lines.pieces sessionReadBufferSize file.length file)
  (entries ++ (parseSessionEntryLine pending).toList, pending)

def isHeader (e : FileEntry) : Bool := isSession e && (textOf e "id").isSome

def loadEntriesFromFile (file : Bytes) : List FileEntry × Bytes :=
  let (entries, pending) := readEntries file
  match entries with
  | [] => ([], file)
  | header :: _ =>
    if isHeader header then (entries, if pending = [] then file else file ++ [10])
    else ([], file)

/-! ## The manager -/

structure Manager where
  /-- The header first. -/
  fileEntries : List FileEntry
  byId : List (String × FileEntry)
  labelsById : List (String × String)
  labelTimestampsById : List (String × String)
  leafId : Option String
  flushed : Bool

/-- `_buildIndex`, one entry. -/
def Manager.index (m : Manager) (entry : FileEntry) : Manager :=
  if isSession entry then m
  else
    let m := { m with byId := Assoc.set m.byId (idOf entry) entry, leafId := some (idOf entry) }
    if textOf entry "type" = some "label" then
      let targetId := (textOf entry "targetId").getD ""
      match textOf entry "label" with
      | some label =>
        if label = "" then
          { m with
            labelsById := Assoc.erase m.labelsById targetId
            labelTimestampsById := Assoc.erase m.labelTimestampsById targetId }
        else
          { m with
            labelsById := Assoc.set m.labelsById targetId label
            labelTimestampsById :=
              Assoc.set m.labelTimestampsById targetId ((textOf entry "timestamp").getD "") }
      | none =>
        { m with
          labelsById := Assoc.erase m.labelsById targetId
          labelTimestampsById := Assoc.erase m.labelTimestampsById targetId }
    else m

def Manager.buildIndex (entries : List FileEntry) (flushed : Bool) : Manager :=
  entries.foldl Manager.index ⟨entries, [], [], [], none, flushed⟩

def newHeader (sessionId timestamp cwd : String) (parentSession : Option String) : FileEntry :=
  .obj ([("type", .str "session"), ("version", .nat 3), ("id", .str sessionId),
    ("timestamp", .str timestamp), ("cwd", .str cwd)] ++ optionalText "parentSession" parentSession)

def newSession (header : FileEntry) : Manager := ⟨[header], [], [], [], none, false⟩

def getEntryUsage (e : FileEntry) : Value :=
  let type := textOf e "type"
  let message := e.get "message"
  let role := textOf message "role"
  if type = some "message" ∧ (role = some "assistant" ∨ role = some "toolResult") then
    message.get "usage"
  else if type = some "branch_summary" ∨ type = some "compaction" ∨ type = some "usage" then
    e.get "usage"
  else if type ≠ some "custom" ∨ textOf e "customType" ≠ some "pi.summarization_usage" then .undefined
  else
    let usage := (e.get "data").get "usage"
    let cost := usage.get "cost"
    let values := ["input", "output", "cacheRead", "cacheWrite", "totalTokens"].map usage.get ++
      ["input", "output", "cacheRead", "cacheWrite", "total"].map cost.get
    let optionalValues := ["cacheWrite1h", "reasoning"].map usage.get
    if values.all isFiniteNumber && optionalValues.all (fun v => v.isUndefined || isFiniteNumber v)
    then usage else .undefined

def hasConversation (fileEntries : List FileEntry) : Bool :=
  fileEntries.any fun e =>
    let role := textOf (e.get "message") "role"
    (textOf e "type" = some "message" ∧ (role = some "user" ∨ role = some "assistant")) ∨
      (¬ isSession e ∧ textOf e "type" ≠ some "usage" ∧ ¬ (getEntryUsage e).isUndefined)

/-! ## Writing -/

inductive Fault where
  /-- Everything is written. -/
  | none
  /-- The file cannot be opened. -/
  | opening
  /-- The write throws after so many bytes, fewer than all. -/
  | writing (bytes : Nat)
  /-- Everything is written, and the call throws. -/
  | closing
deriving DecidableEq

/-- Write behind a content: the content after it, and whether it went through. -/
def Fault.write (fault : Fault) (content bytes : Bytes) : Bytes × Bool :=
  match fault with
  | .none => (content ++ bytes, true)
  | .opening => (content, false)
  | .writing n => (content ++ bytes.dropLast.take n, false)
  | .closing => (content ++ bytes, false)

structure World where
  manager : Manager
  disk : Option Bytes
  returned : List FileEntry

/-- `_persist`: the error, where the write throws one. -/
def World.persist (w : World) (fault : Fault) (entry : FileEntry) : World × Option String :=
  if w.manager.flushed then
    let (file, done) := fault.write (w.disk.getD []) entry.line
    let opened := w.disk.isSome || fault ≠ .opening
    ({ w with disk := if opened then some file else none }, if done then none else some "EIO")
  else if hasConversation w.manager.fileEntries then
    -- the file must be new
    if w.disk.isSome then (w, some "EEXIST")
    else if fault = .opening then (w, some "EACCES")
    else
      let (file, done) := fault.write [] (w.manager.fileEntries.flatMap Value.line)
      ({ w with disk := some file, manager := { w.manager with flushed := done } },
        if done then none else some "EIO")
  else (w, none)

def Manager.put (m : Manager) (entry : FileEntry) : Manager :=
  { m with
    fileEntries := m.fileEntries ++ [entry]
    byId := Assoc.set m.byId (idOf entry) entry
    leafId := some (idOf entry) }

def Manager.takeOut (m : Manager) (entry : FileEntry) (previousLeafId : Option String) : Manager :=
  { m with
    fileEntries := m.fileEntries.dropLast
    byId := Assoc.erase m.byId (idOf entry)
    leafId := previousLeafId }

def World.appendEntry (w : World) (fault : Fault) (entry : FileEntry) :
    World × Except String FileEntry :=
  let previousLeafId := w.manager.leafId
  let (w, error) := { w with manager := w.manager.put entry }.persist fault entry
  match error with
  | none => (w, .ok entry)
  | some error =>
    -- keep memory in line with the file: an entry that was not written must not become the parent
    -- of later entries
    ({ w with manager := w.manager.takeOut entry previousLeafId }, .error error)

/-! ## The operations -/

/-- What a call takes from its surroundings: random ids, the time, and how its write goes. -/
structure Env where
  /-- The first eight digits of up to a hundred random ids. -/
  tries : List String
  /-- A whole random id. -/
  fallback : String
  timestamp : String
  fault : Fault

def Env.generateId (env : Env) (byId : List (String × FileEntry)) : String :=
  (env.tries.find? fun id => (byId.lookup id).isNone).getD env.fallback

def baseFields (env : Env) (m : Manager) (type : String) : List (String × Value) :=
  [("type", .str type), ("id", .str (env.generateId m.byId)), ("parentId", nullable m.leafId),
    ("timestamp", .str env.timestamp)]

def World.appendMessage (w : World) (env : Env) (message : Message) :
    World × Except String FileEntry :=
  w.appendEntry env.fault (.obj (baseFields env w.manager "message" ++ [("message", message.1)]))

def World.appendThinkingLevelChange (w : World) (env : Env) (thinkingLevel : String) :
    World × Except String FileEntry :=
  w.appendEntry env.fault (.obj (baseFields env w.manager "thinking_level_change" ++
    [("thinkingLevel", .str thinkingLevel)]))

def World.appendModelChange (w : World) (env : Env) (provider modelId : String) :
    World × Except String FileEntry :=
  w.appendEntry env.fault (.obj (baseFields env w.manager "model_change" ++
    [("provider", .str provider), ("modelId", .str modelId)]))

def World.appendUsage (w : World) (env : Env) (kind provider model : String) (usage : Payload)
    (note : Option String) : World × Except String FileEntry :=
  w.appendEntry env.fault (.obj (baseFields env w.manager "usage" ++
    ([("kind", .str kind), ("provider", .str provider), ("model", .str model),
      ("usage", usage.1)] ++ optionalText "note" (note.filter (· ≠ "")))))

/-- `systemMessage` is what the context of the branch holds, with the time of this call. -/
def World.appendCompaction (w : World) (env : Env) (summary : String)
    (firstKeptEntryId : Option String) (tokensBefore : Decimal) (details : Option Payload)
    (fromHook : Option Bool) (usage systemMessage : Option Payload) :
    World × Except String FileEntry :=
  w.appendEntry env.fault (.obj (baseFields env w.manager "compaction" ++
    ([("summary", .str summary),
      ("firstKeptEntryId", .str (firstKeptEntryId.getD (env.generateId w.manager.byId))),
      ("tokensBefore", .num (.finite tokensBefore))] ++ optional "details" details ++
      optional "usage" usage ++ optionalFlag "fromHook" fromHook ++
      optional "systemMessage" systemMessage)))

def World.appendCustomEntry (w : World) (env : Env) (customType : String)
    (data : Option Payload) : World × Except String FileEntry :=
  w.appendEntry env.fault (.obj ([("type", .str "custom"), ("customType", .str customType)] ++
    optional "data" data ++ (baseFields env w.manager "custom").drop 1))

/-- `name.replace(/[\r\n]+/g, " ")`; `inside` is whether the last character was replaced. -/
def joinLines : Bool → List Char → List Char
  | _, [] => []
  | inside, c :: cs =>
    if c = '\r' ∨ c = '\n' then
      if inside then joinLines true cs else ' ' :: joinLines true cs
    else c :: joinLines false cs

def trimText (cs : List Char) : List Char :=
  ((cs.dropWhile Tui.isTrimmed).reverse.dropWhile Tui.isTrimmed).reverse

def World.appendSessionInfo (w : World) (env : Env) (name : String) :
    World × Except String FileEntry :=
  let sanitizedName := String.ofList (trimText (joinLines false name.toList))
  w.appendEntry env.fault (.obj (baseFields env w.manager "session_info" ++
    [("name", .str sanitizedName)]))

def World.appendCustomMessageEntry (w : World) (env : Env) (customType : String)
    (content : Payload) (display : Bool) (details : Option Payload) :
    World × Except String FileEntry :=
  w.appendEntry env.fault (.obj ([("type", .str "custom_message"),
    ("customType", .str customType), ("content", content.1), ("display", .bool display)] ++
    optional "details" details ++ (baseFields env w.manager "custom_message").drop 1))

/-- `getBranch`: from an entry up to its root. No branch is longer than there are entries. -/
def Manager.branchFrom (m : Manager) : Nat → Option String → List FileEntry
  | 0, _ => []
  | _ + 1, none => []
  | fuel + 1, some id =>
    match m.byId.lookup id with
    | none => []
    | some entry => entry :: m.branchFrom fuel (textOf entry "parentId")

def isArray : Value → Bool
  | .arr _ => true
  | _ => false

def isText : Value → Bool
  | .str _ => true
  | _ => false

def isReplacement (replacement : Value) : Bool :=
  match replacement with
  | .null => true
  | .obj _ =>
    hasKey replacement "content" &&
      (isText (replacement.get "content") || isArray (replacement.get "content"))
  | _ => false

def isEditable (target : FileEntry) : Bool :=
  textOf target "type" = some "custom_message" ||
    (textOf target "type" = some "message" &&
      textOf (target.get "message") "role" ∈ [some "user", some "assistant", some "toolResult"])

def normalizeReplacement (target replacement : Value) : Value :=
  let role := if textOf target "type" = some "message" then textOf (target.get "message") "role"
    else some "custom"
  match replacement.get "content" with
  | .str text =>
    if role = some "assistant" ∨ role = some "toolResult" then
      .obj [("content", .arr [.obj [("type", .str "text"), ("text", .str text)]])]
    else replacement
  | _ => replacement

def World.appendContextEdit (w : World) (env : Env) (targetId : String) (replacement : Payload) :
    World × Except String FileEntry :=
  let m := w.manager
  if !isReplacement replacement.1 then
    (w, .error "Context edit replacement must be null or contain string/array content")
  else match m.byId.lookup targetId with
  | none => (w, .error s!"Entry {targetId} not found")
  | some target =>
    if !(m.branchFrom m.byId.length m.leafId).any (textOf · "id" = some targetId) then
      (w, .error s!"Entry {targetId} is not on the active branch")
    else if !isEditable target then
      (w, .error s!"Entry {targetId} does not contribute editable model content")
    else
      w.appendEntry env.fault (.obj (baseFields env m "context_edit" ++
        [("targetId", .str targetId),
          ("replacement", normalizeReplacement target replacement.1)]))

def World.appendLabelChange (w : World) (env : Env) (targetId : String) (label : Option String) :
    World × Except String FileEntry :=
  if (w.manager.byId.lookup targetId).isNone then (w, .error s!"Entry {targetId} not found")
  else
    let (w, result) := w.appendEntry env.fault (.obj (baseFields env w.manager "label" ++
      ([("targetId", .str targetId)] ++ optionalText "label" label)))
    match result with
    | .error error => (w, .error error)
    | .ok entry =>
      let m := w.manager
      match label.filter (· ≠ "") with
      | some label =>
        ({ w with manager := { m with
          labelsById := Assoc.set m.labelsById targetId label
          labelTimestampsById := Assoc.set m.labelTimestampsById targetId env.timestamp } },
          .ok entry)
      | none =>
        ({ w with manager := { m with
          labelsById := Assoc.erase m.labelsById targetId
          labelTimestampsById := Assoc.erase m.labelTimestampsById targetId } }, .ok entry)

def World.branch (w : World) (branchFromId : String) : World × Except String Unit :=
  if (w.manager.byId.lookup branchFromId).isNone then
    (w, .error s!"Entry {branchFromId} not found")
  else ({ w with manager := { w.manager with leafId := some branchFromId } }, .ok ())

def World.resetLeaf (w : World) : World :=
  { w with manager := { w.manager with leafId := none } }

def World.branchWithSummary (w : World) (env : Env) (branchFromId : Option String)
    (summary : String) (details : Option Payload) (fromHook : Option Bool)
    (usage : Option Payload) : World × Except String FileEntry :=
  match branchFromId.filter fun id => (w.manager.byId.lookup id).isNone with
  | some id => (w, .error s!"Entry {id} not found")
  | none =>
    let fromId := w.manager.leafId.getD "root"
    let w := { w with manager := { w.manager with leafId := branchFromId } }
    w.appendEntry env.fault (.obj (baseFields env w.manager "branch_summary" ++
      ([("fromId", .str fromId), ("summary", .str summary)] ++ optional "details" details ++
        optional "usage" usage ++ optionalFlag "fromHook" fromHook)))

/-! ## Runs -/

inductive Operation where
  | appendMessage (message : Message)
  | appendThinkingLevelChange (thinkingLevel : String)
  | appendModelChange (provider modelId : String)
  | appendUsage (kind provider model : String) (usage : Payload) (note : Option String)
  | appendCompaction (summary : String) (firstKeptEntryId : Option String)
      (tokensBefore : Decimal) (details : Option Payload) (fromHook : Option Bool)
      (usage systemMessage : Option Payload)
  | appendCustomEntry (customType : String) (data : Option Payload)
  | appendSessionInfo (name : String)
  | appendCustomMessageEntry (customType : String) (content : Payload) (display : Bool)
      (details : Option Payload)
  | appendContextEdit (targetId : String) (replacement : Payload)
  | appendLabelChange (targetId : String) (label : Option String)
  | branch (branchFromId : String)
  | resetLeaf
  | branchWithSummary (branchFromId : Option String) (summary : String)
      (details : Option Payload) (fromHook : Option Bool) (usage : Option Payload)

structure Call where
  env : Env
  operation : Operation

def World.call (w : World) (c : Call) : World × Except String (Option FileEntry) :=
  let appended (result : World × Except String FileEntry) := (result.1, result.2.map some)
  match c.operation with
  | .appendMessage message => appended (w.appendMessage c.env message)
  | .appendThinkingLevelChange level => appended (w.appendThinkingLevelChange c.env level)
  | .appendModelChange provider modelId => appended (w.appendModelChange c.env provider modelId)
  | .appendUsage kind provider model usage note =>
    appended (w.appendUsage c.env kind provider model usage note)
  | .appendCompaction summary firstKeptEntryId tokensBefore details fromHook usage system =>
    appended
      (w.appendCompaction c.env summary firstKeptEntryId tokensBefore details fromHook usage system)
  | .appendCustomEntry customType data => appended (w.appendCustomEntry c.env customType data)
  | .appendSessionInfo name => appended (w.appendSessionInfo c.env name)
  | .appendCustomMessageEntry customType content display details =>
    appended (w.appendCustomMessageEntry c.env customType content display details)
  | .appendContextEdit targetId replacement =>
    appended (w.appendContextEdit c.env targetId replacement)
  | .appendLabelChange targetId label => appended (w.appendLabelChange c.env targetId label)
  | .branch branchFromId =>
    let (w, result) := w.branch branchFromId
    (w, result.map fun _ => none)
  | .resetLeaf => (w.resetLeaf, .ok none)
  | .branchWithSummary branchFromId summary details fromHook usage =>
    appended (w.branchWithSummary c.env branchFromId summary details fromHook usage)

def World.step (w : World) (c : Call) : World :=
  let (w, result) := w.call c
  match result with
  | .ok (some entry) => { w with returned := w.returned ++ [entry] }
  | _ => w

end ThreeXhaust.CodingAgent
