import ThreeXhaust.Lib.Except
import ThreeXhaust.Lib.Json.SortKeys

/-!
# The semantic contract

`semantic-contract/src/types.ts` and `parse.ts`: the requests a turn sends to the provider and
the outputs it gets back. The types carry what the parsers check, so a parsed value is valid
by construction, and `toValue` is the object the parser returns.

* **`parseSemanticTurnRequest_toValue`**, **`parseSemanticOutput_toValue`** — what was parsed
  once is parsed again to the same value.
-/

namespace ThreeXhaust.Semantic

open Json

inductive SemanticContractErrorCode where
  | invalidType
  | invalidKeys
  | unsupportedVersion
  | invalidIdentifier
  | invalidText
  | invalidLength
  | invalidValue
deriving DecidableEq

structure SemanticContractError where
  code : SemanticContractErrorCode
  message : String
deriving DecidableEq

/-- What a parser throws: its own error, or the `TypeError` of `String(value)`. -/
inductive ParseFailure where
  | contract (error : SemanticContractError)
  | typeError (message : String)
deriving DecidableEq

def ParseFailure.message : ParseFailure → String
  | .contract error => error.message
  | .typeError message => message

abbrev Parsed (α : Type) := Except ParseFailure α

def fail {α : Type} (code : SemanticContractErrorCode) (message : String) : Parsed α :=
  .error (.contract ⟨code, message⟩)

def maxSourceText : Nat := 1048576
def maxList : Nat := 64

/-! ## Objects, texts, lists and identifiers -/

def object (value : Value) : Parsed Value :=
  match value with
  | .obj _ => .ok value
  | _ => fail .invalidType "Semantic value must be an object"

def exactKeys (value : Value) (required optional : List String) : Parsed Unit :=
  if required.any (· ∉ value.keys) || value.keys.any (· ∉ required ++ optional) then
    fail .invalidKeys "Semantic value has invalid keys"
  else .ok ()

/-- Text as the options of `text` admit it. -/
abbrev Text (max : Option Nat) (nonEmpty : Bool) :=
  { s : String // (nonEmpty = true → s ≠ "") ∧ ∀ m ∈ max, utf16Length s ≤ m }

def text (max : Option Nat) (nonEmpty : Bool) (value : Value) : Parsed (Text max nonEmpty) :=
  match value with
  | .str s =>
    if hempty : nonEmpty = true ∧ s = "" then
      fail .invalidLength "Declared text must not be empty"
    else if hmax : ∀ m ∈ max, utf16Length s ≤ m then
      .ok ⟨s, fun hn hs => hempty ⟨hn, hs⟩, hmax⟩
    else fail .invalidLength "Declared text exceeds maximum length"
  | _ => fail .invalidText "Declared text must be a string"

/-- Lists as the options of `list` admit them. -/
abbrev Items (α : Type) (nonEmpty : Bool) :=
  { xs : List α // (nonEmpty = true → xs ≠ []) ∧ xs.length ≤ maxList }

theorem mapM_length {α : Type} {parse : Value → Parsed α} {items : List Value} {xs : List α}
    (h : items.mapM parse = .ok xs) : xs.length = items.length := by
  induction items generalizing xs with
  | nil =>
    cases h
    rfl
  | cons item rest ih =>
    rw [List.mapM_cons] at h
    obtain ⟨x, -, h⟩ := Except.bind_eq_ok.mp h
    obtain ⟨ys, hys, h⟩ := Except.bind_eq_ok.mp h
    cases h
    rw [List.length_cons, List.length_cons, ih hys]

def list {α : Type} (nonEmpty : Bool) (parse : Value → Parsed α) (value : Value) :
    Parsed (Items α nonEmpty) :=
  match value with
  | .arr items =>
    if hempty : nonEmpty = true ∧ items = [] then
      fail .invalidLength "Semantic list must not be empty"
    else if hmax : items.length ≤ maxList then
      match h : items.mapM parse with
      | .error e => .error e
      | .ok xs => .ok ⟨xs, fun hn hxs => hempty ⟨hn, List.length_eq_zero_iff.mp
          ((mapM_length h).symm.trans (by rw [hxs]; rfl))⟩, (mapM_length h).trans_le hmax⟩
    else fail .invalidLength "Semantic list exceeds maximum length"
  | _ => fail .invalidType "Semantic list must be an array"

def isAlphanumeric (c : Char) : Bool :=
  ('A' ≤ c && c ≤ 'Z') || ('a' ≤ c && c ≤ 'z') || ('0' ≤ c && c ≤ '9')

/-- `/^[A-Za-z0-9][A-Za-z0-9_-]{0,126}$/`. -/
def isIdSuffix : List Char → Bool
  | [] => false
  | c :: rest => isAlphanumeric c && rest.length ≤ 126
      && rest.all fun d => isAlphanumeric d || d = '_' || d = '-'

def isOpaque (tag s : String) : Bool :=
  tag.toList.isPrefixOf s.toList && isIdSuffix (s.toList.drop tag.length)

abbrev OpaqueId (tag : String) := { s : String // isOpaque tag s = true }

abbrev ProjectId := OpaqueId "prj_"
abbrev SelectionId := OpaqueId "sel_"
abbrev DocumentId := OpaqueId "doc_"
abbrev ObservationId := OpaqueId "obs_"

def opaqueId (tag : String) (value : Value) : Parsed (OpaqueId tag) :=
  match value with
  | .str s =>
    if h : isOpaque tag s = true then .ok ⟨s, h⟩
    else fail .invalidIdentifier "Opaque identifier has invalid format"
  | _ => fail .invalidIdentifier "Opaque identifier has invalid format"

def parseProjectId : Value → Parsed ProjectId := opaqueId "prj_"

/-- A value whose string is among the words: text, or text an array joins to. -/
abbrev Word (words : List String) := { value : Value // ∃ s, value.jsString = some s ∧ s ∈ words }

/-- `words.includes(String(value))`; the value is kept as it is. -/
def word (words : List String) (value : Value) : Parsed (Option (Word words)) :=
  match h : value.jsString with
  | none => .error (.typeError "Cannot convert object to primitive value")
  | some s => if hs : s ∈ words then .ok (some ⟨value, s, h, hs⟩) else .ok none

/-! ## Turn requests -/

def turnModes : List String := ["prompt", "steer", "followUp"]

structure Disclosed where
  selectionIds : Items SelectionId false
  documentIds : Items DocumentId false
  observationIds : Items ObservationId false

structure SemanticTurnRequest where
  mode : Word turnModes
  objective : Text none true
  disclosed : Disclosed

def parseDisclosed (disclosed : Value) : Parsed Disclosed := do
  let selectionIds ← list false (opaqueId "sel_") (disclosed.get "selectionIds")
  let documentIds ← list false (opaqueId "doc_") (disclosed.get "documentIds")
  let observationIds ← list false (opaqueId "obs_") (disclosed.get "observationIds")
  .ok ⟨selectionIds, documentIds, observationIds⟩

def parseSemanticTurnRequest (value : Value) : Parsed SemanticTurnRequest := do
  let candidate ← object value
  exactKeys candidate ["protocolVersion", "mode", "objective", "disclosed"] []
  if (candidate.get "protocolVersion").isNat 2 then
    match ← word turnModes (candidate.get "mode") with
    | none => fail .invalidValue "Semantic turn mode is unsupported"
    | some mode =>
      let disclosed ← object (candidate.get "disclosed")
      exactKeys disclosed ["selectionIds", "documentIds", "observationIds"] []
      let objective ← text none true (candidate.get "objective")
      let disclosed ← parseDisclosed disclosed
      .ok ⟨mode, objective, disclosed⟩
  else fail .unsupportedVersion "Unsupported semantic protocol version"

/-! ## Outputs -/

inductive SemanticTarget where
  | selection (selectionId : SelectionId)
  | documents (documentIds : Items DocumentId true) (hint : Option String)
  | symbol (hint : Text none true)
  | error (fingerprint : Text none true)
  | behavior (description : Text none true)
  | ui (role name : Text none true)

def workKinds : List String := ["inspect", "modify", "review", "verify"]

structure WorkIntent where
  kind : Word workKinds
  objective : Text none true
  target : SemanticTarget
  evidenceGoals : Items (Text none false) false
  constraints : Items (Text none false) false
  doneWhen : Text none true

structure CompletionClaim where
  observationRef : ObservationId
  claim : Text none true

inductive Intent where
  | work (intent : WorkIntent)
  | clarify (question reason : Text none true)
  | complete (summary : Text none true) (claims : Items CompletionClaim true)

structure ProposedEdit where
  documentId : DocumentId
  oldText : Text (some maxSourceText) true
  newText : Text (some maxSourceText) false

structure PatchProposal where
  edits : Items ProposedEdit true
  assumptions : Items (Text none false) false
  verificationGoals : Items (Text none false) false

inductive SemanticOutput where
  | intent (payload : Intent)
  | patchProposal (payload : PatchProposal)

def texts : Value → Parsed (Items (Text none false) false) := list false (text none false)

/-- A hint that is `undefined` is left out. -/
def parseHint (value : Value) : Parsed (Option String) :=
  match value with
  | .undefined => .ok none
  | value => (text none false value).map fun hint => some hint.1

def parseTarget (value : Value) : Parsed SemanticTarget := do
  let candidate ← object value
  match candidate.get "kind" with
  | .str "selection" => do
    exactKeys candidate ["kind", "selectionId"] []
    let selectionId ← opaqueId "sel_" (candidate.get "selectionId")
    .ok (.selection selectionId)
  | .str "documents" => do
    exactKeys candidate ["kind", "documentIds"] ["hint"]
    let documentIds ← list true (opaqueId "doc_") (candidate.get "documentIds")
    let hint ← parseHint (candidate.get "hint")
    .ok (.documents documentIds hint)
  | .str "symbol" => do
    exactKeys candidate ["kind", "hint"] []
    let hint ← text none true (candidate.get "hint")
    .ok (.symbol hint)
  | .str "error" => do
    exactKeys candidate ["kind", "fingerprint"] []
    let fingerprint ← text none true (candidate.get "fingerprint")
    .ok (.error fingerprint)
  | .str "behavior" => do
    exactKeys candidate ["kind", "description"] []
    let description ← text none true (candidate.get "description")
    .ok (.behavior description)
  | .str "ui" => do
    exactKeys candidate ["kind", "role", "name"] []
    let role ← text none true (candidate.get "role")
    let name ← text none true (candidate.get "name")
    .ok (.ui role name)
  | _ => fail .invalidValue "Semantic target kind is unsupported"

def parseWorkIntent (candidate : Value) (kind : Word workKinds) : Parsed WorkIntent := do
  exactKeys candidate
    ["kind", "objective", "target", "evidenceGoals", "constraints", "doneWhen"] []
  let objective ← text none true (candidate.get "objective")
  let target ← parseTarget (candidate.get "target")
  let evidenceGoals ← texts (candidate.get "evidenceGoals")
  let constraints ← texts (candidate.get "constraints")
  let doneWhen ← text none true (candidate.get "doneWhen")
  .ok ⟨kind, objective, target, evidenceGoals, constraints, doneWhen⟩

def parseClaim (value : Value) : Parsed CompletionClaim := do
  let candidate ← object value
  exactKeys candidate ["observationRef", "claim"] []
  let observationRef ← opaqueId "obs_" (candidate.get "observationRef")
  let claim ← text none true (candidate.get "claim")
  .ok ⟨observationRef, claim⟩

def parseIntent (value : Value) : Parsed Intent := do
  let candidate ← object value
  match ← word workKinds (candidate.get "kind") with
  | some kind => (parseWorkIntent candidate kind).map .work
  | none =>
    match candidate.get "kind" with
    | .str "clarify" => do
      exactKeys candidate ["kind", "question", "reason"] []
      let question ← text none true (candidate.get "question")
      let reason ← text none true (candidate.get "reason")
      .ok (.clarify question reason)
    | .str "complete" => do
      exactKeys candidate ["kind", "summary", "claims"] []
      let summary ← text none true (candidate.get "summary")
      let claims ← list true parseClaim (candidate.get "claims")
      .ok (.complete summary claims)
    | _ => fail .invalidValue "Intent kind is unsupported"

def parseEdit (value : Value) : Parsed ProposedEdit := do
  let candidate ← object value
  exactKeys candidate ["documentId", "oldText", "newText"] []
  let documentId ← opaqueId "doc_" (candidate.get "documentId")
  let oldText ← text (some maxSourceText) true (candidate.get "oldText")
  let newText ← text (some maxSourceText) false (candidate.get "newText")
  .ok ⟨documentId, oldText, newText⟩

def parseProposal (value : Value) : Parsed PatchProposal := do
  let candidate ← object value
  exactKeys candidate ["edits", "assumptions", "verificationGoals"] []
  let edits ← list true parseEdit (candidate.get "edits")
  let assumptions ← texts (candidate.get "assumptions")
  let verificationGoals ← texts (candidate.get "verificationGoals")
  .ok ⟨edits, assumptions, verificationGoals⟩

def parseSemanticOutput (value : Value) : Parsed SemanticOutput := do
  let candidate ← object value
  exactKeys candidate ["protocolVersion", "kind", "payload"] []
  if (candidate.get "protocolVersion").isNat 2 then
    match candidate.get "kind" with
    | .str "intent" => (parseIntent (candidate.get "payload")).map .intent
    | .str "patchProposal" => (parseProposal (candidate.get "payload")).map .patchProposal
    | _ => fail .invalidValue "Semantic output kind is unsupported"
  else fail .unsupportedVersion "Unsupported semantic protocol version"

/-! ## The objects the parsers return -/

def textValue {max : Option Nat} {nonEmpty : Bool} (t : Text max nonEmpty) : Value := .str t.1

def itemsValue {α : Type} {nonEmpty : Bool} (toValue : α → Value) (items : Items α nonEmpty) :
    Value :=
  .arr (items.1.map toValue)

def idValue {tag : String} (id : OpaqueId tag) : Value := .str id.1

def Disclosed.toValue (disclosed : Disclosed) : Value :=
  .obj [("selectionIds", itemsValue idValue disclosed.selectionIds),
    ("documentIds", itemsValue idValue disclosed.documentIds),
    ("observationIds", itemsValue idValue disclosed.observationIds)]

def SemanticTurnRequest.toValue (request : SemanticTurnRequest) : Value :=
  .obj [("protocolVersion", .nat 2), ("mode", request.mode.1),
    ("objective", textValue request.objective), ("disclosed", request.disclosed.toValue)]

def hintField : Option String → List (String × Value)
  | none => []
  | some hint => [("hint", .str hint)]

def SemanticTarget.toValue : SemanticTarget → Value
  | .selection selectionId => .obj [("kind", .str "selection"), ("selectionId", idValue selectionId)]
  | .documents documentIds hint =>
    .obj (("kind", .str "documents") :: ("documentIds", itemsValue idValue documentIds)
      :: hintField hint)
  | .symbol hint => .obj [("kind", .str "symbol"), ("hint", textValue hint)]
  | .error fingerprint => .obj [("kind", .str "error"), ("fingerprint", textValue fingerprint)]
  | .behavior description =>
    .obj [("kind", .str "behavior"), ("description", textValue description)]
  | .ui role name => .obj [("kind", .str "ui"), ("role", textValue role), ("name", textValue name)]

def WorkIntent.toValue (intent : WorkIntent) : Value :=
  .obj [("kind", intent.kind.1), ("objective", textValue intent.objective),
    ("target", intent.target.toValue), ("evidenceGoals", itemsValue textValue intent.evidenceGoals),
    ("constraints", itemsValue textValue intent.constraints),
    ("doneWhen", textValue intent.doneWhen)]

def CompletionClaim.toValue (claim : CompletionClaim) : Value :=
  .obj [("observationRef", idValue claim.observationRef), ("claim", textValue claim.claim)]

def Intent.toValue : Intent → Value
  | .work intent => intent.toValue
  | .clarify question reason =>
    .obj [("kind", .str "clarify"), ("question", textValue question), ("reason", textValue reason)]
  | .complete summary claims =>
    .obj [("kind", .str "complete"), ("summary", textValue summary),
      ("claims", itemsValue CompletionClaim.toValue claims)]

def ProposedEdit.toValue (edit : ProposedEdit) : Value :=
  .obj [("documentId", idValue edit.documentId), ("oldText", textValue edit.oldText),
    ("newText", textValue edit.newText)]

def PatchProposal.toValue (proposal : PatchProposal) : Value :=
  .obj [("edits", itemsValue ProposedEdit.toValue proposal.edits),
    ("assumptions", itemsValue textValue proposal.assumptions),
    ("verificationGoals", itemsValue textValue proposal.verificationGoals)]

def SemanticOutput.toValue : SemanticOutput → Value
  | .intent payload =>
    .obj [("protocolVersion", .nat 2), ("kind", .str "intent"), ("payload", payload.toValue)]
  | .patchProposal payload =>
    .obj [("protocolVersion", .nat 2), ("kind", .str "patchProposal"),
      ("payload", payload.toValue)]

/-! ## What was parsed is parsed again -/

variable {nonEmpty : Bool}

@[simp] theorem text_textValue {max : Option Nat} (t : Text max nonEmpty) :
    text max nonEmpty (textValue t) = .ok t := by
  obtain ⟨s, hempty, hmax⟩ := t
  have hnot : ¬ (nonEmpty = true ∧ s = "") := fun h => hempty h.1 h.2
  rw [textValue, text, dif_neg hnot, dif_pos hmax]

variable {tag : String}

@[simp] theorem opaqueId_idValue (id : OpaqueId tag) : opaqueId tag (idValue id) = .ok id := by
  rw [idValue, opaqueId]
  simp [id.2]

theorem list_itemsValue {α : Type} {parse : Value → Parsed α} {toValue : α → Value}
    (h : ∀ x, parse (toValue x) = .ok x) (items : Items α nonEmpty) :
    list nonEmpty parse (itemsValue toValue items) = .ok items := by
  obtain ⟨xs, hempty, hmax⟩ := items
  have hnot : ¬ (nonEmpty = true ∧ xs.map toValue = []) := by
    rintro ⟨hn, hnil⟩
    exact hempty hn (List.map_eq_nil_iff.mp hnil)
  have hlength : (xs.map toValue).length ≤ maxList := by rwa [List.length_map]
  have hread : (xs.map toValue).mapM parse = .ok xs := Except.mapM_map fun x _ => h x
  rw [itemsValue, list]
  simp only [hnot, dif_neg, not_false_eq_true, hlength, dif_pos]
  split
  · next e he => simp [hread] at he
  · next ys hys =>
    have hxs : ys = xs := by simpa [hread] using hys.symm
    subst hxs
    rfl

variable {words : List String}

theorem word_self (w : Word words) : word words w.1 = .ok (some w) := by
  obtain ⟨value, s, hvalue, hs⟩ := w
  unfold word
  split
  · next hnone => simp [hvalue] at hnone
  · next t ht =>
    obtain rfl : s = t := Option.some.inj (hvalue.symm.trans ht)
    rw [dif_pos hs]

theorem parseDisclosed_toValue (disclosed : Disclosed) :
    parseDisclosed disclosed.toValue = .ok disclosed := by
  simp [parseDisclosed, Disclosed.toValue, Value.get, list_itemsValue]

theorem parseSemanticTurnRequest_toValue (request : SemanticTurnRequest) :
    parseSemanticTurnRequest request.toValue = .ok request := by
  have hobject : object request.toValue = .ok request.toValue := rfl
  have hkeys : exactKeys request.toValue ["protocolVersion", "mode", "objective", "disclosed"] []
      = .ok () := rfl
  have hmode : request.toValue.get "mode" = request.mode.1 := rfl
  have hobjective : request.toValue.get "objective" = textValue request.objective := rfl
  have hdisclosed : request.toValue.get "disclosed" = request.disclosed.toValue := rfl
  have hinner : object request.disclosed.toValue = .ok request.disclosed.toValue := rfl
  have hinnerKeys : exactKeys request.disclosed.toValue
      ["selectionIds", "documentIds", "observationIds"] [] = .ok () := rfl
  have hversion : (request.toValue.get "protocolVersion").isNat 2 = true := Value.isNat_nat 2
  simp only [parseSemanticTurnRequest, hobject, hkeys, hversion, hmode, word_self, hdisclosed,
    hinner, hinnerKeys, hobjective, text_textValue, parseDisclosed_toValue, Except.ok_bind,
    if_true]

attribute [local simp] object exactKeys Value.keys Value.get

theorem parseTarget_toValue (target : SemanticTarget) :
    parseTarget target.toValue = .ok target := by
  cases target with
  | documents documentIds hint =>
    cases hint <;>
      simp [parseTarget, SemanticTarget.toValue, hintField, list_itemsValue, parseHint, Except.map, text]
  | selection selectionId =>
    simp [parseTarget, SemanticTarget.toValue]
  | symbol hint =>
    simp [parseTarget, SemanticTarget.toValue]
  | error fingerprint =>
    simp [parseTarget, SemanticTarget.toValue]
  | behavior description =>
    simp [parseTarget, SemanticTarget.toValue]
  | ui role name =>
    simp [parseTarget, SemanticTarget.toValue]

theorem texts_itemsValue (items : Items (Text none false) false) :
    texts (itemsValue textValue items) = .ok items :=
  list_itemsValue text_textValue items

theorem parseWorkIntent_toValue (intent : WorkIntent) :
    parseWorkIntent intent.toValue intent.kind = .ok intent := by
  simp [parseWorkIntent, WorkIntent.toValue, texts_itemsValue, parseTarget_toValue]

theorem parseClaim_toValue (claim : CompletionClaim) : parseClaim claim.toValue = .ok claim := by
  simp [parseClaim, CompletionClaim.toValue]

theorem word_str {s : String} (h : s ∉ words) : word words (.str s) = .ok none := by
  unfold word
  split
  · next hnone => cases hnone
  · next t ht =>
    cases ht
    rw [dif_neg h]

theorem parseIntent_toValue (intent : Intent) : parseIntent intent.toValue = .ok intent := by
  cases intent with
  | work intent =>
    have hobject : object intent.toValue = .ok intent.toValue := rfl
    have hkind : intent.toValue.get "kind" = intent.kind.1 := by
      simp [WorkIntent.toValue]
    simp [-object, -Value.get, parseIntent, Intent.toValue, hobject, hkind, word_self,
      parseWorkIntent_toValue, Except.map]
  | clarify question reason =>
    have hword : word workKinds (.str "clarify") = .ok none := word_str (by decide)
    simp [parseIntent, Intent.toValue, hword]
  | complete summary claims =>
    have hword : word workKinds (.str "complete") = .ok none := word_str (by decide)
    simp [parseIntent, Intent.toValue, hword, list_itemsValue parseClaim_toValue]

theorem parseEdit_toValue (edit : ProposedEdit) : parseEdit edit.toValue = .ok edit := by
  simp [parseEdit, ProposedEdit.toValue]

theorem parseProposal_toValue (proposal : PatchProposal) :
    parseProposal proposal.toValue = .ok proposal := by
  simp [parseProposal, PatchProposal.toValue, texts_itemsValue, list_itemsValue parseEdit_toValue]

theorem parseSemanticOutput_toValue (output : SemanticOutput) :
    parseSemanticOutput output.toValue = .ok output := by
  cases output with
  | intent payload =>
    simp [parseSemanticOutput, SemanticOutput.toValue, parseIntent_toValue, Except.map]
  | patchProposal payload =>
    simp [parseSemanticOutput, SemanticOutput.toValue, parseProposal_toValue, Except.map]

/-! ## Parsed values are JSON -/

@[simp] theorem isJson_textValue {max : Option Nat} (t : Text max nonEmpty) :
    (textValue t).IsJson := Value.isJson_str t.1

@[simp] theorem isJson_idValue (id : OpaqueId tag) : (idValue id).IsJson :=
  Value.isJson_str id.1

theorem isJson_itemsValue {α : Type} {toValue : α → Value} (h : ∀ x, (toValue x).IsJson)
    (items : Items α nonEmpty) : (itemsValue toValue items).IsJson := by
  rw [itemsValue, Value.isJson_arr]
  intro v hv
  obtain ⟨x, -, rfl⟩ := List.mem_map.mp hv
  exact h x

theorem Word.isJson (hwords : ∀ s ∈ words, PlainWord s ∧ s ≠ "null") (w : Word words)
    : w.1.IsJson := by
  obtain ⟨value, s, hvalue, hs⟩ := w
  obtain ⟨hplain, hnull⟩ := hwords s hs
  exact Value.isJson_of_jsString hplain hnull hvalue

theorem turnModes_plain : ∀ s ∈ turnModes, PlainWord s ∧ s ≠ "null" := by
  intro s hs
  refine ⟨⟨?_, ?_⟩, ?_⟩ <;> revert s <;> decide

theorem workKinds_plain : ∀ s ∈ workKinds, PlainWord s ∧ s ≠ "null" := by
  intro s hs
  refine ⟨⟨?_, ?_⟩, ?_⟩ <;> revert s <;> decide

theorem SemanticTurnRequest.isJson_toValue (request : SemanticTurnRequest) :
    request.toValue.IsJson := by
  rw [SemanticTurnRequest.toValue, Value.isJson_obj]
  simp [Word.isJson turnModes_plain, Disclosed.toValue, Value.isJson_obj, isJson_itemsValue]

/-! ## The order of keys

A checkpoint lists the keys of every object in sorted order; what is parsed from it is what was
written. -/

theorem exactKeys_sortKeys (v : Value) (required optional : List String) :
    exactKeys v.sortKeys required optional = exactKeys v required optional := by
  have hrequired : required.any (· ∉ v.sortKeys.keys) = required.any (· ∉ v.keys) := by
    simp only [Value.mem_keys_sortKeys]
  have hknown : v.sortKeys.keys.any (· ∉ required ++ optional)
      = v.keys.any (· ∉ required ++ optional) := by
    rw [Bool.eq_iff_iff, List.any_eq_true, List.any_eq_true]
    simp only [Value.mem_keys_sortKeys]
  rw [exactKeys, exactKeys, hrequired, hknown]

theorem itemsValue_sortKeys (items : Items (OpaqueId tag) nonEmpty) :
    (itemsValue idValue items).sortKeys = itemsValue idValue items := by
  rw [itemsValue, Value.sortKeys, Value.sortItems_eq, List.map_map]
  rfl

theorem Disclosed.nodup_keys (disclosed : Disclosed) : disclosed.toValue.keys.Nodup := by
  simp [Disclosed.toValue]

theorem parseDisclosed_sortKeys (disclosed : Disclosed) :
    parseDisclosed disclosed.toValue.sortKeys = .ok disclosed := by
  have hget : ∀ key, disclosed.toValue.sortKeys.get key = (disclosed.toValue.get key).sortKeys :=
    Value.get_sortKeys disclosed.nodup_keys
  have hselections : disclosed.toValue.get "selectionIds"
      = itemsValue idValue disclosed.selectionIds := rfl
  have hdocuments : disclosed.toValue.get "documentIds"
      = itemsValue idValue disclosed.documentIds := rfl
  have hobservations : disclosed.toValue.get "observationIds"
      = itemsValue idValue disclosed.observationIds := rfl
  simp only [parseDisclosed, hget, hselections, hdocuments, hobservations, itemsValue_sortKeys,
    list_itemsValue opaqueId_idValue, Except.ok_bind]

theorem parseSemanticTurnRequest_sortKeys (request : SemanticTurnRequest) :
    parseSemanticTurnRequest request.toValue.sortKeys = .ok request := by
  have hnodup : request.toValue.keys.Nodup := by
    simp [SemanticTurnRequest.toValue]
  have hget : ∀ key, request.toValue.sortKeys.get key = (request.toValue.get key).sortKeys :=
    Value.get_sortKeys hnodup
  have hobject : object request.toValue.sortKeys = .ok request.toValue.sortKeys := by
    rw [SemanticTurnRequest.toValue, Value.sortKeys_obj]
    rfl
  have hkeys : exactKeys request.toValue ["protocolVersion", "mode", "objective", "disclosed"] []
      = .ok () := rfl
  have hmode : (request.toValue.get "mode").sortKeys = request.mode.1 := by
    obtain ⟨s, hs, hmem⟩ := request.mode.2
    exact Value.sortKeys_of_jsString (turnModes_plain s hmem).1 hs
  have hobjective : (request.toValue.get "objective").sortKeys = textValue request.objective := rfl
  have hdisclosed : request.toValue.get "disclosed" = request.disclosed.toValue := rfl
  have hinner : object request.disclosed.toValue.sortKeys
      = .ok request.disclosed.toValue.sortKeys := by
    rw [Disclosed.toValue, Value.sortKeys_obj]
    rfl
  have hinnerKeys : exactKeys request.disclosed.toValue
      ["selectionIds", "documentIds", "observationIds"] [] = .ok () := rfl
  have hversion : (request.toValue.get "protocolVersion").sortKeys.isNat 2 = true :=
    Value.isNat_nat 2
  simp only [parseSemanticTurnRequest, hobject, exactKeys_sortKeys, hkeys, hget, hversion, hmode,
    word_self, hdisclosed, hinner, hinnerKeys, hobjective, text_textValue,
    parseDisclosed_sortKeys, Except.ok_bind, if_true]

end ThreeXhaust.Semantic
