import ThreeXhaust.Lib.Json.Line
import ThreeXhaust.Semantic.Contract

/-!
# What the semantic contract declares and what its parsers accept

The types of `types.ts` are stated here as predicates on values, without the parsers of
`parse.ts`: which keys stand at each depth, which strings a discriminator may be, how many
items a list holds and how an identifier is written. Each parser is then shown to accept
exactly the values of its predicate.

Two places differ. `intent` and `parseSemanticTurnRequest` look up `String(candidate.kind)` and
`String(candidate.mode)` in their lists and keep the value itself, so that `["inspect"]` and
`["prompt"]` pass and are returned as arrays. Every predicate above such a place takes what
stands there as a parameter: `IsWord` is the declared reading, `Spelled` the parsed one, and
`Joined` what only the parsers admit.
-/

namespace ThreeXhaust.Semantic

open Json

/-! ## Accepting -/

/-- The parser returns something. -/
def Accepts {α : Type} (parsed : Parsed α) : Prop := ∃ a, parsed = .ok a

namespace Accepts

variable {α β : Type}

@[simp] theorem ok (a : α) : Accepts (.ok a : Parsed α) := ⟨a, rfl⟩

@[simp] theorem not_error (e : ParseFailure) : ¬ Accepts (.error e : Parsed α) :=
  fun ⟨_, h⟩ => nomatch h

@[simp] theorem not_fail (code : SemanticContractErrorCode) (message : String) :
    ¬ Accepts (fail code message : Parsed α) :=
  not_error _

theorem bind_iff {parsed : Parsed α} {next : α → Parsed β} :
    Accepts (parsed >>= next) ↔ ∃ a, parsed = .ok a ∧ Accepts (next a) := by
  cases parsed with
  | error e => simp
  | ok a => simp

theorem bind_and {parsed : Parsed α} {next : α → Parsed β} {P : Prop}
    (h : ∀ a, Accepts (next a) ↔ P) : Accepts (parsed >>= next) ↔ Accepts parsed ∧ P := by
  rw [bind_iff]
  constructor
  · rintro ⟨a, ha, hnext⟩
    exact ⟨⟨a, ha⟩, (h a).mp hnext⟩
  · rintro ⟨⟨a, ha⟩, hP⟩
    exact ⟨a, ha, (h a).mpr hP⟩

@[simp] theorem map_iff {parsed : Parsed α} {f : α → β} :
    Accepts (parsed.map f) ↔ Accepts parsed := by
  cases parsed with
  | error e => simp [Except.map]
  | ok a => simp [Except.map]

theorem mapM_iff {parse : Value → Parsed α} {items : List Value} :
    Accepts (items.mapM parse) ↔ ∀ v ∈ items, Accepts (parse v) := by
  induction items with
  | nil => simp [pure, Except.pure]
  | cons v rest ih =>
    have hrest (a : α) : Accepts ((do let bs ← rest.mapM parse; pure (a :: bs)) : Parsed (List α))
        ↔ ∀ w ∈ rest, Accepts (parse w) := by
      have hpure (bs : List α) : Accepts (pure (a :: bs) : Parsed (List α)) ↔ True :=
        iff_true_intro (ok (a :: bs))
      rw [bind_and hpure, and_true, ih]
    rw [List.mapM_cons, bind_and hrest, List.forall_mem_cons]

end Accepts

/-! ## Keys, texts, lists and identifiers -/

def IsObject (v : Value) : Prop := ∃ fields, v = .obj fields

/-- An object with all the required keys and no key outside the declared ones. -/
def Keyed (required optional : List String) (v : Value) : Prop :=
  IsObject v ∧ (∀ key ∈ required, key ∈ v.keys) ∧ ∀ key ∈ v.keys, key ∈ required ++ optional

def IsText (max : Option Nat) (nonEmpty : Bool) (v : Value) : Prop :=
  ∃ s, v = .str s ∧ (nonEmpty = true → s ≠ "") ∧ ∀ m ∈ max, utf16Length s ≤ m

def IsItems (nonEmpty : Bool) (isItem : Value → Prop) (v : Value) : Prop :=
  ∃ items, v = .arr items ∧ (nonEmpty = true → items ≠ []) ∧ items.length ≤ maxList
    ∧ ∀ item ∈ items, isItem item

def IsId (tag : String) (v : Value) : Prop := ∃ s, v = .str s ∧ isOpaque tag s = true

def IsWord (words : List String) (v : Value) : Prop := ∃ s ∈ words, v = .str s

def Spelled (words : List String) (v : Value) : Prop := ∃ s ∈ words, v.jsString = some s

def Joined (words : List String) (v : Value) : Prop :=
  ∃ items, v = .arr items ∧ Spelled words v

variable {v : Value}

theorem accepts_object {α : Type} {next : Value → Parsed α} :
    Accepts (object v >>= next) ↔ IsObject v ∧ Accepts (next v) := by
  cases v with
  | obj fields => simp [object, IsObject]
  | undefined | null | bool _ | num _ | str _ | arr _ => simp [object, IsObject, fail]

variable {required : List String}

theorem accepts_exactKeys {α : Type} {optional : List String} {next : Parsed α} (hv : IsObject v) :
    Accepts (do exactKeys v required optional; next)
      ↔ Keyed required optional v ∧ Accepts next := by
  have hkeys : (required.any (· ∉ v.keys) || v.keys.any (· ∉ required ++ optional)) = true
      ↔ ¬ Keyed required optional v := by
    simp [Keyed, hv, imp_iff_not_or]
  rw [exactKeys]
  by_cases h : Keyed required optional v
  · rw [if_neg (fun hbad => hkeys.mp hbad h)]
    simp [h]
  · rw [if_pos (hkeys.mpr h)]
    simp [h, fail]

theorem exactKeys_of_keyed {optional : List String} (h : Keyed required optional v)
    : exactKeys v required optional = .ok () := by
  have haccepts : Accepts (do exactKeys v required optional; .ok ()) :=
    (accepts_exactKeys h.1).mpr ⟨h, Accepts.ok ()⟩
  obtain ⟨_, hkeys, -⟩ := Accepts.bind_iff.mp haccepts
  exact hkeys

theorem accepts_text {max : Option Nat} {nonEmpty : Bool} :
    Accepts (text max nonEmpty v) ↔ IsText max nonEmpty v := by
  cases v with
  | str s =>
    simp only [text, IsText, Value.str.injEq, exists_eq_left']
    split
    · next hempty => exact iff_of_false (Accepts.not_fail _ _) fun h => h.1 hempty.1 hempty.2
    · next hempty =>
      split
      · next hmax => exact iff_of_true (Accepts.ok _) ⟨fun hn hs => hempty ⟨hn, hs⟩, hmax⟩
      · next hmax => exact iff_of_false (Accepts.not_fail _ _) fun h => hmax h.2
  | undefined | null | bool _ | num _ | arr _ | obj _ => simp [text, IsText]

/-- A list is accepted item by item. -/
theorem accepts_list {α : Type} {nonEmpty : Bool} {parse : Value → Parsed α} {isItem : Value → Prop}
    (hitem : ∀ v, Accepts (parse v) ↔ isItem v) :
    Accepts (list nonEmpty parse v) ↔ IsItems nonEmpty isItem v := by
  cases v with
  | arr items =>
    simp only [list, IsItems, Value.arr.injEq, exists_eq_left']
    split
    · next hempty => exact iff_of_false (Accepts.not_fail _ _) fun h => h.1 hempty.1 hempty.2
    · next hempty =>
      have hnonEmpty : nonEmpty = true → items ≠ [] := fun hn hs => hempty ⟨hn, hs⟩
      have hitems : Accepts (items.mapM parse) ↔ ∀ item ∈ items, isItem item := by
        rw [Accepts.mapM_iff]
        simp only [hitem]
      split
      · next hmax =>
        split
        · next e he =>
          rw [he] at hitems
          exact iff_of_false (Accepts.not_error e) fun h => Accepts.not_error e (hitems.mpr h.2.2)
        · next xs hxs =>
          rw [hxs] at hitems
          exact iff_of_true (Accepts.ok _) ⟨hnonEmpty, hmax, hitems.mp (Accepts.ok xs)⟩
      · next hmax => exact iff_of_false (Accepts.not_fail _ _) fun h => hmax h.2.1
  | undefined | null | bool _ | num _ | str _ | obj _ => simp [list, IsItems]

theorem accepts_opaqueId {tag : String} : Accepts (opaqueId tag v) ↔ IsId tag v := by
  cases v with
  | str s =>
    simp only [opaqueId, IsId, Value.str.injEq, exists_eq_left']
    split
    · next h => simp [h]
    · next h => simp [h]
  | undefined | null | bool _ | num _ | arr _ | obj _ => simp [opaqueId, IsId]

variable {words : List String}

/-- **A word** is looked up under its string, and the value itself is kept. -/
theorem accepts_word {α : Type} {next : Option (Word words) → Parsed α} {P : Prop}
    (hnone : ¬ Accepts (next none))
    (hsome : ∀ w : Word words, w.1 = v → (Accepts (next (some w)) ↔ P)) :
    Accepts (word words v >>= next) ↔ Spelled words v ∧ P := by
  unfold word
  split
  · next hv => simp [Spelled, hv]
  · next s hv =>
    by_cases hs : s ∈ words
    · have hspelled : Spelled words v := ⟨s, hs, hv⟩
      rw [dif_pos hs, Except.ok_bind, hsome _ rfl]
      simp [hspelled]
    · rw [dif_neg hs, Except.ok_bind]
      simp [hnone, Spelled, hv, hs]

structure Lettered (word : String) : Prop where
  plain : PlainWord word
  notConstant : word ∉ ["null", "true", "false"]
  letter : ∃ c ∈ word.toList, ¬ (c.isDigit = true ∨ c ∈ ['-', '.', 'e', '+'])

theorem turnModes_lettered : ∀ s ∈ turnModes, Lettered s := by
  intro s hs
  have hs' : s = "prompt" ∨ s = "steer" ∨ s = "followUp" := by simpa [turnModes] using hs
  refine ⟨(turnModes_plain s hs).1, ?_, ?_⟩
  · revert s
    decide
  · rcases hs' with rfl | rfl | rfl
    · exact ⟨'p', by decide, by decide⟩
    · exact ⟨'s', by decide, by decide⟩
    · exact ⟨'f', by decide, by decide⟩

theorem workKinds_lettered : ∀ s ∈ workKinds, Lettered s := by
  intro s hs
  have hs' : s = "inspect" ∨ s = "modify" ∨ s = "review" ∨ s = "verify" := by
    simpa [workKinds] using hs
  refine ⟨(workKinds_plain s hs).1, ?_, ?_⟩
  · revert s
    decide
  · rcases hs' with rfl | rfl | rfl | rfl
    · exact ⟨'i', by decide, by decide⟩
    · exact ⟨'m', by decide, by decide⟩
    · exact ⟨'r', by decide, by decide⟩
    · exact ⟨'v', by decide, by decide⟩

theorem IsWord.spelled (h : IsWord words v) : Spelled words v := by
  obtain ⟨s, hs, rfl⟩ := h
  exact ⟨s, hs, rfl⟩

theorem Joined.spelled (h : Joined words v) : Spelled words v := by
  obtain ⟨items, -, hspelled⟩ := h
  exact hspelled

theorem Joined.ne_str (h : Joined words v) (s : String) : v ≠ .str s := by
  obtain ⟨items, rfl, -⟩ := h
  exact Value.noConfusion

theorem Joined.not_isWord (h : Joined words v) : ¬ IsWord words v := by
  rintro ⟨s, -, hs⟩
  exact h.ne_str s hs

/-- **What the parsers take for a word**: a word, or an array that joins to one. -/
theorem spelled_iff (hwords : ∀ s ∈ words, Lettered s) :
    Spelled words v ↔ IsWord words v ∨ Joined words v := by
  constructor
  · rintro ⟨s, hs, hv⟩
    have hlettered := hwords s hs
    cases v with
    | str t => exact .inl ⟨s, hs, congrArg Value.str (Option.some.inj hv)⟩
    | arr items => exact .inr ⟨items, rfl, s, hs, hv⟩
    | undefined => exact absurd (by simp [← Option.some.inj hv]) hlettered.plain.notSpecial
    | null => exact absurd (by simp [← Option.some.inj hv]) hlettered.notConstant
    | bool b =>
      refine absurd ?_ hlettered.notConstant
      cases b <;> simp [← Option.some.inj hv]
    | num n =>
      obtain rfl : n.jsString = s := Option.some.inj hv
      cases n with
      | finite d =>
        -- a number has no letter but the one of its exponent
        obtain ⟨c, hc, hletter⟩ := hlettered.letter
        rw [Number.jsString, String.toList_ofList] at hc
        exact absurd (d.text_chars c hc) hletter
      | nan => exact absurd (by simp [Number.jsString]) hlettered.plain.notSpecial
      | infinity negative =>
        refine absurd ?_ hlettered.plain.notSpecial
        cases negative <;> simp [Number.jsString]
    | obj fields =>
      rw [Value.jsString] at hv
      split at hv
      · cases hv
      · exact absurd (by simp [← Option.some.inj hv]) hlettered.plain.notSpecial
  · rintro (h | h)
    · exact h.spelled
    · exact h.spelled

/-! ## Turn requests -/

structure IsDisclosed (v : Value) : Prop where
  keyed : Keyed ["selectionIds", "documentIds", "observationIds"] [] v
  selectionIds : IsItems false (IsId "sel_") (v.get "selectionIds")
  documentIds : IsItems false (IsId "doc_") (v.get "documentIds")
  observationIds : IsItems false (IsId "obs_") (v.get "observationIds")

/-- A turn request as `types.ts` declares it, but for its mode. -/
structure IsTurnRequest (isMode : Value → Prop) (v : Value) : Prop where
  keyed : Keyed ["protocolVersion", "mode", "objective", "disclosed"] [] v
  protocolVersion : (v.get "protocolVersion").isNat 2 = true
  mode : isMode (v.get "mode")
  objective : IsText none true (v.get "objective")
  disclosed : IsDisclosed (v.get "disclosed")

theorem accepts_disclosed :
    Accepts (parseDisclosed v) ↔ IsItems false (IsId "sel_") (v.get "selectionIds")
      ∧ IsItems false (IsId "doc_") (v.get "documentIds")
      ∧ IsItems false (IsId "obs_") (v.get "observationIds") := by
  rw [parseDisclosed, Accepts.bind_and fun _ => Accepts.bind_and fun _ => Accepts.bind_and
    fun _ => iff_true_intro (Accepts.ok _)]
  simp only [accepts_list fun _ => accepts_opaqueId, and_true]

theorem isDisclosed_iff :
    IsDisclosed v ↔ Keyed ["selectionIds", "documentIds", "observationIds"] [] v
      ∧ Accepts (parseDisclosed v) := by
  rw [accepts_disclosed]
  exact ⟨fun h => ⟨h.keyed, h.selectionIds, h.documentIds, h.observationIds⟩,
    fun ⟨hkeyed, hselections, hdocuments, hobservations⟩ =>
      ⟨hkeyed, hselections, hdocuments, hobservations⟩⟩

theorem accepts_keyed {α : Type} {optional : List String} {next : Value → Parsed α} :
    Accepts (do
        let candidate ← object v
        exactKeys candidate required optional
        next candidate)
      ↔ Keyed required optional v ∧ Accepts (next v) := by
  rw [accepts_object]
  constructor
  · rintro ⟨hobject, h⟩
    exact (accepts_exactKeys hobject).mp h
  · intro h
    exact ⟨h.1.1, (accepts_exactKeys h.1.1).mpr h⟩

theorem accepts_version {α : Type} {next : Parsed α} :
    Accepts (if v.isNat 2 then next
        else fail .unsupportedVersion "Unsupported semantic protocol version")
      ↔ v.isNat 2 = true ∧ Accepts next := by
  by_cases h : v.isNat 2 = true
  · simp [h]
  · simp [h]

/-- **A turn request.** -/
theorem accepts_parseSemanticTurnRequest :
    Accepts (parseSemanticTurnRequest v) ↔ IsTurnRequest (Spelled turnModes) v := by
  rw [parseSemanticTurnRequest, accepts_keyed, accepts_version,
    accepts_word (P := IsText none true (v.get "objective") ∧ IsDisclosed (v.get "disclosed"))
      (Accepts.not_fail _ _)]
  · constructor
    · rintro ⟨hkeyed, hversion, hmode, hobjective, hdisclosed⟩
      exact ⟨hkeyed, hversion, hmode, hobjective, hdisclosed⟩
    · intro h
      exact ⟨h.keyed, h.protocolVersion, h.mode, h.objective, h.disclosed⟩
  · intro mode _
    rw [accepts_keyed, Accepts.bind_and fun _ => Accepts.bind_and fun _ =>
      iff_true_intro (Accepts.ok _), accepts_text, isDisclosed_iff, and_true]
    tauto

/-! ## Targets -/

/-- The targets of an intent, one case for each kind. -/
inductive IsTarget (v : Value) : Prop where
  | selection (kind : v.get "kind" = .str "selection")
      (keyed : Keyed ["kind", "selectionId"] [] v)
      (selectionId : IsId "sel_" (v.get "selectionId"))
  | documents (kind : v.get "kind" = .str "documents")
      (keyed : Keyed ["kind", "documentIds"] ["hint"] v)
      (documentIds : IsItems true (IsId "doc_") (v.get "documentIds"))
      (hint : v.get "hint" = .undefined ∨ IsText none false (v.get "hint"))
  | symbol (kind : v.get "kind" = .str "symbol")
      (keyed : Keyed ["kind", "hint"] [] v)
      (hint : IsText none true (v.get "hint"))
  | error (kind : v.get "kind" = .str "error")
      (keyed : Keyed ["kind", "fingerprint"] [] v)
      (fingerprint : IsText none true (v.get "fingerprint"))
  | behavior (kind : v.get "kind" = .str "behavior")
      (keyed : Keyed ["kind", "description"] [] v)
      (description : IsText none true (v.get "description"))
  | ui (kind : v.get "kind" = .str "ui")
      (keyed : Keyed ["kind", "role", "name"] [] v)
      (role : IsText none true (v.get "role"))
      (name : IsText none true (v.get "name"))

theorem accepts_parseHint : Accepts (parseHint v) ↔ v = .undefined ∨ IsText none false v := by
  cases v with
  | undefined => simp [parseHint]
  | null | bool _ | num _ | str _ | arr _ | obj _ => simp [parseHint, accepts_text]

theorem accepts_field {α β : Type} {optional : List String} {parsed : Parsed α} {wrap : α → β}
    (hv : IsObject v) :
    Accepts (do
        exactKeys v required optional
        let a ← parsed
        .ok (wrap a))
      ↔ Keyed required optional v ∧ Accepts parsed := by
  rw [accepts_exactKeys hv, Accepts.bind_and fun a => iff_true_intro (Accepts.ok (wrap a)),
    and_true]

theorem accepts_fields {α β γ : Type} {optional : List String} {first : Parsed α}
    {second : Parsed β} {wrap : α → β → γ} (hv : IsObject v) :
    Accepts (do
        exactKeys v required optional
        let a ← first
        let b ← second
        .ok (wrap a b))
      ↔ Keyed required optional v ∧ Accepts first ∧ Accepts second := by
  rw [accepts_exactKeys hv, Accepts.bind_and fun a => Accepts.bind_and fun b =>
    iff_true_intro (Accepts.ok (wrap a b)), and_true]

/-- **A target**, case by case. -/
theorem accepts_parseTarget : Accepts (parseTarget v) ↔ IsTarget v := by
  rw [parseTarget, accepts_object]
  constructor
  · rintro ⟨hv, h⟩
    split at h
    · next hkind =>
      obtain ⟨hkeyed, hid⟩ := (accepts_field hv).mp h
      exact .selection hkind hkeyed (accepts_opaqueId.mp hid)
    · next hkind =>
      obtain ⟨hkeyed, hids, hhint⟩ := (accepts_fields hv).mp h
      exact .documents hkind hkeyed ((accepts_list fun _ => accepts_opaqueId).mp hids)
        (accepts_parseHint.mp hhint)
    · next hkind =>
      obtain ⟨hkeyed, hhint⟩ := (accepts_field hv).mp h
      exact .symbol hkind hkeyed (accepts_text.mp hhint)
    · next hkind =>
      obtain ⟨hkeyed, hfingerprint⟩ := (accepts_field hv).mp h
      exact .error hkind hkeyed (accepts_text.mp hfingerprint)
    · next hkind =>
      obtain ⟨hkeyed, hdescription⟩ := (accepts_field hv).mp h
      exact .behavior hkind hkeyed (accepts_text.mp hdescription)
    · next hkind =>
      obtain ⟨hkeyed, hrole, hname⟩ := (accepts_fields hv).mp h
      exact .ui hkind hkeyed (accepts_text.mp hrole) (accepts_text.mp hname)
    · cases Accepts.not_fail _ _ h
  · intro h
    cases h with
    | selection hkind hkeyed hid =>
      rw [hkind]
      exact ⟨hkeyed.1, (accepts_field hkeyed.1).mpr ⟨hkeyed, accepts_opaqueId.mpr hid⟩⟩
    | documents hkind hkeyed hids hhint =>
      rw [hkind]
      exact ⟨hkeyed.1, (accepts_fields hkeyed.1).mpr ⟨hkeyed,
        (accepts_list fun _ => accepts_opaqueId).mpr hids, accepts_parseHint.mpr hhint⟩⟩
    | symbol hkind hkeyed hhint =>
      rw [hkind]
      exact ⟨hkeyed.1, (accepts_field hkeyed.1).mpr ⟨hkeyed, accepts_text.mpr hhint⟩⟩
    | error hkind hkeyed hfingerprint =>
      rw [hkind]
      exact ⟨hkeyed.1, (accepts_field hkeyed.1).mpr ⟨hkeyed, accepts_text.mpr hfingerprint⟩⟩
    | behavior hkind hkeyed hdescription =>
      rw [hkind]
      exact ⟨hkeyed.1, (accepts_field hkeyed.1).mpr ⟨hkeyed, accepts_text.mpr hdescription⟩⟩
    | ui hkind hkeyed hrole hname =>
      rw [hkind]
      exact ⟨hkeyed.1, (accepts_fields hkeyed.1).mpr
        ⟨hkeyed, accepts_text.mpr hrole, accepts_text.mpr hname⟩⟩

/-! ## Intents -/

def IsTexts : Value → Prop := IsItems false (IsText none false)

theorem accepts_texts : Accepts (texts v) ↔ IsTexts v :=
  accepts_list fun _ => accepts_text

structure IsWorkIntent (isKind : Value → Prop) (v : Value) : Prop where
  keyed : Keyed ["kind", "objective", "target", "evidenceGoals", "constraints", "doneWhen"] [] v
  kind : isKind (v.get "kind")
  objective : IsText none true (v.get "objective")
  target : IsTarget (v.get "target")
  evidenceGoals : IsTexts (v.get "evidenceGoals")
  constraints : IsTexts (v.get "constraints")
  doneWhen : IsText none true (v.get "doneWhen")

structure IsClarifyIntent (v : Value) : Prop where
  keyed : Keyed ["kind", "question", "reason"] [] v
  kind : v.get "kind" = .str "clarify"
  question : IsText none true (v.get "question")
  reason : IsText none true (v.get "reason")

structure IsCompletionClaim (v : Value) : Prop where
  keyed : Keyed ["observationRef", "claim"] [] v
  observationRef : IsId "obs_" (v.get "observationRef")
  claim : IsText none true (v.get "claim")

structure IsCompleteIntent (v : Value) : Prop where
  keyed : Keyed ["kind", "summary", "claims"] [] v
  kind : v.get "kind" = .str "complete"
  summary : IsText none true (v.get "summary")
  claims : IsItems true IsCompletionClaim (v.get "claims")

def IsIntent (isKind : Value → Prop) (v : Value) : Prop :=
  IsWorkIntent isKind v ∨ IsClarifyIntent v ∨ IsCompleteIntent v

theorem accepts_parseWorkIntent {kind : Word workKinds} {isKind : Value → Prop} (hv : IsObject v)
    (hkind : isKind (v.get "kind")) : Accepts (parseWorkIntent v kind) ↔ IsWorkIntent isKind v := by
  rw [parseWorkIntent, accepts_exactKeys hv, Accepts.bind_and fun _ => Accepts.bind_and fun _ =>
    Accepts.bind_and fun _ => Accepts.bind_and fun _ => Accepts.bind_and fun _ =>
      iff_true_intro (Accepts.ok _)]
  simp only [accepts_text, accepts_parseTarget, accepts_texts, and_true]
  constructor
  · rintro ⟨hkeyed, hobjective, htarget, hgoals, hconstraints, hdone⟩
    exact ⟨hkeyed, hkind, hobjective, htarget, hgoals, hconstraints, hdone⟩
  · intro h
    exact ⟨h.keyed, h.objective, h.target, h.evidenceGoals, h.constraints, h.doneWhen⟩

theorem accepts_parseClaim : Accepts (parseClaim v) ↔ IsCompletionClaim v := by
  rw [parseClaim, accepts_keyed, Accepts.bind_and fun _ => Accepts.bind_and fun _ =>
    iff_true_intro (Accepts.ok _), accepts_opaqueId, accepts_text, and_true]
  constructor
  · rintro ⟨hkeyed, hobservation, hclaim⟩
    exact ⟨hkeyed, hobservation, hclaim⟩
  · intro h
    exact ⟨h.keyed, h.observationRef, h.claim⟩

theorem Spelled.word {words : List String} {v : Value} (h : Spelled words v) :
    ∃ w : Word words, w.1 = v ∧ word words v = .ok (some w) := by
  obtain ⟨s, hs, hv⟩ := h
  exact ⟨⟨v, s, hv, hs⟩, rfl, word_self ⟨v, s, hv, hs⟩⟩

theorem Word.spelled (w : Word words) : Spelled words w.1 := by
  obtain ⟨s, hv, hs⟩ := w.2
  exact ⟨s, hs, hv⟩

theorem parseIntent_spelled (hv : IsObject v) {w : Word workKinds}
    (hw : word workKinds (v.get "kind") = .ok (some w)) :
    parseIntent v = (parseWorkIntent v w).map .work := by
  obtain ⟨fields, rfl⟩ := hv
  simp only [parseIntent, object, Except.ok_bind, hw]

theorem parseIntent_clarify (hv : IsObject v) (hkind : v.get "kind" = .str "clarify") :
    Accepts (parseIntent v) ↔ IsClarifyIntent v := by
  have hword : word workKinds (.str "clarify") = .ok none := word_str (by decide)
  have hintent : parseIntent v = (do
      exactKeys v ["kind", "question", "reason"] []
      let question ← text none true (v.get "question")
      let reason ← text none true (v.get "reason")
      .ok (.clarify question reason)) := by
    obtain ⟨fields, rfl⟩ := hv
    simp only [parseIntent, object, Except.ok_bind, hkind, hword]
  rw [hintent, accepts_fields hv, accepts_text, accepts_text]
  constructor
  · rintro ⟨hkeyed, hquestion, hreason⟩
    exact ⟨hkeyed, hkind, hquestion, hreason⟩
  · intro h
    exact ⟨h.keyed, h.question, h.reason⟩

theorem parseIntent_complete (hv : IsObject v) (hkind : v.get "kind" = .str "complete") :
    Accepts (parseIntent v) ↔ IsCompleteIntent v := by
  have hword : word workKinds (.str "complete") = .ok none := word_str (by decide)
  have hintent : parseIntent v = (do
      exactKeys v ["kind", "summary", "claims"] []
      let summary ← text none true (v.get "summary")
      let claims ← list true parseClaim (v.get "claims")
      .ok (.complete summary claims)) := by
    obtain ⟨fields, rfl⟩ := hv
    simp only [parseIntent, object, Except.ok_bind, hkind, hword]
  rw [hintent, accepts_fields hv, accepts_text, accepts_list fun _ => accepts_parseClaim]
  constructor
  · rintro ⟨hkeyed, hsummary, hclaims⟩
    exact ⟨hkeyed, hkind, hsummary, hclaims⟩
  · intro h
    exact ⟨h.keyed, h.summary, h.claims⟩

theorem word_eq_some {w : Word words} (h : word words v = .ok (some w)) : w.1 = v := by
  unfold word at h
  split at h
  · cases h
  · split at h
    · cases h
      rfl
    · cases h

/-- What an intent that is returned comes from. -/
theorem parseIntent_eq_ok {intent : Intent} (h : parseIntent v = .ok intent) :
    IsObject v ∧ ((∃ (w : Word workKinds) (work : WorkIntent), w.1 = v.get "kind"
        ∧ parseWorkIntent v w = .ok work ∧ intent = .work work)
      ∨ (v.get "kind" = .str "clarify" ∧ ∀ work, intent ≠ .work work)
      ∨ (v.get "kind" = .str "complete" ∧ ∀ work, intent ≠ .work work)) := by
  have hv : IsObject v := (accepts_object.mp ⟨intent, h⟩).1
  refine ⟨hv, ?_⟩
  obtain ⟨fields, rfl⟩ := hv
  rw [parseIntent, object, Except.ok_bind] at h
  obtain ⟨found, hfound, h⟩ := Except.bind_eq_ok.mp h
  cases found with
  | some w =>
    obtain ⟨work, hwork, rfl⟩ := Except.map_eq_ok.mp h
    exact .inl ⟨w, work, word_eq_some hfound, hwork, rfl⟩
  | none =>
    refine .inr ?_
    dsimp only at h
    split at h
    · next hkind =>
      refine .inl ⟨hkind, fun work hwork => ?_⟩
      obtain ⟨-, -, h⟩ := Except.bind_eq_ok.mp h
      obtain ⟨question, -, h⟩ := Except.bind_eq_ok.mp h
      obtain ⟨reason, -, h⟩ := Except.bind_eq_ok.mp h
      rw [hwork] at h
      cases h
    · next hkind =>
      refine .inr ⟨hkind, fun work hwork => ?_⟩
      obtain ⟨-, -, h⟩ := Except.bind_eq_ok.mp h
      obtain ⟨summary, -, h⟩ := Except.bind_eq_ok.mp h
      obtain ⟨claims, -, h⟩ := Except.bind_eq_ok.mp h
      rw [hwork] at h
      cases h
    · cases h

/-- **An intent.** -/
theorem accepts_parseIntent : Accepts (parseIntent v) ↔ IsIntent (Spelled workKinds) v := by
  constructor
  · rintro ⟨intent, h⟩
    obtain ⟨hv, ⟨w, work, hw, hwork, -⟩ | ⟨hkind, -⟩ | ⟨hkind, -⟩⟩ := parseIntent_eq_ok h
    · exact .inl ((accepts_parseWorkIntent hv (hw ▸ w.spelled)).mp ⟨work, hwork⟩)
    · exact .inr (.inl ((parseIntent_clarify hv hkind).mp ⟨intent, h⟩))
    · exact .inr (.inr ((parseIntent_complete hv hkind).mp ⟨intent, h⟩))
  · rintro (h | h | h)
    · obtain ⟨w, -, hw⟩ := h.kind.word
      rw [parseIntent_spelled h.keyed.1 hw, Accepts.map_iff]
      exact (accepts_parseWorkIntent h.keyed.1 h.kind).mpr h
    · exact (parseIntent_clarify h.keyed.1 h.kind).mpr h
    · exact (parseIntent_complete h.keyed.1 h.kind).mpr h

theorem parseWorkIntent_kind {kind : Word workKinds} {intent : WorkIntent}
    (h : parseWorkIntent v kind = .ok intent) : intent.kind = kind := by
  rw [parseWorkIntent] at h
  obtain ⟨-, -, h⟩ := Except.bind_eq_ok.mp h
  obtain ⟨objective, -, h⟩ := Except.bind_eq_ok.mp h
  obtain ⟨target, -, h⟩ := Except.bind_eq_ok.mp h
  obtain ⟨evidenceGoals, -, h⟩ := Except.bind_eq_ok.mp h
  obtain ⟨constraints, -, h⟩ := Except.bind_eq_ok.mp h
  obtain ⟨doneWhen, -, h⟩ := Except.bind_eq_ok.mp h
  cases h
  rfl

/-- Work that is returned, and the kind it was asked with. -/
theorem parseIntent_work_iff {isKind : Value → Prop}
    (hspelled : ∀ w, isKind w → Spelled workKinds w) :
    (∃ work : WorkIntent, parseIntent v = .ok (.work work) ∧ isKind work.kind.1)
      ↔ IsWorkIntent isKind v := by
  constructor
  · rintro ⟨work, hintent, hkind⟩
    obtain ⟨hv, ⟨w, parsed, hw, hparsed, heq⟩ | ⟨-, hne⟩ | ⟨-, hne⟩⟩ := parseIntent_eq_ok hintent
    · obtain rfl : work = parsed := Intent.work.inj heq
      rw [parseWorkIntent_kind hparsed, hw] at hkind
      exact (accepts_parseWorkIntent hv hkind).mp ⟨work, hparsed⟩
    · exact absurd rfl (hne work)
    · exact absurd rfl (hne work)
  · intro h
    obtain ⟨w, hwv, hw⟩ := (hspelled _ h.kind).word
    obtain ⟨work, hwork⟩ := (@accepts_parseWorkIntent v w isKind h.keyed.1 h.kind).mpr h
    refine ⟨work, ?_, ?_⟩
    · rw [parseIntent_spelled h.keyed.1 hw, hwork]
      rfl
    · rw [parseWorkIntent_kind hwork, hwv]
      exact h.kind

/-! ## Proposals and outputs -/

structure IsProposedEdit (v : Value) : Prop where
  keyed : Keyed ["documentId", "oldText", "newText"] [] v
  documentId : IsId "doc_" (v.get "documentId")
  oldText : IsText (some maxSourceText) true (v.get "oldText")
  newText : IsText (some maxSourceText) false (v.get "newText")

structure IsPatchProposal (v : Value) : Prop where
  keyed : Keyed ["edits", "assumptions", "verificationGoals"] [] v
  edits : IsItems true IsProposedEdit (v.get "edits")
  assumptions : IsTexts (v.get "assumptions")
  verificationGoals : IsTexts (v.get "verificationGoals")

/-- A semantic output around its payload. -/
structure IsEnvelope (kind : String) (isPayload : Value → Prop) (v : Value) : Prop where
  keyed : Keyed ["protocolVersion", "kind", "payload"] [] v
  protocolVersion : (v.get "protocolVersion").isNat 2 = true
  kind : v.get "kind" = .str kind
  payload : isPayload (v.get "payload")

def IsOutput (isKind : Value → Prop) (v : Value) : Prop :=
  IsEnvelope "intent" (IsIntent isKind) v ∨ IsEnvelope "patchProposal" IsPatchProposal v

theorem accepts_parseEdit : Accepts (parseEdit v) ↔ IsProposedEdit v := by
  rw [parseEdit, accepts_keyed, Accepts.bind_and fun _ => Accepts.bind_and fun _ =>
    Accepts.bind_and fun _ => iff_true_intro (Accepts.ok _), accepts_opaqueId, accepts_text,
    accepts_text, and_true]
  constructor
  · rintro ⟨hkeyed, hid, hold, hnew⟩
    exact ⟨hkeyed, hid, hold, hnew⟩
  · intro h
    exact ⟨h.keyed, h.documentId, h.oldText, h.newText⟩

theorem accepts_parseProposal : Accepts (parseProposal v) ↔ IsPatchProposal v := by
  rw [parseProposal, accepts_keyed, Accepts.bind_and fun _ => Accepts.bind_and fun _ =>
    Accepts.bind_and fun _ => iff_true_intro (Accepts.ok _),
    accepts_list fun _ => accepts_parseEdit, accepts_texts, accepts_texts, and_true]
  constructor
  · rintro ⟨hkeyed, hedits, hassumptions, hgoals⟩
    exact ⟨hkeyed, hedits, hassumptions, hgoals⟩
  · intro h
    exact ⟨h.keyed, h.edits, h.assumptions, h.verificationGoals⟩

theorem parseSemanticOutput_eq (hkeyed : Keyed ["protocolVersion", "kind", "payload"] [] v)
    (hversion : (v.get "protocolVersion").isNat 2 = true) :
    parseSemanticOutput v = match v.get "kind" with
      | .str "intent" => (parseIntent (v.get "payload")).map .intent
      | .str "patchProposal" => (parseProposal (v.get "payload")).map .patchProposal
      | _ => fail .invalidValue "Semantic output kind is unsupported" := by
  have hkeys : exactKeys v ["protocolVersion", "kind", "payload"] [] = .ok () :=
    exactKeys_of_keyed hkeyed
  obtain ⟨⟨fields, rfl⟩, -⟩ := hkeyed
  rewrite [parseSemanticOutput, object, Except.ok_bind, hkeys, Except.ok_bind, if_pos hversion]
  rfl

theorem parseSemanticOutput_eq_ok {output : SemanticOutput} :
    parseSemanticOutput v = .ok output
      ↔ (∃ intent, IsEnvelope "intent" (parseIntent · = .ok intent) v ∧ output = .intent intent)
        ∨ ∃ proposal, IsEnvelope "patchProposal" (parseProposal · = .ok proposal) v
          ∧ output = .patchProposal proposal := by
  constructor
  · intro h
    have haccepts : Accepts (parseSemanticOutput v) := ⟨output, h⟩
    rw [parseSemanticOutput, accepts_keyed, accepts_version] at haccepts
    obtain ⟨hkeyed, hversion, -⟩ := haccepts
    rw [parseSemanticOutput_eq hkeyed hversion] at h
    split at h
    · next hkind =>
      obtain ⟨intent, hintent, rfl⟩ := Except.map_eq_ok.mp h
      exact .inl ⟨intent, ⟨hkeyed, hversion, hkind, hintent⟩, rfl⟩
    · next hkind =>
      obtain ⟨proposal, hproposal, rfl⟩ := Except.map_eq_ok.mp h
      exact .inr ⟨proposal, ⟨hkeyed, hversion, hkind, hproposal⟩, rfl⟩
    · cases h
  · rintro (⟨intent, h, rfl⟩ | ⟨proposal, h, rfl⟩)
    · simp only [parseSemanticOutput_eq h.keyed h.protocolVersion, h.kind, h.payload, Except.map]
    · simp only [parseSemanticOutput_eq h.keyed h.protocolVersion, h.kind, h.payload, Except.map]

theorem IsEnvelope.congr {kind : String} {isPayload isPayload' : Value → Prop}
    (h : isPayload (v.get "payload") → isPayload' (v.get "payload"))
    (hv : IsEnvelope kind isPayload v) : IsEnvelope kind isPayload' v :=
  ⟨hv.keyed, hv.protocolVersion, hv.kind, h hv.payload⟩

/-- **A semantic output.** -/
theorem accepts_parseSemanticOutput :
    Accepts (parseSemanticOutput v) ↔ IsOutput (Spelled workKinds) v := by
  constructor
  · rintro ⟨output, h⟩
    obtain ⟨intent, henvelope, -⟩ | ⟨proposal, henvelope, -⟩ := parseSemanticOutput_eq_ok.mp h
    · exact .inl (henvelope.congr fun hpayload => accepts_parseIntent.mp ⟨intent, hpayload⟩)
    · exact .inr (henvelope.congr fun hpayload => accepts_parseProposal.mp ⟨proposal, hpayload⟩)
  · rintro (h | h)
    · obtain ⟨intent, hintent⟩ := accepts_parseIntent.mpr h.payload
      exact ⟨.intent intent, parseSemanticOutput_eq_ok.mpr
        (.inl ⟨intent, h.congr fun _ => hintent, rfl⟩)⟩
    · obtain ⟨proposal, hproposal⟩ := accepts_parseProposal.mpr h.payload
      exact ⟨.patchProposal proposal, parseSemanticOutput_eq_ok.mpr
        (.inr ⟨proposal, h.congr fun _ => hproposal, rfl⟩)⟩

/-! ## What the parsers return

A parsed value is parsed again, so what it is as a value is what the parsers accept; where the
discriminator was text the declared reading holds of it as well. -/

theorem parseSemanticTurnRequest_mode {request : SemanticTurnRequest}
    (h : parseSemanticTurnRequest v = .ok request) : request.mode.1 = v.get "mode" := by
  have hv : IsObject v := (accepts_object.mp ⟨request, h⟩).1
  obtain ⟨fields, rfl⟩ := hv
  rw [parseSemanticTurnRequest, object, Except.ok_bind] at h
  obtain ⟨-, -, h⟩ := Except.bind_eq_ok.mp h
  obtain ⟨-, h⟩ := Except.ite_eq_ok_error.mp h
  obtain ⟨found, hfound, h⟩ := Except.bind_eq_ok.mp h
  cases found with
  | none => cases h
  | some mode =>
    obtain ⟨disclosed, -, h⟩ := Except.bind_eq_ok.mp h
    obtain ⟨-, -, h⟩ := Except.bind_eq_ok.mp h
    obtain ⟨objective, -, h⟩ := Except.bind_eq_ok.mp h
    obtain ⟨ids, -, h⟩ := Except.bind_eq_ok.mp h
    cases h
    exact word_eq_some hfound

theorem isTurnRequest_toValue {request : SemanticTurnRequest} {isMode : Value → Prop}
    (h : parseSemanticTurnRequest v = .ok request) (hmode : isMode (v.get "mode")) :
    IsTurnRequest isMode request.toValue := by
  have hspelled : IsTurnRequest (Spelled turnModes) request.toValue :=
    accepts_parseSemanticTurnRequest.mp ⟨request, parseSemanticTurnRequest_toValue request⟩
  have hkept : request.toValue.get "mode" = v.get "mode" := parseSemanticTurnRequest_mode h
  exact ⟨hspelled.keyed, hspelled.protocolVersion, hkept ▸ hmode, hspelled.objective,
    hspelled.disclosed⟩

theorem output_work_iff {isKind : Value → Prop} (hspelled : ∀ w, isKind w → Spelled workKinds w) :
    (∃ work : WorkIntent, parseSemanticOutput v = .ok (.intent (.work work)) ∧ isKind work.kind.1)
      ↔ IsEnvelope "intent" (IsWorkIntent isKind) v := by
  constructor
  · rintro ⟨work, hwork, hkind⟩
    obtain ⟨intent, henvelope, heq⟩ | ⟨_, _, heq⟩ := parseSemanticOutput_eq_ok.mp hwork
    · obtain rfl := SemanticOutput.intent.inj heq
      exact henvelope.congr fun hpayload =>
        (parseIntent_work_iff hspelled).mp ⟨work, hpayload, hkind⟩
    · cases heq
  · intro h
    obtain ⟨work, hpayload, hkind⟩ := (parseIntent_work_iff hspelled).mpr h.payload
    exact ⟨work, parseSemanticOutput_eq_ok.mpr
      (.inl ⟨.work work, h.congr fun _ => hpayload, rfl⟩), hkind⟩

/-- What is returned is declared, unless a joined kind was. -/
theorem isOutput_toValue {output : SemanticOutput} (h : parseSemanticOutput v = .ok output)
    (hjoined : ¬ IsEnvelope "intent" (IsWorkIntent (Joined workKinds)) v) :
    IsOutput (IsWord workKinds) output.toValue := by
  have hagain : parseSemanticOutput output.toValue = .ok output := parseSemanticOutput_toValue output
  obtain hintent | hproposal := accepts_parseSemanticOutput.mp ⟨output, hagain⟩
  · obtain hwork | hrest := hintent.payload
    · -- the kind of a work intent is that of `v`, which is no array
      obtain ⟨work, hwork, hkind⟩ := (output_work_iff fun _ hw => hw).mpr
        (hintent.congr fun _ => hwork)
      obtain rfl : output = .intent (.work work) := Except.ok.inj (hagain.symm.trans hwork)
      obtain hword | hbad := (spelled_iff workKinds_lettered).mp hkind
      · have hdeclared := (output_work_iff fun _ => IsWord.spelled).mp ⟨work, hagain, hword⟩
        exact .inl (hdeclared.congr .inl)
      · exact absurd ((output_work_iff fun _ => Joined.spelled).mp ⟨work, h, hbad⟩) hjoined
    · exact .inl (hintent.congr fun _ => .inr hrest)
  · exact .inr hproposal

/-- What the contract promises of a request: a declared one is accepted, and what is returned is
declared and parsed again to itself. -/
def TurnRequestHolds (v : Value) : Prop :=
  (IsTurnRequest (IsWord turnModes) v → Accepts (parseSemanticTurnRequest v))
    ∧ ∀ request, parseSemanticTurnRequest v = .ok request →
      IsTurnRequest (IsWord turnModes) request.toValue
        ∧ parseSemanticTurnRequest request.toValue = .ok request

def OutputHolds (v : Value) : Prop :=
  (IsOutput (IsWord workKinds) v → Accepts (parseSemanticOutput v))
    ∧ ∀ output, parseSemanticOutput v = .ok output →
      IsOutput (IsWord workKinds) output.toValue ∧ parseSemanticOutput output.toValue = .ok output

theorem turnRequestHolds_iff (v : Value) :
    TurnRequestHolds v ↔ ¬ IsTurnRequest (Joined turnModes) v := by
  constructor
  · rintro ⟨-, hreturns⟩ hjoined
    obtain ⟨request, hrequest⟩ : Accepts (parseSemanticTurnRequest v) :=
      accepts_parseSemanticTurnRequest.mpr ⟨hjoined.keyed, hjoined.protocolVersion,
        hjoined.mode.spelled, hjoined.objective, hjoined.disclosed⟩
    have hdeclared := (hreturns request hrequest).1
    have hkept := isTurnRequest_toValue hrequest hjoined.mode
    exact hkept.mode.not_isWord hdeclared.mode
  · intro hjoined
    constructor
    · intro hv
      exact accepts_parseSemanticTurnRequest.mpr ⟨hv.keyed, hv.protocolVersion, hv.mode.spelled,
        hv.objective, hv.disclosed⟩
    · intro request hrequest
      have hv := accepts_parseSemanticTurnRequest.mp ⟨request, hrequest⟩
      refine ⟨isTurnRequest_toValue hrequest ?_, parseSemanticTurnRequest_toValue request⟩
      obtain hword | hbad := (spelled_iff turnModes_lettered).mp hv.mode
      · exact hword
      · exact absurd ⟨hv.keyed, hv.protocolVersion, hbad, hv.objective, hv.disclosed⟩ hjoined

theorem outputHolds_iff (v : Value) :
    OutputHolds v ↔ ¬ IsEnvelope "intent" (IsWorkIntent (Joined workKinds)) v := by
  constructor
  · rintro ⟨-, hreturns⟩ hjoined
    obtain ⟨work, hwork, hkind⟩ := (output_work_iff fun _ => Joined.spelled).mpr hjoined
    obtain ⟨hdeclared, hagain⟩ := hreturns _ hwork
    have hkept : ((SemanticOutput.intent (.work work)).toValue.get "payload").get "kind"
        = work.kind.1 := rfl
    obtain hintent | hproposal := hdeclared
    · obtain hdeclared | hclarify | hcomplete := hintent.payload
      · exact hkind.not_isWord (hkept ▸ hdeclared.kind)
      · exact hkind.ne_str "clarify" (hkept ▸ hclarify.kind)
      · exact hkind.ne_str "complete" (hkept ▸ hcomplete.kind)
    · exact absurd (Value.str.inj hproposal.kind) (by decide)
  · intro hjoined
    constructor
    · rintro (hv | hv)
      · refine accepts_parseSemanticOutput.mpr (.inl (hv.congr fun hpayload => ?_))
        obtain hwork | hrest := hpayload
        · exact .inl ⟨hwork.keyed, hwork.kind.spelled, hwork.objective, hwork.target,
            hwork.evidenceGoals, hwork.constraints, hwork.doneWhen⟩
        · exact .inr hrest
      · exact accepts_parseSemanticOutput.mpr (.inr hv)
    · intro output houtput
      exact ⟨isOutput_toValue houtput hjoined, parseSemanticOutput_toValue output⟩

/-- Both parsers keep the contract on a value unless a mode or the kind of a work intent is an
array that joins to a declared word. -/
theorem parsers_hold_iff (v : Value) :
    (TurnRequestHolds v ↔ ¬ IsTurnRequest (Joined turnModes) v)
      ∧ (OutputHolds v ↔ ¬ IsEnvelope "intent" (IsWorkIntent (Joined workKinds)) v) :=
  ⟨turnRequestHolds_iff v, outputHolds_iff v⟩

/-- `{"protocolVersion":2,"mode":["prompt"],"objective":"o","disclosed":{…}}`. -/
def joinedRequest : Value :=
  .obj [("protocolVersion", .nat 2), ("mode", .arr [.str "prompt"]), ("objective", .str "o"),
    ("disclosed", .obj [("selectionIds", .arr []), ("documentIds", .arr []),
      ("observationIds", .arr [])])]

def joinedOutput : Value :=
  .obj [("protocolVersion", .nat 2), ("kind", .str "intent"),
    ("payload", .obj [("kind", .arr [.str "review"]), ("objective", .str "o"),
      ("target", .obj [("kind", .str "symbol"), ("hint", .str "h")]),
      ("evidenceGoals", .arr []), ("constraints", .arr []), ("doneWhen", .str "d")])]

/-- Both are accepted, and the array is returned. -/
theorem parsers_joined : ¬ TurnRequestHolds joinedRequest ∧ ¬ OutputHolds joinedOutput := by
  have hword (words : List String) (s : String) : ¬ IsWord words (.arr [.str s]) := by
    rintro ⟨t, -, ht⟩
    cases ht
  constructor
  · rintro ⟨-, hreturns⟩
    have hrequest : parseSemanticTurnRequest joinedRequest
        = .ok ⟨⟨.arr [.str "prompt"], "prompt", rfl, by decide⟩, ⟨"o", by decide, by simp⟩,
          ⟨⟨[], by decide, by decide⟩, ⟨[], by decide, by decide⟩, ⟨[], by decide, by decide⟩⟩⟩ := by
      rfl
    exact hword turnModes "prompt" (hreturns _ hrequest).1.mode
  · rintro ⟨-, hreturns⟩
    have houtput : parseSemanticOutput joinedOutput
        = .ok (.intent (.work ⟨⟨.arr [.str "review"], "review", rfl, by decide⟩,
          ⟨"o", by decide, by simp⟩, .symbol ⟨"h", by decide, by simp⟩,
          ⟨[], by decide, by decide⟩, ⟨[], by decide, by decide⟩, ⟨"d", by decide, by simp⟩⟩)) := by
      rfl
    obtain hintent | hproposal := (hreturns _ houtput).1
    · obtain hwork | hclarify | hcomplete := hintent.payload
      · exact hword workKinds "review" hwork.kind
      · cases hclarify.kind
      · cases hcomplete.kind
    · exact absurd (Value.str.inj hproposal.kind) (by decide)

end ThreeXhaust.Semantic
