import Mathlib.Data.List.ReduceOption
import ThreeXhaust.Lib.Assoc
import ThreeXhaust.Lib.Json.RoundTrip

/-!
# Tools in a transcript

`ai/src/utils/transcript.ts`: system messages add and remove tools, and what is there at the end is
what the model may call. `getToolStateChanges` writes the step from one state to another, which the
loop of `agent/src/agent-loop.ts` puts in front of a request, and `resolveTranscriptTools` cuts a
history for transports that cannot take a tool back.

A tool is its declaration, with JSON for parameters: what `toToolDeclaration` strips is left out, and
of a system message its sections and its time. Any message but a system message is `none`.
-/

namespace ThreeXhaust.Ai

open Json (Value)

structure Tool where
  name : String
  description : String
  parameters : {v : Value // v.IsJson}
  constrainedSampling : Option {v : Value // v.IsJson}

/-- A list that a system message leaves out is empty. -/
structure ToolStateChanges where
  toolsAdded : List Tool
  toolsRemoved : List String

structure SystemMessage extends ToolStateChanges where
  content : String

abbrev ToolMap := List (String × Tool)

/-- `tools.set(tool.name, tool)` for each of them. -/
def addTools (tools : ToolMap) (added : List Tool) : ToolMap :=
  added.foldl (fun tools tool => Assoc.set tools tool.name tool) tools

def ToolStateChanges.apply (tools : ToolMap) (changes : ToolStateChanges) : ToolMap :=
  addTools (changes.toolsRemoved.foldl Assoc.erase tools) changes.toolsAdded

def toolState (messages : List (Option SystemMessage)) : ToolMap :=
  messages.reduceOption.foldl (fun tools m => m.apply tools) []

def getCurrentTools (messages : List (Option SystemMessage)) : List Tool :=
  (toolState messages).map (·.2)

def Tool.toValue (t : Tool) : Value :=
  .obj ([("name", .str t.name), ("description", .str t.description), ("parameters", t.parameters.1)]
    ++ t.constrainedSampling.toList.map fun v => ("constrainedSampling", v.1))

def declarationsEqual (left right : Tool) : Bool :=
  left.toValue.stringify = right.toValue.stringify

/-- Whether the other state has the tool not at all, or otherwise. -/
def differs (other : List Tool) (tool : Tool) : Bool :=
  ((addTools [] other).lookup tool.name).all (!declarationsEqual · tool)

def getToolStateChanges (previous current : List Tool) : ToolStateChanges where
  toolsAdded := current.filter (differs previous)
  toolsRemoved := (previous.filter (differs current)).map (·.name)

/-- The messages with the last system message changed, if there is one. -/
def onLastSystem (f : SystemMessage → SystemMessage) :
    List (Option SystemMessage) → Option (List (Option SystemMessage))
  | [] => none
  | m :: rest =>
    match onLastSystem f rest with
    | some rest => some (m :: rest)
    | none => m.map fun m => some (f m) :: rest

def SystemMessage.withToolChanges (m : SystemMessage) (changes : ToolStateChanges) : SystemMessage :=
  { changes with content := m.content }

/-- The tool fields of a pending system message are replaced; without one, an update is inserted. -/
def declareToolChanges (messages pending : List (Option SystemMessage)) (tools : List Tool) :
    List (Option SystemMessage) :=
  let baseline := (onLastSystem (·.withToolChanges ⟨[], []⟩) pending).getD pending
  let changes := getToolStateChanges (getCurrentTools (messages ++ baseline)) tools
  match onLastSystem (·.withToolChanges changes) pending with
  | some declared => declared
  | none =>
    if changes.toolsAdded.isEmpty && changes.toolsRemoved.isEmpty then pending
    else
      let index := pending.findIdx (·.isNone)
      pending.take index ++ some { changes with content := "" } :: pending.drop index

def redeclares (declared : List String) : List String → Bool
  | [] => false
  | name :: rest => declared.contains name || redeclares (name :: declared) rest

def isAdditive (declared : List String) (m : SystemMessage) : Bool :=
  m.toolsRemoved.isEmpty && !redeclares declared (m.toolsAdded.map (·.name))

/-- `findLastNonAdditiveToolChange`, plus one: `0` where there is none. -/
def afterLastNonAdditive (declared : List String) (index last : Nat) : List SystemMessage → Nat
  | [] => last
  | m :: rest =>
    afterLastNonAdditive (m.toolsAdded.map (·.name) ++ declared) (index + 1)
      (if isAdditive declared m then last else index + 1) rest

inductive TranscriptToolSupport where
  | none
  | additions
  | changes

structure TranscriptTools where
  requestTools : List Tool
  foldedSystemMessages : Nat

def resolveTranscriptTools (messages : List (Option SystemMessage)) :
    TranscriptToolSupport → TranscriptTools
  | .none => ⟨getCurrentTools messages, messages.reduceOption.length⟩
  | .changes => ⟨[], 0⟩
  | .additions =>
    let systemMessages := messages.reduceOption
    let initial := if messages.head?.join.isSome then 1 else 0
    let folded := max initial (afterLastNonAdditive [] 0 0 systemMessages)
    ⟨getCurrentTools ((systemMessages.take folded).map some), folded⟩

/-- What is declared where a later declaration replaces an earlier one and none is taken back. -/
def declaredInPlace (tools : ToolMap) (messages : List SystemMessage) : ToolMap :=
  messages.foldl (fun tools m => addTools tools m.toolsAdded) tools

/-! ## The map of tools -/

/-- A tool is under its name, and no name is there twice. -/
structure Named (tools : ToolMap) : Prop where
  nodup : (tools.map (·.1)).Nodup
  names : ∀ entry ∈ tools, entry.1 = entry.2.name

variable {tools : ToolMap}

theorem Named.set (h : Named tools) (tool : Tool) :
    Named (Assoc.set tools tool.name tool) where
  nodup := Assoc.nodup_set h.nodup
  names entry hentry := by
    rcases Assoc.mem_set hentry with rfl | hentry
    · rfl
    · exact h.names entry hentry

theorem Named.addTools {tools : ToolMap} (h : Named tools) (added : List Tool) :
    Named (addTools tools added) := by
  induction added generalizing tools with
  | nil => exact h
  | cons tool added ih => exact ih (h.set tool)

theorem Named.apply (h : Named tools) (changes : ToolStateChanges) :
    Named (changes.apply tools) := by
  refine Named.addTools ?_ _
  induction changes.toolsRemoved generalizing tools with
  | nil => exact h
  | cons name removed ih =>
    refine ih ⟨h.nodup.sublist (List.filter_sublist.map _), fun entry hentry => ?_⟩
    exact h.names entry (List.mem_of_mem_filter hentry)

theorem named_toolState (messages : List (Option SystemMessage)) : Named (toolState messages) := by
  have hall (ms : List SystemMessage) {tools : ToolMap} (h : Named tools) :
      Named (ms.foldl (fun tools m => m.apply tools) tools) := by
    induction ms generalizing tools with
    | nil => exact h
    | cons m ms ih => exact ih (h.apply m.toToolStateChanges)
  exact hall _ ⟨List.nodup_nil, by simp⟩

theorem addTools_fresh {added : List Tool} (h : (tools.map (·.1) ++ added.map (·.name)).Nodup) :
    addTools tools added = tools ++ added.map fun tool => (tool.name, tool) := by
  induction added generalizing tools with
  | nil => exact (List.append_nil tools).symm
  | cons tool added ih =>
    rw [List.map_cons] at h
    have hnew : tool.name ∉ tools.map (·.1) := fun hmem =>
      List.disjoint_of_nodup_append h hmem List.mem_cons_self
    have hset : Assoc.set tools tool.name tool = tools ++ [(tool.name, tool)] := by
      rw [Assoc.set, if_neg]
      simpa using hnew
    show addTools (Assoc.set tools tool.name tool) added = _
    rw [hset, ih (by simpa using h), List.append_assoc]
    rfl

theorem Named.addTools_values (h : Named tools) : Ai.addTools [] (tools.map (·.2)) = tools := by
  have hnames : tools.map (·.2.name) = tools.map (·.1) :=
    List.map_congr_left fun entry hentry => (h.names entry hentry).symm
  rw [addTools_fresh (by simpa [Function.comp_def, hnames] using h.nodup), List.nil_append,
    List.map_map]
  refine (List.map_congr_left fun entry hentry => ?_).trans (List.map_id tools)
  rw [Function.comp, ← h.names entry hentry]
  rfl

theorem lookup_addTools {added : List Tool} (h : (added.map (·.name)).Nodup) (name : String)
    : (addTools tools added).lookup name =
      (added.find? (·.name = name)).or (tools.lookup name) := by
  induction added generalizing tools with
  | nil => rfl
  | cons tool added ih =>
    rw [List.map_cons, List.nodup_cons] at h
    show (addTools (Assoc.set tools tool.name tool) added).lookup name = _
    rw [ih h.2, Assoc.lookup_set, List.find?_cons]
    by_cases hname : tool.name = name
    · have hnone : added.find? (·.name = name) = none := by
        rw [List.find?_eq_none]
        intro other hother hsame
        exact h.1 (List.mem_map.mpr ⟨other, hother, (of_decide_eq_true hsame).trans hname.symm⟩)
      simp [hname, hnone]
    · simp [hname, Ne.symm hname]

/-! ## Changes of the state -/

theorem declarationsEqual_iff {left right : Tool} : declarationsEqual left right ↔ left = right := by
  have hjson (t : Tool) : t.toValue.IsJson := by
    rw [Tool.toValue, Value.isJson_obj]
    have hparameters := t.parameters.2
    cases hsampling : t.constrainedSampling with
    | none => simp [hparameters]
    | some v => simp [hparameters, v.2]
  constructor
  · intro h
    have hvalue : left.toValue = right.toValue := by
      have hread := congrArg Json.parse (of_decide_eq_true h)
      rw [Json.parse_stringify _ (hjson left), Json.parse_stringify _ (hjson right)] at hread
      exact Option.some.inj hread
    obtain ⟨name, description, ⟨parameters, hparameters⟩, sampling⟩ := left
    obtain ⟨name', description', ⟨parameters', hparameters'⟩, sampling'⟩ := right
    simp only [Tool.toValue] at hvalue
    rcases sampling with _ | ⟨v, hv⟩ <;> rcases sampling' with _ | ⟨v', hv'⟩ <;>
      simp_all
  · rintro rfl
    exact decide_eq_true rfl

theorem lookup_removed (removed : List String) (tools : ToolMap) (name : String) :
    (removed.foldl Assoc.erase tools).lookup name =
      if name ∈ removed then none else tools.lookup name := by
  induction removed generalizing tools with
  | nil => simp
  | cons other removed ih =>
    rw [List.foldl_cons, ih, Assoc.lookup_erase]
    by_cases hname : name = other
    · simp [hname]
    · simp [hname]

variable {tool : Tool}

theorem find_eq_some_iff {tools : List Tool} (h : (tools.map (·.name)).Nodup) {name : String}
    : tools.find? (·.name = name) = some tool ↔ tool ∈ tools ∧ tool.name = name := by
  constructor
  · intro hfind
    exact ⟨List.mem_of_find?_eq_some hfind, by simpa using List.find?_some hfind⟩
  · rintro ⟨hmem, rfl⟩
    obtain ⟨other, hother⟩ : ∃ other, tools.find? (·.name = tool.name) = some other :=
      Option.isSome_iff_exists.mp (List.find?_isSome.mpr ⟨tool, hmem, by simp⟩)
    have hsame : other.name = tool.name := by simpa using List.find?_some hother
    rw [hother, List.inj_on_of_nodup_map h (List.mem_of_find?_eq_some hother) hmem hsame]

theorem differs_iff {other : List Tool} (h : (other.map (·.name)).Nodup) :
    differs other tool ↔ tool ∉ other := by
  have hfind : other.find? (·.name = tool.name) = some tool ↔ tool ∈ other :=
    (find_eq_some_iff h).trans (and_iff_left rfl)
  rw [differs, lookup_addTools h, List.lookup_nil, Option.or_none, ← hfind]
  cases other.find? (·.name = tool.name) with
  | none => simp
  | some t => simp [← Bool.not_eq_true, declarationsEqual_iff]

/-- The changes from one state to another make of the one the other, for every name. -/
theorem getToolStateChanges_apply (htools : Named tools) {current : List Tool}
    (hcurrent : (current.map (·.name)).Nodup) (name : String) :
    ((getToolStateChanges (tools.map (·.2)) current).apply tools).lookup name =
      current.find? (·.name = name) := by
  have hprevious : ((tools.map (·.2)).map (·.name)).Nodup := by
    rw [List.map_map]
    exact (List.map_congr_left htools.names) ▸ htools.nodup
  have hlookup : tools.lookup name = (tools.map (·.2)).find? (·.name = name) := by
    conv_lhs => rw [← htools.addTools_values]
    rw [lookup_addTools hprevious, List.lookup_nil, Option.or_none]
  have hadded : ((current.filter (differs (tools.map (·.2)))).map (·.name)).Nodup :=
    hcurrent.sublist (List.filter_sublist.map _)
  rw [ToolStateChanges.apply, getToolStateChanges, lookup_addTools hadded, lookup_removed, hlookup]
  generalize tools.map (·.2) = previous at hprevious hadded
  have hremoved : name ∈ (previous.filter (differs current)).map (·.name) ↔
      ∃ tool ∈ previous, tool.name = name ∧ tool ∉ current := by
    simp [differs_iff hcurrent, and_assoc, and_comm]
  have hmem {tool : Tool} : (current.filter (differs previous)).find? (·.name = name) = some tool ↔
      (tool ∈ current ∧ tool ∉ previous) ∧ tool.name = name := by
    rw [find_eq_some_iff hadded, List.mem_filter, differs_iff hprevious]
  ext tool
  rw [Option.or_eq_some_iff, hmem, find_eq_some_iff hcurrent]
  constructor
  · rintro (⟨⟨htool, -⟩, hname⟩ | ⟨-, hstays⟩)
    · exact ⟨htool, hname⟩
    · split at hstays
      · cases hstays
      · next hnot =>
        obtain ⟨htool, hname⟩ := (find_eq_some_iff hprevious).mp hstays
        rw [hremoved] at hnot
        exact ⟨by_contra fun hgone => hnot ⟨tool, htool, hname, hgone⟩, hname⟩
  · rintro ⟨htool, hname⟩
    by_cases hold : tool ∈ previous
    · -- A tool that stays is neither added nor removed, and no other has its name.
      refine .inr ⟨?_, ?_⟩
      · refine Option.eq_none_iff_forall_ne_some.mpr fun other hother => ?_
        obtain ⟨⟨hin, hnew⟩, hsame⟩ := hmem.mp hother
        exact hnew (List.inj_on_of_nodup_map hcurrent hin htool (hsame.trans hname.symm) ▸ hold)
      · rw [if_neg, find_eq_some_iff hprevious]
        · exact ⟨hold, hname⟩
        · rw [hremoved]
          rintro ⟨other, hin, hsame, hgone⟩
          exact hgone (List.inj_on_of_nodup_map hprevious hin hold (hsame.trans hname.symm) ▸ htool)
    · exact .inl ⟨⟨htool, hold⟩, hname⟩

theorem onLastSystem_spec (pending : List (Option SystemMessage)) :
    ((∀ m ∈ pending, m = none) ∧ ∀ f, onLastSystem f pending = none) ∨
      ∃ front m back, (∀ other ∈ back, other = none) ∧
        ∀ f, onLastSystem f pending = some (front ++ some (f m) :: back) := by
  induction pending with
  | nil => exact .inl ⟨by simp, fun _ => rfl⟩
  | cons first rest ih =>
    rcases ih with ⟨hnone, hlast⟩ | ⟨front, m, back, hback, hlast⟩
    · cases first with
      | none => exact .inl ⟨by simpa using hnone, fun f => by rw [onLastSystem, hlast f]; rfl⟩
      | some m => exact .inr ⟨[], m, rest, hnone, fun f => by rw [onLastSystem, hlast f]; rfl⟩
    · exact .inr ⟨first :: front, m, back, hback, fun f => by rw [onLastSystem, hlast f]; rfl⟩

theorem toolState_append_none (messages : List (Option SystemMessage))
    {others : List (Option SystemMessage)} (h : ∀ m ∈ others, m = none) :
    toolState (messages ++ others) = toolState messages := by
  have hothers : others.reduceOption = [] := List.filterMap_eq_nil_iff.mpr h
  rw [toolState, List.reduceOption_append, hothers, List.append_nil, toolState]

theorem toolState_append_system (messages : List (Option SystemMessage)) (m : SystemMessage)
    {others : List (Option SystemMessage)} (h : ∀ m ∈ others, m = none) :
    toolState (messages ++ some m :: others) = m.apply (toolState messages) := by
  rw [List.append_cons, toolState_append_none _ h, toolState, List.reduceOption_append,
    List.foldl_append]
  rfl

/-- **The model is told what can be run**: in every history, with whatever is pending, the tools that
the transcript declares behind `declareToolChanges` are the tools that the runtime executes. -/
theorem declareToolChanges_exact (messages pending : List (Option SystemMessage)) {tools : List Tool}
    (htools : (tools.map (·.name)).Nodup) (name : String) :
    (toolState (messages ++ declareToolChanges messages pending tools)).lookup name =
      tools.find? (·.name = name) := by
  unfold declareToolChanges
  rcases onLastSystem_spec pending with ⟨hnone, hlast⟩ | ⟨front, m, back, hback, hlast⟩
  · have hstate := getToolStateChanges_apply (named_toolState (messages ++ pending)) htools name
    simp only [hlast, Option.getD_none]
    rw [getCurrentTools]
    generalize getToolStateChanges ((toolState (messages ++ pending)).map (·.2)) tools = changes
      at hstate
    rw [toolState_append_none messages hnone] at hstate
    split
    · next hunchanged =>
      -- nothing to tell: the tools are those already
      obtain ⟨hadded, hremoved⟩ : changes.toolsAdded = [] ∧ changes.toolsRemoved = [] := by
        simpa using hunchanged
      rw [ToolStateChanges.apply, hadded, hremoved] at hstate
      rw [toolState_append_none messages hnone]
      exact hstate
    · rw [← List.append_assoc, toolState_append_system _ _ fun m hm =>
        hnone m (List.mem_of_mem_drop hm), toolState_append_none _ fun m hm =>
        hnone m (List.mem_of_mem_take hm)]
      exact hstate
  · have hstate := getToolStateChanges_apply (named_toolState (messages ++ front)) htools name
    simp only [hlast, Option.getD_some]
    rw [← List.append_assoc, toolState_append_system _ _ hback, getCurrentTools,
      ← List.append_assoc, toolState_append_system _ _ hback]
    exact hstate

def readTool : Tool := ⟨"read", "", ⟨.null, trivial⟩, none⟩

def bashTool : Tool := ⟨"bash", "", ⟨.null, trivial⟩, none⟩

theorem declareToolChanges_exact_bash :
    (toolState ([some ⟨⟨[readTool], []⟩, ""⟩] ++
      declareToolChanges [some ⟨⟨[readTool], []⟩, ""⟩] [none] [bashTool])).lookup "read" = none :=
  declareToolChanges_exact _ _ (by decide) "read"

/-! ## Transports -/

variable {declared : List String}

theorem redeclares_eq_false {names : List String} (h : redeclares declared names = false) :
    names.Nodup ∧ ∀ name ∈ names, name ∉ declared := by
  induction names generalizing declared with
  | nil => simp
  | cons name names ih =>
    obtain ⟨hname, hrest⟩ := Bool.or_eq_false_iff.mp h
    obtain ⟨hnodup, hnew⟩ := ih hrest
    refine ⟨List.nodup_cons.mpr ⟨fun hmem => hnew name hmem List.mem_cons_self, hnodup⟩, ?_⟩
    rintro other (_ | ⟨_, hother⟩)
    · simpa using hname
    · exact fun hold => hnew other hother (List.mem_cons_of_mem _ hold)

/-- Every message is additive after those in front of it. -/
def Additive (declared : List String) : List SystemMessage → Prop
  | [] => True
  | m :: rest =>
    isAdditive declared m = true ∧ Additive (m.toolsAdded.map (·.name) ++ declared) rest

def declaredNames (declared : List String) (messages : List SystemMessage) : List String :=
  messages.foldl (fun declared m => m.toolsAdded.map (·.name) ++ declared) declared

theorem afterLastNonAdditive_spec (messages : List SystemMessage) (declared : List String)
    (index last : Nat) :
    (afterLastNonAdditive declared index last messages = last ∧ Additive declared messages) ∨
      ∃ k, afterLastNonAdditive declared index last messages = index + k ∧
        Additive (declaredNames declared (messages.take k)) (messages.drop k) := by
  induction messages generalizing declared index last with
  | nil => exact .inl ⟨rfl, trivial⟩
  | cons m messages ih =>
    rw [afterLastNonAdditive]
    rcases ih (m.toolsAdded.map (·.name) ++ declared) (index + 1)
      (if isAdditive declared m then last else index + 1) with ⟨heq, hrest⟩ | ⟨k, heq, hrest⟩
    · rw [heq]
      split
      · next hm => exact .inl ⟨rfl, hm, hrest⟩
      · exact .inr ⟨1, rfl, hrest⟩
    · exact .inr ⟨k + 1, by omega, hrest⟩

theorem Additive.drop {messages : List SystemMessage} {k n : Nat} (hk : k ≤ n)
    (h : Additive (declaredNames [] (messages.take k)) (messages.drop k)) :
    Additive (declaredNames [] (messages.take n)) (messages.drop n) := by
  induction n, hk using Nat.le_induction with
  | base => exact h
  | succ n _ ih =>
    rcases Nat.lt_or_ge n messages.length with hn | hn
    · rw [List.drop_eq_getElem_cons hn] at ih
      rw [List.take_succ_eq_append_getElem hn, declaredNames, List.foldl_append]
      exact ih.2
    · rw [List.drop_eq_nil_of_le (by omega)]
      trivial

theorem mem_declaredNames {messages : List SystemMessage}
    (h : ∀ name ∈ tools.map (·.1), name ∈ declared) : ∀ name ∈
      (messages.foldl (fun tools m => m.apply tools) tools).map (·.1),
        name ∈ declaredNames declared messages := by
  induction messages generalizing tools declared with
  | nil => exact h
  | cons m messages ih =>
    refine ih fun name hname => ?_
    have hadded (added : List Tool) {tools : ToolMap}
        (hname : name ∈ (addTools tools added).map (·.1)) :
        name ∈ added.map (·.name) ∨ name ∈ tools.map (·.1) := by
      induction added generalizing tools with
      | nil => exact .inr hname
      | cons tool added ihadded =>
        rcases ihadded hname with hname | hname
        · exact .inl (List.mem_cons_of_mem _ hname)
        · rw [Assoc.map_fst_set] at hname
          split at hname
          · exact .inr hname
          · rcases List.mem_append.mp hname with hname | hname
            · exact .inr hname
            · exact .inl (List.mem_cons.mpr (.inl (List.mem_singleton.mp hname)))
    have hremoved (removed : List String) {tools : ToolMap}
        (hname : name ∈ (removed.foldl Assoc.erase tools).map (·.1)) : name ∈ tools.map (·.1) := by
      induction removed generalizing tools with
      | nil => exact hname
      | cons other removed ihremoved =>
        exact (List.filter_sublist.map _).subset (ihremoved hname)
    exact List.mem_append.mpr ((hadded _ hname).imp_right fun hold => h name (hremoved _ hold))

theorem Additive.foldl_apply {messages : List SystemMessage} (h : Additive declared messages)
    (htools : (tools.map (·.1)).Nodup) (hdeclared : ∀ name ∈ tools.map (·.1), name ∈ declared) :
    (messages.foldl (fun tools m => m.apply tools) tools).map (·.2) =
      tools.map (·.2) ++ messages.flatMap (·.toolsAdded) := by
  induction messages generalizing declared tools with
  | nil => simp
  | cons m messages ih =>
    obtain ⟨hm, hrest⟩ := h
    simp only [isAdditive, Bool.and_eq_true, List.isEmpty_iff, Bool.not_eq_true'] at hm
    obtain ⟨hnodup, hnew⟩ := redeclares_eq_false hm.2
    have hfresh : (tools.map (·.1) ++ m.toolsAdded.map (·.name)).Nodup :=
      htools.append hnodup fun name hold hname => hnew name hname (hdeclared name hold)
    have happly : m.apply tools = tools ++ m.toolsAdded.map fun tool => (tool.name, tool) := by
      rw [ToolStateChanges.apply, hm.1]
      exact addTools_fresh hfresh
    have hnames : (m.apply tools).map (·.1) = tools.map (·.1) ++ m.toolsAdded.map (·.name) := by
      rw [happly, List.map_append, List.map_map]
      rfl
    rw [List.foldl_cons, ih hrest (hnames ▸ hfresh), happly]
    · simp [Function.comp_def]
    · intro name hname
      rw [hnames, List.mem_append] at hname
      exact List.mem_append.mpr (hname.symm.imp_right (hdeclared name))

theorem declaredInPlace_lookup (messages : List SystemMessage) {tools' : ToolMap}
    (h : ∀ name tool, tools.lookup name = some tool → tools'.lookup name = some tool)
    {name : String}
    (htool : (messages.foldl (fun tools m => m.apply tools) tools).lookup name = some tool) :
    (declaredInPlace tools' messages).lookup name = some tool := by
  induction messages generalizing tools tools' with
  | nil => exact h name tool htool
  | cons m messages ih =>
    refine ih ?_ htool
    have hadded (added : List Tool) {tools tools' : ToolMap}
        (h : ∀ name tool, tools.lookup name = some tool → tools'.lookup name = some tool) :
        ∀ name tool, (addTools tools added).lookup name = some tool →
          (addTools tools' added).lookup name = some tool := by
      induction added generalizing tools tools' with
      | nil => exact h
      | cons other added ihadded =>
        refine ihadded fun name tool hname => ?_
        rw [Assoc.lookup_set] at hname ⊢
        by_cases hother : name = other.name
        · rwa [if_pos hother] at hname ⊢
        · rw [if_neg hother] at hname ⊢
          exact h name tool hname
    refine hadded _ fun name tool hname => ?_
    rw [lookup_removed] at hname
    split at hname
    · cases hname
    · exact h name tool hname

/-- **Every transport declares the current tools**: one that takes no change, or additions only, has
declared exactly these, in their order, and none of the messages left to it removes a tool or declares
one again; and one that takes changes in place has declared them all, each as it is now. -/
theorem resolveTranscriptTools_declares (messages : List (Option SystemMessage)) :
    (∀ support, support ≠ .changes →
      let tools := resolveTranscriptTools messages support
      tools.requestTools ++ (messages.reduceOption.drop tools.foldedSystemMessages).flatMap
          (·.toolsAdded) = getCurrentTools messages ∧
        Additive (declaredNames [] (messages.reduceOption.take tools.foldedSystemMessages))
          (messages.reduceOption.drop tools.foldedSystemMessages)) ∧
    ∀ name tool, (toolState messages).lookup name = some tool →
      let tools := resolveTranscriptTools messages .changes
      (declaredInPlace (addTools [] tools.requestTools)
        (messages.reduceOption.drop tools.foldedSystemMessages)).lookup name = some tool := by
  refine ⟨fun support hsupport => ?_, fun name tool htool => ?_⟩
  · cases support with
    | none => simp [resolveTranscriptTools, Additive]
    | changes => exact absurd rfl hsupport
    | additions =>
      dsimp only [resolveTranscriptTools]
      generalize messages.head?.join.isSome = initial
      generalize hfolded : max (if initial then 1 else 0)
        (afterLastNonAdditive [] 0 0 messages.reduceOption) = folded
      have hadditive : Additive (declaredNames [] (messages.reduceOption.take folded))
          (messages.reduceOption.drop folded) := by
        rcases afterLastNonAdditive_spec messages.reduceOption [] 0 0 with ⟨_, h⟩ | ⟨k, heq, h⟩
        · exact Additive.drop (Nat.zero_le folded) h
        · exact Additive.drop (by omega) h
      have hstate : toolState messages = (messages.reduceOption.drop folded).foldl
          (fun tools m => m.apply tools)
          (toolState ((messages.reduceOption.take folded).map some)) := by
        simp [toolState, List.reduceOption, ← List.foldl_append]
      refine ⟨?_, hadditive⟩
      rw [getCurrentTools, getCurrentTools, hstate]
      refine (hadditive.foldl_apply (named_toolState _).nodup ?_).symm
      rw [toolState, List.reduceOption, List.filterMap_map]
      simpa using mem_declaredNames (by simp)
  · exact declaredInPlace_lookup messages.reduceOption (fun _ _ h => h) htool

end ThreeXhaust.Ai
