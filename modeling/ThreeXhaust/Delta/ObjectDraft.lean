import ThreeXhaust.Delta.DiffReplay
import ThreeXhaust.Lib.Assoc
import Mathlib.Data.List.Sort

/-!
# Drafts of objects

`chord/src/delta/tracker.ts`: a draft keeps a node for each object of its base that was changed.
`emitSimpleObjectOperations` emits the operations of a draft that changes nothing else, and
`cloneNode` reads its value off the nodes: it is the one value that a tracker does not make from the
operations, so the two have to agree.

* **`applied_update`** — one more node, whose objects are untouched below, changes what is at its path
  and nothing around it.
* **`emitNode_emits`** — the operations of a node do to its object what the node says.
* **`emitSimpleObjectOperations_replays`** — the operations of a draft take the base to the clone.

The order of keys is no part of a value here, and the node's single slots (`writeKey`, `deleteKey`)
are the first entry of its maps.
-/

namespace ThreeXhaust.Delta

open Utf16

/-! ## Nodes -/

/-- The changes of an `OverlayNode` over an object. -/
structure ObjectNode where
  writes : List (Text × Value Nat)
  deletes : List Text
  /-- Keys of the base that were deleted and written again. -/
  readded : List Text
  appends : Text → Option Text

def ObjectNode.clean : ObjectNode := ⟨[], [], [], fun _ => none⟩

/-- `Set.add`. -/
def addKey (keys : List Text) (key : Text) : List Text := if key ∈ keys then keys else keys ++ [key]

def removeKey (keys : List Text) (key : Text) : List Text := keys.filter (· ≠ key)

/-- What is done to an object through its handle; a value is a copy already. -/
inductive Edit where
  | set (key : Text) (stored : Value Nat)
  | delete (key : Text)
  | append (key text : Text)

namespace ObjectNode

section
variable (node : ObjectNode) (fields : List (Text × Value Nat)) (key : Text)

def objectHas : Bool :=
  key ∉ node.deletes && ((getField node.writes key).isSome || (getField fields key).isSome)

def objectValue : Option (Value Nat) := (getField node.writes key).or (getField fields key)

/-- `setProperty`; nothing where the value is there already. -/
def setProperty (stored : Value Nat) : Option ObjectNode :=
  if key ∉ node.deletes ∧ stored.isObj = false
      ∧ (node.objectValue fields key).any (·.same stored) = true then none
  else
    some
      { writes := setField node.writes key stored
        deletes := removeKey node.deletes key
        readded :=
          if key ∈ node.deletes ∧ (getField fields key).isSome = true then addKey node.readded key
          else node.readded
        appends := Function.update node.appends key none }

def deleteProperty : Option ObjectNode :=
  if node.objectHas fields key then
    some
      { writes := deleteField node.writes key
        deletes := addKey node.deletes key
        readded := removeKey node.readded key
        appends := Function.update node.appends key none }
  else none

/-- `appendText`; it throws where there is no string. -/
def appendText (text : Text) : Option ObjectNode :=
  match if node.objectHas fields key then node.objectValue fields key else none with
  | some (.str current) =>
    if text = [] then none
    else
      let appended := (node.appends key).or (if (getField node.writes key).isSome then none else some [])
      some
        { node with
          writes := setField node.writes key (.str (current ++ text))
          appends := Function.update node.appends key (appended.map (· ++ text)) }
  | _ => none

def edit : Edit → Option ObjectNode
  | .set key stored => node.setProperty fields key stored
  | .delete key => node.deleteProperty fields key
  | .append key text => node.appendText fields key text

/-- Whether the key no longer leads to what the base has there. -/
def touches : Bool := key ∈ node.deletes || (getField node.writes key).isSome

def hasReservedMutation : Bool :=
  node.writes.any (·.1 ∈ reservedSegments) || node.deletes.any (· ∈ reservedSegments)

end

end ObjectNode

/-! ## Drafts -/

/-- `context.dirty`: the nodes that were changed, in the order of their first change, each with the
keys that lead to its object. -/
abbrev Nodes := List (List Text × ObjectNode)

def Nodes.find (nodes : Nodes) (path : List Text) : Option ObjectNode :=
  @List.lookup _ _ instBEqOfDecidableEq path nodes

def fieldsAt : List Text → Value Nat → Option (List (Text × Value Nat))
  | [], .obj _ fields => some fields
  | key :: path, .obj _ fields => (getField fields key).bind (fieldsAt path)
  | _, _ => none

/-- An edit through the handle of an object of the base; it may outlive what leads to the object. -/
def editAt (base : Value Nat) (nodes : Nodes) (edit : List Text × Edit) : Nodes :=
  match (fieldsAt edit.1 base).bind fun fields =>
      ((nodes.find edit.1).getD .clean).edit fields edit.2 with
  | some node => Assoc.set nodes edit.1 node
  | none => nodes

def drafted (base : Value Nat) (edits : List (List Text × Edit)) : Nodes := edits.foldl (editAt base) []

/-! ## Operations -/

section Equal

variable {τ : Type} [DecidableEq τ]

mutual

/-- `equalTrustedJson`. That a container equals itself needs no identity to say so, and `Object.keys`
has a key once. -/
def equalTrustedJson : Value τ → Value τ → Bool
  | .arr _ items, .arr _ others => items.length = others.length && equalTrustedItems items others
  | .obj _ fields, .obj _ others =>
    (fields.map Prod.fst).dedup.length = (others.map Prod.fst).dedup.length
      && equalTrustedFields fields others
  | .null, right => Value.null.same right
  | .bool b, right => (Value.bool b).same right
  | .num n, right => (Value.num n).same right
  | .str text, right => (Value.str text).same right
  | _, _ => false

@[grind =] def equalTrustedItems : List (Value τ) → List (Value τ) → Bool
  | item :: items, other :: others => equalTrustedJson item other && equalTrustedItems items others
  | _, _ => true

@[grind =] def equalTrustedFields : List (Text × Value τ) → List (Text × Value τ) → Bool
  | [], _ => true
  | (key, value) :: fields, others =>
    (match getField others key with
      | some other => equalTrustedJson value other
      | none => false) && equalTrustedFields fields others

end

end Equal

def keyPath (path : List Text) : Path := path.map .key

/-- `emitChangedValue`, and whether it emitted anything. -/
def emitChangedValue (path : Path) (before : Option (Value Nat)) (after : Value Nat)
    (batch : Batch Nat) : Batch Nat × Bool :=
  match before with
  | none => (batch.emit (.s path after), true)
  | some before =>
    if after.isObj = false ∧ before.same after = true then (batch, false)
    else if before.isObj = true ∧ after.isObj = true ∧ equalTrustedJson before after = true then
      (batch, false)
    else
      match before, after with
      | .str before, .str after => (emitString before after path batch, true)
      | _, after => (batch.emit (.s path after), true)

section Emit

variable (node : ObjectNode) (fields : List (Text × Value Nat)) (path : List Text)

/-- `emitObjectWrite`: whether a container was written that equals the one that was there. -/
def emitObjectWrite (entry : Text × Value Nat) (batch : Batch Nat) : Batch Nat × Bool :=
  match node.appends entry.1 with
  | some text => (batch.emit (.a (keyPath path ++ [.key entry.1]) text), false)
  | none =>
    let before := if entry.1 ∈ node.readded then none else getField fields entry.1
    let (batch, emitted) := emitChangedValue (keyPath path ++ [.key entry.1]) before entry.2 batch
    (batch, before.any Value.isObj && entry.2.isObj && !emitted)

@[grind =] def emitWrites : List (Text × Value Nat) → Batch Nat → Batch Nat × Bool
  | [], batch => (batch, false)
  | entry :: entries, batch =>
    let (batch, normalized) := emitObjectWrite node fields path entry batch
    let (batch, others) := emitWrites entries batch
    (batch, normalized || others)

def emitDeletes (keys : List Text) (batch : Batch Nat) : Batch Nat :=
  keys.foldl (fun batch key =>
    if (getField fields key).isSome then batch.emit (.d (keyPath path ++ [.key key])) else batch) batch

/-- `emitObjectOperations`; `Batch.emit` gives up where the source stops at `MAX_DELTA_OPERATIONS`. -/
def emitObjectOperations (batch : Batch Nat) : Batch Nat × Bool :=
  let (batch, normalized) := emitWrites node fields path node.writes
    (emitDeletes fields path node.readded batch)
  (emitDeletes fields path node.deletes batch, normalized)

end Emit

@[grind =] def emitNodes (base : Value Nat) : Nodes → Batch Nat → Batch Nat × Bool
  | [], batch => (batch, false)
  | (path, node) :: nodes, batch =>
    let (batch, normalized) := emitObjectOperations node ((fieldsAt path base).getD []) path batch
    let (batch, others) := emitNodes base nodes batch
    (batch, normalized || others)

/-- The path of a node does not resolve: a node above it writes or deletes the key it goes through. -/
def Nodes.cut (nodes : Nodes) (path : List Text) : Bool :=
  nodes.any fun entry => entry.1.isPrefixOf path && (path[entry.1.length]?).any entry.2.touches

/-! ## Clones -/

/-- The nodes at and below a property. -/
def Nodes.below (key : Text) (nodes : Nodes) : Nodes :=
  nodes.filterMap fun entry =>
    match entry.1 with
    | [] => none
    | first :: path => if first = key then some (path, entry.2) else none

/-- The properties of a clone, of the clones of those that the base has: what is written stands where
the base has it, or behind. -/
def ObjectNode.properties (node : ObjectNode) (fields : List (Text × Value Nat)) :
    List (Text × Value Nat) :=
  node.writes.foldl (fun fields entry => setField fields entry.1 entry.2)
    (fields.filter fun field => field.1 ∉ node.deletes ∧ field.1 ∉ node.readded)

mutual

/-- `cloneNode`: a container that is made has an identity from `fresh` on. -/
def cloneNode (fresh : Nat) (nodes : Nodes) : Value Nat → Value Nat
  | .obj tag fields =>
    .obj (tag + fresh) (((nodes.find []).getD .clean).properties (cloneFields fresh nodes fields))
  | .null => .null
  | .bool b => .bool b
  | .num n => .num n
  | .str text => .str text
  | .arr tag items => .arr tag items

/-- `cloneStored` of each property: nothing is copied where no node below it was changed. -/
@[grind =] def cloneFields (fresh : Nat) (nodes : Nodes) :
    List (Text × Value Nat) → List (Text × Value Nat)
  | [] => []
  | (key, value) :: fields =>
    (key, if (nodes.below key).isEmpty then value else cloneNode fresh (nodes.below key) value)
      :: cloneFields fresh nodes fields

end

/-- From here on no container of the draft has its identity. -/
def Nodes.fresh (base : Value Nat) (nodes : Nodes) : Nat :=
  nodes.foldl (fun n entry => max n (boundFields entry.2.writes)) base.bound

/-- `cloneNode(context.root)`. -/
def cloneRoot (base : Value Nat) (nodes : Nodes) : Value Nat := cloneNode (nodes.fresh base) nodes base

def maxSimpleObjectNodes : Nat := 128

/-- `emitSimpleObjectOperations`, and whether the value is cloned directly. -/
def emitSimpleObjectOperations (base : Value Nat) (nodes : Nodes) :
    Option (List (Op (Value Nat)) × Bool) :=
  let resolved := nodes.filter fun entry => !nodes.cut entry.1
  if nodes.any (·.2.hasReservedMutation) || resolved.any (·.1.any (· ∈ reservedSegments))
      || decide (resolved.length > maxSimpleObjectNodes) then none
  else
    let (batch, normalized) := emitNodes base
      (resolved.insertionSort fun entry other => entry.1.length ≤ other.1.length) ⟨[], false⟩
    if batch.overflowed then some ([.r (cloneRoot base nodes)], false) else some (batch.ops, !normalized)

/-! ## Equal values -/

section Equal

variable {τ : Type} [DecidableEq τ]

theorem Value.data_of_same {left right : Value τ} (hobj : left.isObj = false ∨ right.isObj = false)
    (h : left.same right = true) : left.data = right.data := by
  cases left <;> cases right <;> simp_all [Value.same, Value.isObj, Value.data]

mutual

/-- **Containers that are not emitted** are the same data as what was there. -/
theorem equalTrustedJson_data (left right : Value τ) (h : equalTrustedJson left right = true) :
    left.data = right.data := by
  match left, right, h with
  | .arr tag items, .arr tag' others, h =>
    rw [equalTrustedJson, Bool.and_eq_true, decide_eq_true_eq] at h
    rw [Value.data, Value.data, equalTrustedItems_data items others h.1 h.2]
  | .obj tag fields, .obj tag' others, h =>
    rw [equalTrustedJson, Bool.and_eq_true, decide_eq_true_eq] at h
    rw [Value.data, Value.data, dataFields_eq_of_subset h.1.ge
      (equalTrustedFields_data fields others h.2)]
  | .null, right, h => exact Value.data_of_same (.inl rfl) h
  | .bool b, right, h => exact Value.data_of_same (.inl rfl) h
  | .num n, right, h => exact Value.data_of_same (.inl rfl) h
  | .str text, right, h => exact Value.data_of_same (.inl rfl) h

theorem equalTrustedItems_data (items others : List (Value τ)) (hlength : items.length = others.length)
    (h : equalTrustedItems items others = true) : dataItems items = dataItems others := by
  match items, others, hlength, h with
  | [], [], _, _ => rfl
  | item :: items, other :: others, hlength, h =>
    rw [equalTrustedItems, Bool.and_eq_true] at h
    rw [dataItems, dataItems, equalTrustedJson_data item other h.1,
      equalTrustedItems_data items others (Nat.succ.inj hlength) h.2]

theorem equalTrustedFields_data (fields others : List (Text × Value τ))
    (h : equalTrustedFields fields others = true) :
    ∀ field ∈ fields, ∃ other, getField others field.1 = some other
      ∧ field.2.data = other.data := by
  match fields, h with
  | [], _ => exact nofun
  | (key, value) :: fields, h =>
    rw [equalTrustedFields, Bool.and_eq_true] at h
    rw [List.forall_mem_cons]
    refine ⟨?_, equalTrustedFields_data fields others h.2⟩
    split at h
    · next other hother => exact ⟨other, hother, equalTrustedJson_data value other h.1⟩
    · cases h.1

end

end Equal

/-! ## What a node keeps -/

/-- A node of a draft, over an object with these fields. -/
structure ObjectNode.Kept (node : ObjectNode) (fields : List (Text × Value Nat)) : Prop where
  keys : (node.writes.map Prod.fst).Nodup
  deleted : ∀ key ∈ node.deletes, dataFields node.writes key = none
  readded : ∀ key ∈ node.readded, (dataFields node.writes key).isSome = true
  appended : ∀ key text, node.appends key = some text → key ∉ node.readded ∧ ∃ old,
    dataFields fields key = some (.str old) ∧ dataFields node.writes key = some (.str (old ++ text))

theorem ObjectNode.clean_kept (fields : List (Text × Value Nat)) : ObjectNode.clean.Kept fields :=
  ⟨List.nodup_nil, nofun, nofun, nofun⟩

variable {other : Text}

section Fields

variable {τ : Type} {fields : List (Text × Value τ)} {key : Text} {value : Value τ}

theorem mem_keys_setField (h : other ∈ (setField fields key value).map Prod.fst) :
    other = key ∨ other ∈ fields.map Prod.fst := by
  induction fields with
  | nil => exact .inl (List.mem_singleton.mp h)
  | cons field fields ih =>
    rw [setField] at h
    split at h
    · exact .inr h
    · rcases List.mem_cons.mp h with rfl | h
      · exact .inr List.mem_cons_self
      · exact (ih h).imp_right (List.mem_cons_of_mem _)

theorem nodup_setField (h : (fields.map Prod.fst).Nodup) :
    ((setField fields key value).map Prod.fst).Nodup := by
  induction fields with
  | nil => exact List.nodup_singleton _
  | cons field fields ih =>
    rw [setField]
    split
    · exact h
    · next hne =>
      obtain ⟨hnew, hrest⟩ := List.nodup_cons.mp h
      refine List.nodup_cons.mpr ⟨fun hmem => ?_, ih hrest⟩
      exact (mem_keys_setField hmem).elim (fun heq => hne heq.symm) hnew

theorem getField_of_mem (hkeys : (fields.map Prod.fst).Nodup) {field : Text × Value τ}
    (h : field ∈ fields) : getField fields field.1 = some field.2 := by
  induction fields with
  | nil => cases h
  | cons first fields ih =>
    obtain ⟨hnew, hrest⟩ := List.nodup_cons.mp hkeys
    rw [getField]
    rcases List.mem_cons.mp h with rfl | h
    · exact if_pos rfl
    · have hne : field.1 ≠ first.1 := fun heq => hnew (heq ▸ List.mem_map_of_mem h)
      rw [if_neg hne, ih hrest h]

theorem data_str {text : Text} (h : value.data = .str text) : value = .str text := by
  cases value with
  | str other => exact congrArg Value.str (Data.str.inj h)
  | _ => cases h

end Fields

theorem mem_removeKey {keys : List Text} {key : Text} :
    other ∈ removeKey keys key ↔ other ∈ keys ∧ other ≠ key := by
  simp [removeKey]

theorem mem_addKey {keys : List Text} {key : Text} :
    other ∈ addKey keys key ↔ other ∈ keys ∨ other = key := by
  unfold addKey
  split
  · next hmem => exact ⟨.inl, fun h => h.elim id fun heq => heq ▸ hmem⟩
  · rw [List.mem_append, List.mem_singleton]

section Edits

variable {node next : ObjectNode} {fields : List (Text × Value Nat)} {key : Text}

/-- An edit of one key leaves what the node keeps about the others. -/
theorem ObjectNode.Kept.change (h : node.Kept fields) {x : Option Data}
    (hkeys : (next.writes.map Prod.fst).Nodup)
    (hwrites : dataFields next.writes = Function.update (dataFields node.writes) key x)
    (hothers : ∀ other ≠ key, (other ∈ next.deletes → other ∈ node.deletes)
      ∧ (other ∈ next.readded → other ∈ node.readded) ∧ next.appends other = node.appends other)
    (hdeleted : key ∈ next.deletes → x = none) (hreadded : key ∈ next.readded → x.isSome = true)
    (happended : ∀ text, next.appends key = some text → key ∉ next.readded ∧ ∃ old,
      dataFields fields key = some (.str old) ∧ x = some (.str (old ++ text))) : next.Kept fields := by
  refine ⟨hkeys, fun other hother => ?_, fun other hother => ?_, fun other text htext => ?_⟩
  all_goals
    rw [hwrites]
    by_cases heq : other = key
  · subst heq
    rw [Function.update_self, hdeleted hother]
  · rw [Function.update_of_ne heq]
    exact h.deleted other ((hothers other heq).1 hother)
  · subst heq
    rw [Function.update_self, hreadded hother]
  · rw [Function.update_of_ne heq]
    exact h.readded other ((hothers other heq).2.1 hother)
  · subst heq
    rw [Function.update_self]
    exact happended text htext
  · rw [Function.update_of_ne heq]
    obtain ⟨hnot, hold⟩ := h.appended other text ((hothers other heq).2.2 ▸ htext)
    exact ⟨fun hmem => hnot ((hothers other heq).2.1 hmem), hold⟩

theorem ObjectNode.Kept.setProperty (h : node.Kept fields) {stored : Value Nat}
    (hnext : node.setProperty fields key stored = some next) : next.Kept fields := by
  unfold ObjectNode.setProperty at hnext
  split at hnext
  · cases hnext
  cases hnext
  apply h.change (nodup_setField h.keys) (dataFields_setField _ _ _)
  · intro other hne
    refine ⟨fun hmem => (mem_removeKey.mp hmem).1, fun hmem => ?_, Function.update_of_ne hne _ _⟩
    dsimp only at hmem
    split at hmem
    · exact (mem_addKey.mp hmem).resolve_right hne
    · exact hmem
  · exact fun hmem => absurd rfl (mem_removeKey.mp hmem).2
  · exact fun _ => rfl
  · intro text htext
    dsimp only at htext
    rw [Function.update_self] at htext
    cases htext

theorem ObjectNode.Kept.deleteProperty (h : node.Kept fields)
    (hnext : node.deleteProperty fields key = some next) : next.Kept fields := by
  unfold ObjectNode.deleteProperty at hnext
  split at hnext
  swap
  · cases hnext
  cases hnext
  apply h.change (h.keys.sublist (List.filter_sublist.map _)) (dataFields_deleteField _ _)
  · exact fun other hne => ⟨fun hmem => (mem_addKey.mp hmem).resolve_right hne,
      fun hmem => (mem_removeKey.mp hmem).1, Function.update_of_ne hne _ _⟩
  · exact fun _ => rfl
  · exact fun hmem => absurd rfl (mem_removeKey.mp hmem).2
  · intro text htext
    dsimp only at htext
    rw [Function.update_self] at htext
    cases htext

theorem ObjectNode.Kept.appendText (h : node.Kept fields) {text : Text}
    (hnext : node.appendText fields key text = some next) : next.Kept fields := by
  unfold ObjectNode.appendText at hnext
  split at hnext
  swap
  · cases hnext
  next current hcurrent =>
  split at hnext
  · cases hnext
  cases hnext
  split at hcurrent
  swap
  · cases hcurrent
  next hhas =>
  rw [ObjectNode.objectHas, Bool.and_eq_true, decide_eq_true_eq] at hhas
  apply h.change (nodup_setField h.keys) (dataFields_setField _ _ _)
  · exact fun other hne => ⟨id, id, Function.update_of_ne hne _ _⟩
  · exact fun hmem => absurd hmem hhas.1
  · exact fun _ => rfl
  intro more hmore
  dsimp only at hmore
  rw [Function.update_self] at hmore
  obtain ⟨before, hbefore, rfl⟩ := Option.map_eq_some_iff.mp hmore
  cases hold : node.appends key with
  | some appended =>
    -- one more append to a text that was appended to
    rw [hold, Option.some_or] at hbefore
    cases hbefore
    obtain ⟨hnot, old, hbase, hwrite⟩ := h.appended key before hold
    refine ⟨hnot, old, hbase, ?_⟩
    rw [dataFields_eq] at hwrite
    obtain ⟨written, hwritten, hdata⟩ := Option.map_eq_some_iff.mp hwrite
    rw [ObjectNode.objectValue, hwritten, Option.some_or, data_str hdata] at hcurrent
    cases hcurrent
    rw [Value.data, List.append_assoc]
  | none =>
    rw [hold, Option.none_or] at hbefore
    split at hbefore
    · cases hbefore
    next hunwritten =>
    cases hbefore
    rw [Bool.not_eq_true, Option.isSome_eq_false_iff, Option.isNone_iff_eq_none] at hunwritten
    rw [ObjectNode.objectValue, hunwritten, Option.none_or] at hcurrent
    refine ⟨fun hmem => ?_, current, ?_, rfl⟩
    · have hsome := h.readded key hmem
      rw [dataFields_eq, hunwritten] at hsome
      cases hsome
    · rw [dataFields_eq, hcurrent]
      rfl

theorem ObjectNode.Kept.edit (h : node.Kept fields) {edit : Edit}
    (hnext : node.edit fields edit = some next) : next.Kept fields := by
  cases edit with
  | set key stored => exact h.setProperty hnext
  | delete key => exact h.deleteProperty hnext
  | append key text => exact h.appendText hnext

end Edits

/-! ## What a draft keeps -/

/-- One node for an object of the base. -/
structure Nodes.Kept (base : Value Nat) (nodes : Nodes) : Prop where
  paths : (nodes.map Prod.fst).Nodup
  nodes : ∀ entry ∈ nodes, ∃ fields, fieldsAt entry.1 base = some fields ∧ entry.2.Kept fields

theorem Nodes.Kept.editAt {base : Value Nat} {nodes : Nodes} (h : nodes.Kept base)
    (edit : List Text × Edit) : (editAt base nodes edit).Kept base := by
  unfold Delta.editAt
  split
  · next node hnode =>
    obtain ⟨fields, hfields, hedit⟩ := Option.bind_eq_some_iff.mp hnode
    refine ⟨Assoc.nodup_set h.paths, fun entry hentry => ?_⟩
    rcases Assoc.mem_set hentry with rfl | hentry
    · refine ⟨fields, hfields, ObjectNode.Kept.edit ?_ hedit⟩
      cases hold : nodes.find edit.1 with
      | none => exact ObjectNode.clean_kept fields
      | some old =>
        obtain ⟨fields', hfields', hkept⟩ := h.nodes _ (Assoc.mem_of_lookup hold)
        rw [hfields] at hfields'
        cases hfields'
        exact hkept
    · exact h.nodes entry hentry
  · exact h

/-- Every draft keeps its nodes. -/
theorem drafted_kept (base : Value Nat) (edits : List (List Text × Edit)) :
    (drafted base edits).Kept base := by
  have hfold : ∀ nodes : Nodes, nodes.Kept base → (edits.foldl (editAt base) nodes).Kept base := by
    induction edits with
    | nil => exact fun _ h => h
    | cons edit edits ih => exact fun nodes h => ih _ (h.editAt edit)
  exact hfold [] ⟨List.nodup_nil, nofun⟩

/-! ## The operations of a node -/

/-- What the changes of a node make of the properties of its object. -/
def ObjectNode.result (node : ObjectNode) (field : Text → Option Data) : Text → Option Data :=
  fun name => if name ∈ node.deletes then none else written node.writes field name

def removed (keys : List Text) (field : Text → Option Data) : Text → Option Data :=
  fun name => if name ∈ keys then none else field name

section Emits

variable {path : List Text} {fields : List (Text × Value Nat)}

theorem emitDeletes_emits (hsafe : SafePath (keyPath path)) {keys : List Text}
    (hreserved : ∀ key ∈ keys, key ∉ reservedSegments) {field : Text → Option Data}
    (hnone : ∀ key ∈ keys, getField fields key = none → field key = none) (batch : Batch Nat) :
    Emits batch (emitDeletes fields path keys batch) (keyPath path) (.obj field)
      (.obj (removed keys field)) := by
  induction keys generalizing field batch with
  | nil =>
    have hsame : removed [] field = field := funext fun name => if_neg List.not_mem_nil
    rw [hsame]
    exact Emits.refl batch _ _
  | cons key keys ih =>
    rw [List.forall_mem_cons] at hreserved hnone
    have hrest : removed keys (Function.update field key none) = removed (key :: keys) field := by
      funext name
      unfold removed
      rw [Function.update_apply]
      by_cases hname : name = key
      · simp [hname]
      · simp [hname]
    have hemits : Emits batch (if (getField fields key).isSome then
        batch.emit (.d (keyPath path ++ [.key key])) else batch) (keyPath path) (.obj field)
        (.obj (Function.update field key none)) := by
      split
      · exact deleteField_emits hsafe hreserved.1 batch
      · next habsent =>
        rw [Bool.not_eq_true, Option.isSome_eq_false_iff, Option.isNone_iff_eq_none] at habsent
        rw [← hnone.1 habsent, Function.update_eq_self]
        exact Emits.refl batch _ _
    rw [← hrest]
    refine hemits.trans (ih hreserved.2 (fun other hother habsent => ?_) _)
    rw [Function.update_apply, hnone.2 other hother habsent, ite_self]

/-- **One value** is written over what was there, or over nothing. -/
theorem emitChangedValue_emits (hsafe : SafePath (keyPath path)) {key : Text}
    (hreserved : key ∉ reservedSegments) {field : Text → Option Data} {before : Option (Value Nat)}
    (hbefore : field key = before.map Value.data) (after : Value Nat) (batch : Batch Nat) :
    Emits batch (emitChangedValue (keyPath path ++ [.key key]) before after batch).1 (keyPath path)
      (.obj field) (.obj (Function.update field key (some after.data))) := by
  have hwrite : Emits batch (batch.emit (.s (keyPath path ++ [.key key]) after)) (keyPath path)
      (.obj field) (.obj (Function.update field key (some after.data))) := by
    have hnew := @newField_emits _ _ field hsafe _ hreserved after batch
    rwa [emitSet, if_neg (by simp)] at hnew
  -- a value that is the same data is not written
  have hsame : ∀ old : Value Nat, before = some old → old.data = after.data →
      Emits batch batch (keyPath path) (.obj field)
        (.obj (Function.update field key (some after.data))) := by
    intro old hold hdata
    rw [hold, Option.map_some, hdata] at hbefore
    rw [← hbefore, Function.update_eq_self]
    exact Emits.refl batch _ _
  unfold emitChangedValue
  split
  · exact hwrite
  next old =>
  split
  · next hequal => exact hsame old rfl (Value.data_of_same (.inr hequal.1) hequal.2)
  split
  · next hequal => exact hsame old rfl (equalTrustedJson_data old after hequal.2.2)
  split
  · next before after _ _ =>
    exact field_emits hbefore (emitString_emits (by simp) (safePath_concat_key hsafe hreserved) _ _ batch)
  · exact hwrite

theorem emitWrites_emits (hsafe : SafePath (keyPath path)) (node : ObjectNode)
    {entries : List (Text × Value Nat)} (hreserved : ∀ entry ∈ entries, entry.1 ∉ reservedSegments)
    (hkeys : (entries.map Prod.fst).Nodup) {field : Text → Option Data}
    (hfield : ∀ entry ∈ entries,
      field entry.1 = if entry.1 ∈ node.readded then none else dataFields fields entry.1)
    (happended : ∀ entry ∈ entries, ∀ text, node.appends entry.1 = some text →
      entry.1 ∉ node.readded ∧ ∃ old, dataFields fields entry.1 = some (.str old)
        ∧ entry.2.data = .str (old ++ text)) (batch : Batch Nat) :
    Emits batch (emitWrites node fields path entries batch).1 (keyPath path) (.obj field)
      (.obj (written entries field)) := by
  induction entries generalizing field batch with
  | nil => exact Emits.refl batch _ _
  | cons entry entries ih =>
    rw [List.forall_mem_cons] at hreserved hfield happended
    have hone : Emits batch (emitObjectWrite node fields path entry batch).1 (keyPath path)
        (.obj field) (.obj (Function.update field entry.1 (some entry.2.data))) := by
      unfold emitObjectWrite
      split
      · next text htext =>
        obtain ⟨hnot, old, hold, hdata⟩ := happended.1 text htext
        rw [hdata]
        apply field_emits (x := .str old)
        · rw [hfield.1, if_neg hnot, hold]
        · exact append_emits (by simp) (safePath_concat_key hsafe hreserved.1) batch old text
      · apply emitChangedValue_emits hsafe hreserved.1
        rw [hfield.1]
        split
        · rfl
        · exact dataFields_eq fields entry.1
    rw [← written_cons hkeys]
    refine hone.trans (ih hreserved.2 (List.nodup_cons.mp hkeys).2 (fun other hother => ?_)
      happended.2 _)
    have hne : other.1 ≠ entry.1 := by
      intro heq
      exact (List.nodup_cons.mp hkeys).1 (heq ▸ List.mem_map_of_mem hother)
    rw [Function.update_of_ne hne]
    exact hfield.2 other hother

/-- **The operations of a node** do to its object what the node says. -/
theorem emitObjectOperations_emits (hsafe : SafePath (keyPath path)) {node : ObjectNode}
    (hkept : node.Kept fields) (hreserved : node.hasReservedMutation = false) (batch : Batch Nat) :
    Emits batch (emitObjectOperations node fields path batch).1 (keyPath path)
      (.obj (dataFields fields)) (.obj (node.result (dataFields fields))) := by
  simp only [ObjectNode.hasReservedMutation, Bool.or_eq_false_iff, List.any_eq_false,
    decide_eq_true_eq] at hreserved
  have hwrites : ∀ key ∈ node.readded, key ∈ node.writes.map Prod.fst := by
    intro key hkey
    have hsome := hkept.readded key hkey
    rw [dataFields_eq, Option.isSome_map, Option.isSome_iff_ne_none] at hsome
    exact not_not.mp fun hnot => hsome (getField_none.mpr hnot)
  have hreadded : ∀ key ∈ node.readded, key ∉ reservedSegments := by
    intro key hkey
    obtain ⟨entry, hentry, rfl⟩ := List.mem_map.mp (hwrites key hkey)
    exact hreserved.1 entry hentry
  have hfirst := emitDeletes_emits hsafe hreadded
    (fun key _ habsent => (dataFields_eq fields key).trans (by rw [habsent]; rfl)) batch
  have hsecond := @emitWrites_emits _ _ hsafe node _ hreserved.1 hkept.keys
    (removed node.readded (dataFields fields)) (fun _ _ => rfl)
    (fun entry hentry text htext => by
      obtain ⟨hnot, old, hold, hwrite⟩ := hkept.appended _ text htext
      have hget := getField_of_mem hkept.keys hentry
      rw [dataFields_eq, hget] at hwrite
      exact ⟨hnot, old, hold, Option.some.inj hwrite⟩)
    (emitDeletes fields path node.readded batch)
  have hthird := @emitDeletes_emits _ _ hsafe _ hreserved.2
    (written node.writes (removed node.readded (dataFields fields)))
    (fun key hkey habsent => by
      rw [written, hkept.deleted key hkey, removed, dataFields_eq, habsent]
      simp)
    (emitWrites node fields path node.writes (emitDeletes fields path node.readded batch)).1
  have hresult : removed node.deletes (written node.writes (removed node.readded (dataFields fields)))
      = node.result (dataFields fields) := by
    funext name
    unfold ObjectNode.result removed written
    by_cases hname : name ∈ node.readded
    · obtain ⟨data, hdata⟩ := Option.isSome_iff_exists.mp (hkept.readded name hname)
      rw [hdata, Option.some_or, Option.some_or]
    · dsimp only
      rw [if_neg hname]
  rw [← hresult]
  exact (hfirst.trans hsecond).trans hthird

end Emits

/-! ## What nodes make of a value

`look` says which node there is at a path, relative to the value. -/

mutual

/-- The data of a value with the changes of its nodes. -/
def Value.applied (look : List Text → Option ObjectNode) : Value Nat → Data
  | .obj _ fields => .obj (((look []).getD .clean).result (appliedFields look fields))
  | .null => .null
  | .bool b => .bool b
  | .num n => .num n
  | .str text => .str text
  | .arr _ items => .arr (dataItems items)

@[grind =] def appliedFields (look : List Text → Option ObjectNode) :
    List (Text × Value Nat) → Text → Option Data
  | [], _ => none
  | (key, value) :: fields, name =>
    if name = key then some (value.applied fun path => look (key :: path))
    else appliedFields look fields name

end

/-- A node on the way touches the key that the path takes. -/
def Cut (look : List Text → Option ObjectNode) (path : List Text) : Prop :=
  ∃ front key rest node, path = front ++ key :: rest ∧ look front = some node
    ∧ node.touches key = true

theorem ObjectNode.clean_result (field : Text → Option Data) : ObjectNode.clean.result field = field :=
  funext fun _ => if_neg List.not_mem_nil

section Untouched

variable {node : ObjectNode} {key : Text}

theorem ObjectNode.not_touches (h : node.touches key = false) :
    key ∉ node.deletes ∧ dataFields node.writes key = none := by
  rw [ObjectNode.touches, Bool.or_eq_false_iff, decide_eq_false_iff_not,
    Option.isSome_eq_false_iff, Option.isNone_iff_eq_none] at h
  rw [dataFields_eq, h.2]
  exact ⟨h.1, rfl⟩

/-- A property that a node does not touch goes through it. -/
theorem ObjectNode.result_update (h : node.touches key = false) (field : Text → Option Data)
    (x : Option Data) :
    node.result (Function.update field key x) = Function.update (node.result field) key x := by
  obtain ⟨hdelete, hwrite⟩ := ObjectNode.not_touches h
  funext name
  unfold ObjectNode.result written
  by_cases hname : name = key
  · subst hname
    rw [if_neg hdelete, hwrite, Option.none_or, Function.update_self, Function.update_self]
  · rw [Function.update_of_ne hname, Function.update_of_ne hname]

theorem ObjectNode.result_touched (h : node.touches key = true) (field : Text → Option Data)
    (x : Option Data) : node.result (Function.update field key x) = node.result field := by
  funext name
  unfold ObjectNode.result written
  by_cases hname : name = key
  · subst hname
    by_cases hdelete : name ∈ node.deletes
    · rw [if_pos hdelete, if_pos hdelete]
    · rw [ObjectNode.touches, decide_eq_false hdelete, Bool.false_or] at h
      obtain ⟨value, hvalue⟩ := Option.isSome_iff_exists.mp h
      rw [dataFields_eq, hvalue]
      rfl
  · rw [Function.update_of_ne hname]

end Untouched

theorem appliedFields_eq (look : List Text → Option ObjectNode) (fields : List (Text × Value Nat))
    (name : Text) :
    appliedFields look fields name
      = (getField fields name).map (·.applied fun path => look (name :: path)) := by
  induction fields with
  | nil => rfl
  | cons field fields ih =>
    rw [appliedFields, getField, ih]
    split
    · next hname => rw [hname, Option.map_some]
    · rfl

mutual

/-- No nodes, no changes. -/
theorem applied_none (look : List Text → Option ObjectNode) (h : ∀ path, look path = none)
    (value : Value Nat) : value.applied look = value.data := by
  match value with
  | .obj tag fields =>
    rw [Value.applied, h, Option.getD_none, ObjectNode.clean_result, Value.data,
      appliedFields_none look h fields]
  | .null => rfl
  | .bool b => rfl
  | .num n => rfl
  | .str text => rfl
  | .arr tag items => rfl

theorem appliedFields_none (look : List Text → Option ObjectNode) (h : ∀ path, look path = none)
    (fields : List (Text × Value Nat)) : appliedFields look fields = dataFields fields := by
  match fields with
  | [] => rfl
  | (key, value) :: fields =>
    funext name
    rw [appliedFields, dataFields, applied_none _ (fun path => h (key :: path)) value,
      appliedFields_none look h fields]

end

mutual

/-- **Nodes that are cut off** change nothing. -/
theorem applied_congr (look look' : List Text → Option ObjectNode)
    (h : ∀ path, ¬ Cut look path → look path = look' path) (value : Value Nat) :
    value.applied look = value.applied look' := by
  match value with
  | .obj tag fields =>
    have htop : look [] = look' [] := h [] (by rintro ⟨front, key, rest, node, heq, -⟩; simp at heq)
    rw [Value.applied, Value.applied, ← htop,
      appliedFields_congr look look' ((look []).getD .clean) (fun key hkey path hcut => ?_) fields]
    apply h
    rintro ⟨front, key', rest, node, heq, hlook, htouches⟩
    cases front with
    | nil =>
      rw [hlook, Option.getD_some] at hkey
      obtain ⟨rfl, -⟩ := List.cons.inj heq
      rw [hkey] at htouches
      cases htouches
    | cons first front =>
      obtain ⟨rfl, rfl⟩ := List.cons.inj heq
      exact hcut ⟨front, key', rest, node, rfl, hlook, htouches⟩
  | .null => rfl
  | .bool b => rfl
  | .num n => rfl
  | .str text => rfl
  | .arr tag items => rfl

theorem appliedFields_congr (look look' : List Text → Option ObjectNode) (top : ObjectNode)
    (h : ∀ key, top.touches key = false → ∀ path, ¬ Cut (fun path => look (key :: path)) path →
      look (key :: path) = look' (key :: path)) (fields : List (Text × Value Nat)) :
    top.result (appliedFields look fields) = top.result (appliedFields look' fields) := by
  match fields with
  | [] => rfl
  | (key, value) :: fields =>
    have hrest := appliedFields_congr look look' top h fields
    have hcons : ∀ look, appliedFields look ((key, value) :: fields)
        = Function.update (appliedFields look fields) key
          (some (value.applied fun path => look (key :: path))) := by
      intro look
      funext name
      rw [appliedFields, Function.update_apply]
    rw [hcons, hcons]
    cases htop : top.touches key with
    | true => rw [ObjectNode.result_touched htop, ObjectNode.result_touched htop, hrest]
    | false =>
      rw [ObjectNode.result_update htop, ObjectNode.result_update htop, hrest,
        applied_congr _ _ (h key htop) value]

end

variable {base : Value Nat}

/-- **One more node** changes its object, where no node is at or below its path and none on the way
touches what the path takes, and nothing around it. -/
theorem applied_update {path : List Text} {fields : List (Text × Value Nat)}
    {look : List Text → Option ObjectNode} (hfields : fieldsAt path base = some fields)
    (hbelow : ∀ rest, look (path ++ rest) = none) (hcut : ¬ Cut look path) (node : ObjectNode) :
    ∃ around, Hole (keyPath path) around
      ∧ base.applied look = around (.obj (dataFields fields))
      ∧ base.applied (Function.update look path (some node))
        = around (.obj (node.result (dataFields fields))) := by
  induction path generalizing base look with
  | nil =>
    cases base with
    | obj tag others =>
      cases hfields
      refine ⟨id, Hole.nil, applied_none look hbelow _, ?_⟩
      have hfields : appliedFields (Function.update look [] (some node)) fields
          = dataFields fields := by
        funext name
        rw [appliedFields_eq, dataFields_eq]
        congr 1
        funext value
        apply applied_none
        intro path
        rw [Function.update_of_ne (List.cons_ne_nil _ _)]
        exact hbelow (name :: path)
      rw [Value.applied, Function.update_self, Option.getD_some, hfields, id]
    | _ => cases hfields
  | cons key path ih =>
    cases base with
    | obj tag others =>
      obtain ⟨child, hchild, hfields⟩ := Option.bind_eq_some_iff.mp hfields
      have htop : ((look []).getD .clean).touches key = false := by
        rw [← Bool.not_eq_true]
        intro htouches
        cases hlook : look [] with
        | none =>
          rw [hlook] at htouches
          cases htouches
        | some top =>
          rw [hlook] at htouches
          exact hcut ⟨[], key, path, top, rfl, hlook, htouches⟩
      obtain ⟨inner, hole, hbefore, hafter⟩ := @ih child (fun rest => look (key :: rest)) hfields
        (fun rest => hbelow rest) (by
          rintro ⟨front, key', rest, top, heq, hlook, htouches⟩
          exact hcut ⟨key :: front, key', rest, top, by rw [heq]; rfl, hlook, htouches⟩)
      refine ⟨_, (hole_key (((look []).getD .clean).result (appliedFields look others)) key).comp hole,
        ?_, ?_⟩
      · rw [Function.comp_apply, ← hbefore, ← ObjectNode.result_update htop, Value.applied]
        congr 2
        rw [eq_comm, Function.update_eq_self_iff, appliedFields_eq, hchild, Option.map_some]
      · have hshift : (fun rest => Function.update look (key :: path) (some node) (key :: rest))
            = Function.update (fun rest => look (key :: rest)) path (some node) := by
          funext rest
          rw [Function.update_apply, Function.update_apply]
          simp
        have hfield : appliedFields (Function.update look (key :: path) (some node)) others
            = Function.update (appliedFields look others) key
              (some (inner (.obj (node.result (dataFields fields))))) := by
          funext name
          rw [Function.update_apply, appliedFields_eq]
          split
          · next hname => rw [hname, hchild, Option.map_some, hshift, hafter]
          · next hname =>
            rw [appliedFields_eq]
            congr 1
            funext value
            congr 1
            funext rest
            exact Function.update_of_ne (fun heq => hname (List.cons.inj heq).1) _ _
        rw [Value.applied, Function.update_of_ne (List.cons_ne_nil _ _).symm, hfield,
          ObjectNode.result_update htop]
        rfl
    | _ => cases hfields

/-! ## The clone -/

theorem Nodes.find_cons (nodes : Nodes) (place path : List Text) (node : ObjectNode) :
    Nodes.find ((place, node) :: nodes) path = if path = place then some node else nodes.find path := by
  show (match decide (path = place) with | true => some node | false => nodes.find path) = _
  by_cases heq : path = place
  · rw [if_pos heq, decide_eq_true heq]
  · rw [if_neg heq, decide_eq_false heq]

theorem find_below (nodes : Nodes) (key : Text) (path : List Text) :
    (nodes.below key).find path = nodes.find (key :: path) := by
  induction nodes with
  | nil => rfl
  | cons entry nodes ih =>
    obtain ⟨place, node⟩ := entry
    rw [Nodes.find_cons, ← ih]
    cases place with
    | nil => exact (if_neg (List.cons_ne_nil _ _)).symm
    | cons first rest =>
      by_cases hfirst : first = key
      · have hbelow : Nodes.below key ((first :: rest, node) :: nodes)
            = (rest, node) :: Nodes.below key nodes := by simp [Nodes.below, hfirst]
        rw [hbelow, Nodes.find_cons, hfirst]
        simp
      · have hbelow : Nodes.below key ((first :: rest, node) :: nodes) = Nodes.below key nodes := by
          simp [Nodes.below, hfirst]
        rw [hbelow, if_neg]
        exact fun heq => hfirst (List.cons.inj heq).1.symm

/-- The properties of a clone are those of its object with the changes of the node. -/
theorem ObjectNode.Kept.properties {node : ObjectNode} {fields : List (Text × Value Nat)}
    (h : node.Kept fields) (children : List (Text × Value Nat)) :
    dataFields (node.properties children) = node.result (dataFields children) := by
  have hwritten : ∀ (entries others : List (Text × Value Nat)), (entries.map Prod.fst).Nodup →
      dataFields (entries.foldl (fun fields entry => setField fields entry.1 entry.2) others)
        = written entries (dataFields others) := by
    intro entries
    induction entries with
    | nil => exact fun _ _ => rfl
    | cons entry entries ih =>
      intro others hkeys
      rw [List.foldl_cons, ih _ (List.nodup_cons.mp hkeys).2, dataFields_setField, written_cons hkeys]
  have hkeep : ∀ name, dataFields (children.filter fun field =>
      field.1 ∉ node.deletes ∧ field.1 ∉ node.readded) name
        = if name ∉ node.deletes ∧ name ∉ node.readded then dataFields children name else none := by
    intro name
    induction children with
    | nil => exact (ite_self _).symm
    | cons field children ih =>
      rw [List.filter_cons, dataFields]
      by_cases hname : name = field.1
      · subst hname
        split
        · next hgood => rw [dataFields, if_pos rfl, if_pos (of_decide_eq_true hgood), if_pos rfl]
        · next hbad => rw [ih, if_neg fun hgood => hbad (decide_eq_true hgood),
            if_neg fun hgood => hbad (decide_eq_true hgood)]
      · rw [if_neg hname, ← ih]
        split
        · rw [dataFields, if_neg hname]
        · rfl
  funext name
  rw [ObjectNode.properties, hwritten _ _ h.keys, ObjectNode.result, written, written, hkeep]
  by_cases hdelete : name ∈ node.deletes
  · rw [h.deleted name hdelete, if_pos hdelete, if_neg fun hgood => hgood.1 hdelete]
    rfl
  by_cases hreadded : name ∈ node.readded
  · obtain ⟨data, hdata⟩ := Option.isSome_iff_exists.mp (h.readded name hreadded)
    rw [hdata, if_neg hdelete, Option.some_or, Option.some_or]
  · rw [if_neg hdelete, if_pos ⟨hdelete, hreadded⟩]

theorem ObjectNode.clean_properties (fields : List (Text × Value Nat)) :
    dataFields (ObjectNode.clean.properties fields) = dataFields fields := by
  rw [(ObjectNode.clean_kept []).properties, ObjectNode.clean_result]

/-- The nodes are consistent, whatever they are over. -/
def Nodes.Consistent (nodes : Nodes) : Prop := ∀ entry ∈ nodes, ∃ fields, entry.2.Kept fields

variable {nodes : Nodes}

theorem Nodes.Consistent.below (h : nodes.Consistent) (key : Text) :
    (nodes.below key).Consistent := by
  intro entry hentry
  obtain ⟨⟨place, node⟩, hmem, heq⟩ := List.mem_filterMap.mp hentry
  cases place with
  | nil => cases heq
  | cons first rest =>
    dsimp only at heq
    split at heq
    · cases heq
      exact h (first :: _, node) hmem
    · cases heq

mutual

/-- **A clone** is the base with the changes of the nodes. -/
theorem cloneNode_data (fresh : Nat) (nodes : Nodes) (h : nodes.Consistent) (value : Value Nat) :
    (cloneNode fresh nodes value).data = value.applied nodes.find := by
  match value with
  | .obj tag fields =>
    rw [cloneNode, Value.data, Value.applied, ← cloneFields_data fresh nodes h fields]
    cases hlookup : nodes.find [] with
    | none =>
      rw [Option.getD_none, ObjectNode.clean_properties, ObjectNode.clean_result]
    | some node =>
      obtain ⟨others, hkept⟩ := h _ (Assoc.mem_of_lookup hlookup)
      rw [Option.getD_some, hkept.properties]
  | .null => rfl
  | .bool b => rfl
  | .num n => rfl
  | .str text => rfl
  | .arr tag items => rfl

theorem cloneFields_data (fresh : Nat) (nodes : Nodes) (h : nodes.Consistent)
    (fields : List (Text × Value Nat)) :
    dataFields (cloneFields fresh nodes fields) = appliedFields nodes.find fields := by
  match fields with
  | [] => rfl
  | (key, value) :: fields =>
    have hlook : (fun path => nodes.find (key :: path)) = (nodes.below key).find :=
      funext fun path => (find_below nodes key path).symm
    funext name
    rw [cloneFields, dataFields, appliedFields, cloneFields_data fresh nodes h fields, hlook]
    congr 2
    split
    · next hempty =>
      rw [List.isEmpty_iff] at hempty
      rw [hempty]
      exact (applied_none _ (fun _ => rfl) value).symm
    · exact cloneNode_data fresh (nodes.below key) (h.below key) value

end

/-! ## The operations of a draft -/

/-- The second node is not above the first, and the first does not cut it off. -/
def Before (first second : List Text × ObjectNode) : Prop :=
  ¬ second.1 <+: first.1 ∧ ∀ key rest, second.1 = first.1 ++ key :: rest → first.2.touches key = false

/-- **Node by node**, from the root down: the operations add each node to those before. -/
theorem emitNodes_emits (hbefore : nodes.Pairwise Before)
    (hnodes : ∀ entry ∈ nodes, ∃ fields, fieldsAt entry.1 base = some fields ∧ entry.2.Kept fields)
    (hsafe : ∀ entry ∈ nodes, SafePath (keyPath entry.1))
    (hreserved : ∀ entry ∈ nodes, entry.2.hasReservedMutation = false)
    {look : List Text → Option ObjectNode}
    (hbelow : ∀ entry ∈ nodes, ∀ rest, look (entry.1 ++ rest) = none)
    (hcut : ∀ entry ∈ nodes, ¬ Cut look entry.1) (batch : Batch Nat) :
    Emits batch (emitNodes base nodes batch).1 [] (base.applied look)
      (base.applied fun path => (nodes.find path).or (look path)) := by
  induction nodes generalizing look batch with
  | nil => exact Emits.refl batch [] _
  | cons entry nodes ih =>
    obtain ⟨path, node⟩ := entry
    obtain ⟨hfirst, hbefore⟩ := List.pairwise_cons.mp hbefore
    rw [List.forall_mem_cons] at hnodes hsafe hreserved hbelow hcut
    obtain ⟨fields, hfields, hkept⟩ := hnodes.1
    obtain ⟨around, hole, hold, hnew⟩ := applied_update hfields hbelow.1 hcut.1 node
    have hemits := emitObjectOperations_emits hsafe.1 hkept hreserved.1 batch
    have hhead : Emits batch (emitObjectOperations node ((fieldsAt path base).getD []) path batch).1 []
        (base.applied look) (base.applied (Function.update look path (some node))) := by
      rw [hfields, Option.getD_some, hold, hnew]
      exact @Emits.inside _ _ _ [] _ _ _ _ hemits hole
    have hunder : ∀ entry ∈ nodes, ∀ rest,
        Function.update look path (some node) (entry.1 ++ rest) = none := by
      intro entry hentry rest
      rw [Function.update_of_ne]
      · exact hbelow.2 entry hentry rest
      · exact fun heq => (hfirst entry hentry).1 ⟨rest, heq⟩
    have huncut : ∀ entry ∈ nodes, ¬ Cut (Function.update look path (some node)) entry.1 := by
      rintro entry hentry ⟨front, key, rest, other, heq, hlook, htouches⟩
      by_cases hfront : front = path
      · subst hfront
        rw [Function.update_self] at hlook
        cases hlook
        rw [(hfirst entry hentry).2 key rest heq] at htouches
        cases htouches
      · rw [Function.update_of_ne hfront] at hlook
        exact hcut.2 entry hentry ⟨front, key, rest, other, heq, hlook, htouches⟩
    have hrest := ih hbefore hnodes.2 hsafe.2 hreserved.2 hunder huncut
      (emitObjectOperations node ((fieldsAt path base).getD []) path batch).1
    have hlook : (fun place => (Nodes.find nodes place).or (Function.update look path (some node) place))
        = fun place => (Nodes.find ((path, node) :: nodes) place).or (look place) := by
      funext place
      rw [Nodes.find_cons, Function.update_apply]
      by_cases hplace : place = path
      · subst hplace
        have hnone : Nodes.find nodes place = none := by
          rw [Option.eq_none_iff_forall_ne_some]
          exact fun other hother => (hfirst _ (Assoc.mem_of_lookup hother)).1 List.prefix_rfl
        simp [hnone]
      · simp [hplace]
    rw [hlook] at hrest
    exact hhead.trans hrest

/-- What `cut` asks of the nodes is what it means. -/
theorem cut_iff (h : nodes.Kept base) (path : List Text) :
    nodes.cut path = true ↔ Cut nodes.find path := by
  simp only [Nodes.cut, List.any_eq_true, Bool.and_eq_true, List.isPrefixOf_iff_prefix,
    Option.any_eq_true]
  constructor
  · rintro ⟨⟨front, node⟩, hmem, ⟨tail, rfl⟩, key, hkey, htouches⟩
    rw [List.getElem?_append_right (Nat.le_refl _), Nat.sub_self] at hkey
    obtain ⟨rest, rfl⟩ : ∃ rest, tail = key :: rest := by
      cases tail with
      | nil => cases hkey
      | cons first rest =>
        cases hkey
        exact ⟨rest, rfl⟩
    exact ⟨front, key, rest, node, rfl, Assoc.lookup_of_mem h.paths hmem, htouches⟩
  · rintro ⟨front, key, rest, node, rfl, hlook, htouches⟩
    refine ⟨(front, node), Assoc.mem_of_lookup hlook, ⟨key :: rest, rfl⟩, key, ?_, htouches⟩
    rw [List.getElem?_append_right (Nat.le_refl _), Nat.sub_self, List.getElem?_cons_zero]

/-- The nodes whose paths resolve, from the root down, each before those it leads to. -/
theorem resolved_before (h : nodes.Kept base) :
    ((nodes.filter fun entry => !nodes.cut entry.1).insertionSort
      fun entry other => entry.1.length ≤ other.1.length).Pairwise Before := by
  have hsorted := List.pairwise_insertionSort
    (fun entry other : List Text × ObjectNode => entry.1.length ≤ other.1.length)
    (nodes.filter fun entry => !nodes.cut entry.1)
  have hnodup : ((nodes.filter fun entry => !nodes.cut entry.1).insertionSort
      fun entry other => entry.1.length ≤ other.1.length).Pairwise fun a b => a.1 ≠ b.1 := by
    rw [← List.pairwise_map]
    exact ((List.perm_insertionSort _ _).map _).nodup_iff.mpr
      (h.paths.sublist (List.filter_sublist.map _))
  refine (hsorted.and hnodup).imp_of_mem ?_
  rintro first second hfirst hsecond ⟨hle, hne⟩
  rw [List.mem_insertionSort, List.mem_filter] at hfirst hsecond
  refine ⟨fun hbegins => hne (hbegins.eq_of_length_le hle).symm, fun key rest heq => ?_⟩
  rw [← Bool.not_eq_true]
  intro htouches
  have hcut : nodes.cut second.1 = true :=
    (cut_iff h _).mpr ⟨first.1, key, rest, first.2, heq, Assoc.lookup_of_mem h.paths hfirst.1, htouches⟩
  rw [hcut] at hsecond
  exact absurd hsecond.2 Bool.false_ne_true

/-- **The operations of a draft** that changes objects only take its base to its clone. -/
theorem emitSimpleObjectOperations_replays (h : nodes.Kept base) {ops : List (Op (Value Nat))}
    {direct : Bool} (hemit : emitSimpleObjectOperations base nodes = some (ops, direct)) :
    base.data.replay (ops.map Op.data) = some (cloneRoot base nodes).data := by
  unfold emitSimpleObjectOperations at hemit
  dsimp only at hemit
  split at hemit
  · cases hemit
  next hsimple =>
  simp only [Bool.or_eq_true, not_or, Bool.not_eq_true, List.any_eq_true, decide_eq_true_eq,
    not_exists, not_and] at hsimple
  obtain ⟨⟨hreserved, hsegments⟩, -⟩ := hsimple
  generalize hresolved : (nodes.filter fun entry => !nodes.cut entry.1).insertionSort
    (fun entry other => entry.1.length ≤ other.1.length) = resolved at hemit
  have hmem : ∀ entry, entry ∈ resolved ↔ entry ∈ nodes ∧ nodes.cut entry.1 = false := by
    intro entry
    rw [← hresolved, List.mem_insertionSort, List.mem_filter, Bool.not_eq_true']
  have hbefore := resolved_before h
  rw [hresolved] at hbefore
  have hemits := @emitNodes_emits _ _ hbefore
    (fun entry hentry => h.nodes entry ((hmem entry).mp hentry).1)
    (fun entry hentry name hname => by
      obtain ⟨key, hkey, heq⟩ := List.mem_map.mp hname
      cases heq
      have hin := (hmem entry).mp hentry
      exact hsegments entry (List.mem_filter.mpr ⟨hin.1, by rw [hin.2]; rfl⟩) name hkey)
    (fun entry hentry => hreserved entry ((hmem entry).mp hentry).1)
    (fun _ => none) (fun _ _ _ => rfl)
    (fun entry _ hcut => by obtain ⟨_, _, _, _, _, hnone, _⟩ := hcut; cases hnone) ⟨[], false⟩
  -- the nodes that are left out are those that are cut off
  have hlook : base.applied (fun path => (Nodes.find resolved path).or none)
      = base.applied nodes.find := by
    symm
    apply applied_congr
    intro path hcut
    rw [Option.or_none]
    have hnodup : (resolved.map Prod.fst).Nodup := by
      rw [← hresolved]
      exact ((List.perm_insertionSort _ _).map _).nodup_iff.mpr
        (h.paths.sublist (List.filter_sublist.map _))
    ext node
    constructor
    · intro hnode
      have hin := Assoc.mem_of_lookup hnode
      refine Assoc.lookup_of_mem hnodup ((hmem _).mpr ⟨hin, ?_⟩)
      rw [← Bool.not_eq_true]
      exact fun hyes => hcut ((cut_iff h path).mp hyes)
    · intro hnode
      exact Assoc.lookup_of_mem h.paths ((hmem _).mp (Assoc.mem_of_lookup hnode)).1
  have hclone : (cloneRoot base nodes).data = base.applied nodes.find :=
    cloneNode_data _ nodes (fun entry hentry => by
      obtain ⟨fields, -, hkept⟩ := h.nodes entry hentry
      exact ⟨fields, hkept⟩) base
  rw [applied_none _ (fun _ => rfl), hlook, ← hclone] at hemits
  split at hemit
  · cases hemit
    exact (replace_exact _ _).replay
  · next hoverflowed =>
    cases hemit
    rcases hemits with hoverflow | ⟨new, -, heq, -, hturns⟩
    · exact absurd hoverflow hoverflowed
    · rw [heq, List.nil_append]
      exact hturns.exact.replay

end ThreeXhaust.Delta
