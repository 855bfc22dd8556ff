import ThreeXhaust.Lib.Table
import ThreeXhaust.Lib.Json.Script
import Mathlib.Data.List.Sort
import Mathlib.Data.List.Lex

/-!
# Objects up to the order of their keys

Two values are the same data when they differ only in the order in which objects list their
fields. Sorting the keys of every object, in UTF-16 order as `Array.prototype.sort` does, picks
one value of each kind.

* **`Value.sortKeys_sortKeys`** — sorting twice is sorting once, so a value is the same data as
  its sorted form.
* **`Value.get_sortKeys`** — a field of the sorted value is the sorted field.
-/

namespace Json

/-- The order of keys, on fields. -/
abbrev keyLE {α : Type} (f g : String × α) : Prop := utf16 f.1 ≤ utf16 g.1

def sortByKey {α : Type} (fields : List (String × α)) : List (String × α) :=
  fields.insertionSort keyLE

theorem sortByKey_perm {α : Type} (fields : List (String × α)) :
    (sortByKey fields).Perm fields :=
  List.perm_insertionSort keyLE fields

instance {α : Type} : Std.Total (keyLE (α := α)) := ⟨fun f g => le_total (utf16 f.1) (utf16 g.1)⟩

instance {α : Type} : IsTrans (String × α) keyLE := ⟨fun _ _ _ h1 h2 => le_trans h1 h2⟩

theorem sortByKey_sortByKey {α : Type} (fields : List (String × α)) :
    sortByKey (sortByKey fields) = sortByKey fields :=
  (List.pairwise_insertionSort keyLE fields).insertionSort_eq

theorem map_sortByKey {α β : Type} (f : String × α → String × β) (hf : ∀ x, (f x).1 = x.1)
    (fields : List (String × α)) : (sortByKey fields).map f = sortByKey (fields.map f) := by
  apply List.map_insertionSort
  intro a _ b _
  show utf16 a.1 ≤ utf16 b.1 ↔ utf16 (f a).1 ≤ utf16 (f b).1
  rw [hf, hf]

mutual

def Value.sortKeys : Value → Value
  | .undefined => .undefined
  | .null => .null
  | .bool b => .bool b
  | .num n => .num n
  | .str s => .str s
  | .arr items => .arr (Value.sortItems items)
  | .obj fields => .obj (sortByKey (Value.sortFields fields))

@[grind =] def Value.sortItems : List Value → List Value
  | [] => []
  | v :: rest => v.sortKeys :: Value.sortItems rest

@[grind =] def Value.sortFields : List (String × Value) → List (String × Value)
  | [] => []
  | (k, v) :: rest => (k, v.sortKeys) :: Value.sortFields rest

end

theorem Value.sortItems_eq (items : List Value) :
    Value.sortItems items = items.map Value.sortKeys := by
  induction items with
  | nil => rfl
  | cons v rest ih => rw [Value.sortItems, ih, List.map_cons]

theorem Value.sortFields_eq (fields : List (String × Value)) :
    Value.sortFields fields = fields.map fun f => (f.1, f.2.sortKeys) := by
  induction fields with
  | nil => rfl
  | cons f rest ih => rw [Value.sortFields, ih, List.map_cons]

mutual

theorem Value.sortKeys_sortKeys (v : Value) : v.sortKeys.sortKeys = v.sortKeys := by
  match v with
  | .undefined => rfl
  | .null => rfl
  | .bool b => rfl
  | .num n => rfl
  | .str s => rfl
  | .arr items => rw [Value.sortKeys, Value.sortKeys, Value.sortItems_sortItems items]
  | .obj fields =>
    have hmap := map_sortByKey (fun f => (f.1, f.2.sortKeys)) (fun _ => rfl)
      (Value.sortFields fields)
    rw [Value.sortKeys, Value.sortKeys, Value.sortFields_eq (sortByKey _), hmap,
      ← Value.sortFields_eq, Value.sortFields_sortFields fields, sortByKey_sortByKey]

theorem Value.sortItems_sortItems (items : List Value) :
    Value.sortItems (Value.sortItems items) = Value.sortItems items := by
  match items with
  | [] => rfl
  | v :: rest =>
    rw [Value.sortItems, Value.sortItems, Value.sortKeys_sortKeys v,
      Value.sortItems_sortItems rest]

theorem Value.sortFields_sortFields (fields : List (String × Value)) :
    Value.sortFields (Value.sortFields fields) = Value.sortFields fields := by
  match fields with
  | [] => rfl
  | (k, v) :: rest =>
    rw [Value.sortFields, Value.sortFields, Value.sortKeys_sortKeys v,
      Value.sortFields_sortFields rest]

end

def Value.SameData (a b : Value) : Prop := a.sortKeys = b.sortKeys

/-! ## Sorted JSON is JSON -/

mutual

theorem Value.isJson_sortKeys (v : Value) (h : v.IsJson) : v.sortKeys.IsJson := by
  match v with
  | .null => trivial
  | .bool b => trivial
  | .num n => exact h
  | .str s => trivial
  | .arr items =>
    rw [Value.sortKeys, Value.isJson_arr]
    exact Value.isJson_sortItems items (Value.isJson_arr.mp h)
  | .obj fields =>
    obtain ⟨hnodup, hfields⟩ := Value.isJson_obj.mp h
    have hperm := sortByKey_perm (Value.sortFields fields)
    rw [Value.sortKeys, Value.isJson_obj]
    constructor
    · rw [(hperm.map Prod.fst).nodup_iff, Value.sortFields_eq, List.map_map]
      exact hnodup
    · intro f hf
      exact Value.isJson_sortFields fields hfields f (hperm.mem_iff.mp hf)

theorem Value.isJson_sortItems (items : List Value) (h : ∀ v ∈ items, v.IsJson) :
    ∀ v ∈ Value.sortItems items, v.IsJson := by
  match items with
  | [] => simp [Value.sortItems]
  | v :: rest =>
    intro w hw
    rcases List.mem_cons.mp hw with rfl | hw
    · exact Value.isJson_sortKeys v (h v (by simp))
    · exact Value.isJson_sortItems rest (fun u hu => h u (by simp [hu])) w hw

theorem Value.isJson_sortFields (fields : List (String × Value)) (h : ∀ f ∈ fields, f.2.IsJson) :
    ∀ f ∈ Value.sortFields fields, f.2.IsJson := by
  match fields with
  | [] => simp [Value.sortFields]
  | (k, v) :: rest =>
    intro w hw
    rcases List.mem_cons.mp hw with rfl | hw
    · exact Value.isJson_sortKeys v (h (k, v) (by simp))
    · exact Value.isJson_sortFields rest (fun u hu => h u (by simp [hu])) w hw

end

/-! ## Fields of sorted objects -/

theorem find?_sortByKey {α : Type} {fields : List (String × α)}
    (hn : (fields.map Prod.fst).Nodup) (key : String) :
    (sortByKey fields).find? (·.1 = key) = fields.find? (·.1 = key) := by
  have hperm := sortByKey_perm fields
  have hn' : ((sortByKey fields).map Prod.fst).Nodup := (hperm.map Prod.fst).nodup_iff.mpr hn
  cases hf : fields.find? (·.1 = key) with
  | none =>
    rw [List.find?_eq_none] at hf ⊢
    intro f hmem
    exact hf f (hperm.mem_iff.mp hmem)
  | some f =>
    have hmem : f ∈ sortByKey fields := hperm.mem_iff.mpr (List.mem_of_find?_eq_some hf)
    have hkey : f.1 = key := by simpa using List.find?_some hf
    rw [← hkey]
    exact Table.find?_key hn' hmem

theorem Value.get_obj (fields : List (String × Value)) (key : String) :
    (Value.obj fields).get key = ((fields.find? (·.1 = key)).map Prod.snd).getD .undefined := by
  simp only [Value.get, beq_eq_decide]

theorem Value.get_of_mem {fields : List (String × Value)} (hn : (fields.map Prod.fst).Nodup)
    {key : String} {v : Value} (h : (key, v) ∈ fields) : (Value.obj fields).get key = v := by
  have hfind := Table.find?_key hn h
  rw [Value.get_obj, hfind]
  rfl

theorem Value.get_sortKeys {fields : List (String × Value)} (hn : (fields.map Prod.fst).Nodup)
    (key : String) : (Value.obj fields).sortKeys.get key = ((Value.obj fields).get key).sortKeys := by
  have hn' : ((Value.sortFields fields).map Prod.fst).Nodup := by
    rw [Value.sortFields_eq, List.map_map]
    exact hn
  rw [Value.sortKeys, Value.get_obj, Value.get_obj, find?_sortByKey hn', Value.sortFields_eq,
    List.find?_map]
  cases hf : fields.find? (·.1 = key) with
  | none =>
    have : fields.find? ((fun f : String × Value => decide (f.1 = key)) ∘
        fun f => (f.1, f.2.sortKeys)) = none := hf
    rw [this]
    rfl
  | some f =>
    have : fields.find? ((fun f : String × Value => decide (f.1 = key)) ∘
        fun f => (f.1, f.2.sortKeys)) = some f := hf
    rw [this]
    rfl

theorem Value.sortKeys_obj (fields : List (String × Value)) :
    (Value.obj fields).sortKeys = .obj (sortByKey (Value.sortFields fields)) := by
  rw [Value.sortKeys]

theorem Value.mem_keys_sortKeys (v : Value) (key : String) :
    key ∈ v.sortKeys.keys ↔ key ∈ v.keys := by
  cases v with
  | obj fields =>
    have hperm := (sortByKey_perm (Value.sortFields fields)).map Prod.fst
    rw [Value.sortKeys_obj, Value.keys, Value.keys, hperm.mem_iff, Value.sortFields_eq,
      List.map_map]
    rfl
  | undefined => rfl
  | null => rfl
  | bool b => rfl
  | num n => rfl
  | str s => rfl
  | arr items =>
    rw [Value.sortKeys]
    rfl

/-! ## Assigning a field -/

theorem setField_of_mem {fields : List (String × Value)} {key : String} (v : Value)
    (h : key ∈ fields.map Prod.fst) :
    setField fields key v = fields.map fun f => if f.1 = key then (key, v) else f := by
  have hany : fields.any (·.1 == key) = true := by
    obtain ⟨f, hf, hkey⟩ := List.mem_map.mp h
    exact List.any_eq_true.mpr ⟨f, hf, by simp [hkey]⟩
  rw [setField, if_pos hany]
  simp only [beq_iff_eq]

theorem Value.get_setField (fields : List (String × Value)) (key : String) (v : Value)
    (other : String) :
    (Value.obj (setField fields key v)).get other
      = if other = key then v else (Value.obj fields).get other := by
  rw [Value.get_obj, Value.get_obj]
  by_cases hmem : key ∈ fields.map Prod.fst
  · rw [setField_of_mem v hmem, List.find?_map]
    by_cases hkey : other = key
    · subst hkey
      have hsame : ((fun f : String × Value => decide (f.1 = other)) ∘ fun f =>
          if f.1 = other then (other, v) else f) = fun f => decide (f.1 = other) := by
        funext f
        by_cases hf : f.1 = other <;> simp [hf]
      obtain ⟨f, hf, hfkey⟩ := List.mem_map.mp hmem
      obtain ⟨g, hg⟩ := Option.isSome_iff_exists.mp
        (List.find?_isSome.mpr ⟨f, hf, by simpa using hfkey⟩ :
          (fields.find? fun f => decide (f.1 = other)).isSome)
      have hgkey : g.1 = other := by simpa using List.find?_some hg
      rw [hsame, hg]
      simp [hgkey]
    · have hsame : ((fun f : String × Value => decide (f.1 = other)) ∘ fun f =>
          if f.1 = key then (key, v) else f) = fun f => decide (f.1 = other) := by
        funext f
        by_cases hf : f.1 = key
        · simp [hf, Ne.symm hkey]
        · simp [hf]
      rw [hsame, if_neg hkey]
      cases hfind : fields.find? fun f => decide (f.1 = other) with
      | none => rfl
      | some g =>
        have hgkey : g.1 = other := by simpa using List.find?_some hfind
        simp [hgkey, hkey]
  · have hany : fields.any (·.1 == key) = false := by
      rw [List.any_eq_false]
      intro f hf hkey
      exact hmem (List.mem_map.mpr ⟨f, hf, by simpa using hkey⟩)
    rw [setField, hany, if_neg (by simp), List.find?_append]
    by_cases hkey : other = key
    · subst hkey
      have hnone : fields.find? (fun f => decide (f.1 = other)) = none := by
        rw [List.find?_eq_none]
        intro f hf hfkey
        exact hmem (List.mem_map.mpr ⟨f, hf, by simpa using hfkey⟩)
      simp [hnone]
    · have hlast : [(key, v)].find? (fun f => decide (f.1 = other)) = none := by
        simp [Ne.symm hkey]
      rw [hlast, Option.or_none, if_neg hkey]

theorem Value.sortKeys_setField {fields : List (String × Value)} {key : String} {v : Value}
    (h : key ∈ fields.map Prod.fst) (hv : ∀ f ∈ fields, f.1 = key → f.2.sortKeys = v.sortKeys) :
    (Value.obj (setField fields key v)).sortKeys = (Value.obj fields).sortKeys := by
  rw [Value.sortKeys_obj, Value.sortKeys_obj, Value.sortFields_eq, Value.sortFields_eq,
    setField_of_mem v h, List.map_map]
  congr 2
  apply List.map_congr_left
  intro f hf
  show (_, _) = (_, _)
  by_cases hkey : f.1 = key
  · simp [hkey, hv f hf hkey]
  · simp [hkey]

/-! ## Reordered objects -/

def Value.Reordered (v w : Value) : Prop :=
  ∃ fields fields', v = .obj fields ∧ w = .obj fields' ∧ fields.Perm fields'

theorem Value.sortFields_of_plain {fields : List (String × Value)}
    (h : ∀ f ∈ fields, f.2.sortKeys = f.2) : Value.sortFields fields = fields := by
  rw [Value.sortFields_eq]
  conv_rhs => rw [← List.map_id fields]
  apply List.map_congr_left
  intro f hf
  show (f.1, f.2.sortKeys) = (f.1, f.2)
  rw [h f hf]

theorem Value.reordered_sortKeys {fields : List (String × Value)}
    (h : ∀ f ∈ fields, f.2.sortKeys = f.2) :
    (Value.obj fields).sortKeys.Reordered (.obj fields) := by
  refine ⟨sortByKey fields, fields, ?_, rfl, sortByKey_perm fields⟩
  rw [Value.sortKeys_obj, Value.sortFields_of_plain h]

/-! ## Words -/

theorem Value.sortKeys_of_joinItem {word : String} (hw : PlainWord word) :
    ∀ v : Value, v.joinItem = some word → v.sortKeys = v
  | .undefined, _ => rfl
  | .null, _ => rfl
  | .bool _, _ => rfl
  | .num _, _ => rfl
  | .str _, _ => rfl
  | .arr items, h => by
    obtain ⟨v, rfl, hv⟩ := Value.joinItems_word hw h
    rw [Value.sortKeys, Value.sortItems, Value.sortItems, Value.sortKeys_of_joinItem hw v hv]
  | .obj fields, h => by
    rw [Value.joinItem] at h
    split at h
    · cases h
    · exact absurd (by simp [← Option.some.inj h]) hw.notSpecial

theorem Value.sortKeys_of_jsString {word : String} (hw : PlainWord word) {v : Value}
    (h : v.jsString = some word) : v.sortKeys = v := by
  cases v with
  | undefined => rfl
  | null => rfl
  | bool b => rfl
  | num n => rfl
  | str s => rfl
  | arr items => exact Value.sortKeys_of_joinItem hw (.arr items) h
  | obj fields => exact Value.sortKeys_of_joinItem hw (.obj fields) h

end Json
