import ThreeXhaust.Lib.Ecma.RoundTrip
import Mathlib.Data.List.Sort
import Mathlib.Data.List.Lex

/-!
# Canonical JSON of any strings

`core/src/canonical.ts` on strings of UTF-16 code units, as the turn requests, the payloads and the
seeds of invocations hold them. Two values are given the same fingerprint where their canonical
texts are equal.
-/

namespace ThreeXhaust.Core.Fingerprint

open Utf16 Ecma

/-! ## The source -/

/-- The code units of a key, which `sort()` compares. -/
def keyUnits (key : Text) : List Nat := key.map UInt16.toNat

/-- The order of keys, on fields. -/
abbrev keyLE {α : Type} (f g : Text × α) : Prop := keyUnits f.1 ≤ keyUnits g.1

/-- `Object.keys(record).sort()`, each key with its value. -/
def sortByKey {α : Type} (fields : List (Text × α)) : List (Text × α) :=
  fields.insertionSort keyLE

/-- A field with its text, or with what its value throws. -/
abbrev CanonicalField := Text × Except String Text

def fieldText (field : CanonicalField) : Except String Text :=
  field.2.map fun text => quote field.1 ++ 58 :: text

mutual

def canonical : Value → Except String Text
  | .undefined => .error "Canonical values must be JSON-compatible"
  | .null => .ok Value.null.text
  | .bool b => .ok (Value.bool b).text
  | .num n => if n.isFinite then .ok n.text else .error "Canonical values require finite numbers"
  | .str s => .ok (quote s)
  | .arr items => (canonicalItems items).map fun parts => 91 :: (Ecma.joinComma parts ++ [93])
  | .obj fields =>
    -- the keys are sorted first, so the first key in that order is the one that throws
    ((sortByKey (canonicalFields fields)).mapM fieldText).map
      fun parts => 123 :: (Ecma.joinComma parts ++ [125])

def canonicalItems : List Value → Except String (List Text)
  | [] => .ok []
  | v :: rest => do
    let first ← canonical v
    let others ← canonicalItems rest
    .ok (first :: others)

def canonicalFields : List (Text × Value) → List CanonicalField
  | [] => []
  | (k, v) :: rest => (k, canonical v) :: canonicalFields rest

end

def canonicalJson (value : Value) : Except String Text := canonical value

/-! ## Sorted keys -/

theorem keyUnits_inj {k l : Text} (h : keyUnits k = keyUnits l) : k = l :=
  List.map_injective_iff.mpr (fun _ _ => UInt16.toNat_inj.mp) h

theorem sortByKey_perm {α : Type} (fields : List (Text × α)) : (sortByKey fields).Perm fields :=
  List.perm_insertionSort keyLE fields

instance {α : Type} : Std.Total (keyLE (α := α)) :=
  ⟨fun f g => le_total (keyUnits f.1) (keyUnits g.1)⟩

instance {α : Type} : IsTrans (Text × α) keyLE := ⟨fun _ _ _ h1 h2 => le_trans h1 h2⟩

theorem map_sortByKey {α β : Type} (f : Text × α → Text × β) (hf : ∀ x, (f x).1 = x.1)
    (fields : List (Text × α)) : (sortByKey fields).map f = sortByKey (fields.map f) := by
  apply List.map_insertionSort
  intro a _ b _
  show keyUnits a.1 ≤ keyUnits b.1 ↔ keyUnits (f a).1 ≤ keyUnits (f b).1
  rw [hf, hf]

theorem sortByKey_of_perm {α : Type} {fields fields' : List (Text × α)}
    (hn : (fields.map Prod.fst).Nodup) (h : fields.Perm fields') :
    sortByKey fields = sortByKey fields' := by
  have hperm : (sortByKey fields).Perm (sortByKey fields') :=
    (sortByKey_perm fields).trans (h.trans (sortByKey_perm fields').symm)
  refine hperm.eq_of_pairwise ?_ (List.pairwise_insertionSort keyLE fields)
    (List.pairwise_insertionSort keyLE fields')
  intro f g hf hg hle hge
  have hkey : f.1 = g.1 := keyUnits_inj (le_antisymm hle hge)
  have hf' : f ∈ fields := (sortByKey_perm fields).mem_iff.mp hf
  have hg' : g ∈ fields := h.mem_iff.mpr ((sortByKey_perm fields').mem_iff.mp hg)
  exact List.inj_on_of_nodup_map hn hf' hg' hkey

mutual

def sortKeys : Value → Value
  | .undefined => .undefined
  | .null => .null
  | .bool b => .bool b
  | .num n => .num n
  | .str s => .str s
  | .arr items => .arr (sortItems items)
  | .obj fields => .obj (sortByKey (sortFields fields))

def sortItems : List Value → List Value
  | [] => []
  | v :: rest => sortKeys v :: sortItems rest

def sortFields : List (Text × Value) → List (Text × Value)
  | [] => []
  | (k, v) :: rest => (k, sortKeys v) :: sortFields rest

end

theorem sortFields_eq (fields : List (Text × Value)) :
    sortFields fields = fields.map fun f => (f.1, sortKeys f.2) := by
  induction fields with
  | nil => rfl
  | cons f rest ih => rw [sortFields, ih, List.map_cons]

theorem keys_sortFields (fields : List (Text × Value)) :
    (sortFields fields).map Prod.fst = fields.map Prod.fst := by
  rw [sortFields_eq, List.map_map]
  rfl

mutual

theorem data_sortKeys : ∀ v : Value, v.IsJson → (sortKeys v).data = v.data
  | .undefined, _ => rfl
  | .null, _ => rfl
  | .bool _, _ => rfl
  | .num _, _ => rfl
  | .str _, _ => rfl
  | .arr items, h => by
    rw [sortKeys, Value.data, Value.data, dataItems_sortItems items h]
  | .obj fields, h => by
    have hnodup : ((sortFields fields).map Prod.fst).Nodup := by
      rw [keys_sortFields]
      exact h.1
    rw [sortKeys, Value.data, Value.data,
      ← Value.dataFields_perm hnodup (sortByKey_perm _).symm,
      dataFields_sortFields fields h.2]

theorem dataItems_sortItems : ∀ items : List Value, Value.IsJsonItems items →
    Value.dataItems (sortItems items) = Value.dataItems items
  | [], _ => rfl
  | v :: rest, h => by
    rw [sortItems, Value.dataItems, Value.dataItems, data_sortKeys v h.1,
      dataItems_sortItems rest h.2]

theorem dataFields_sortFields : ∀ fields : List (Text × Value), Value.IsJsonFields fields →
    Value.dataFields (sortFields fields) = Value.dataFields fields
  | [], _ => rfl
  | (k, v) :: rest, h => by
    funext key
    rw [sortFields, Value.dataFields_cons, Value.dataFields_cons, data_sortKeys v h.1,
      dataFields_sortFields rest h.2]

end

mutual

theorem isJson_sortKeys : ∀ v : Value, v.IsJson → (sortKeys v).IsJson
  | .undefined, h => h
  | .null, h => h
  | .bool _, h => h
  | .num _, h => h
  | .str _, h => h
  | .arr items, h => isJson_sortItems items h
  | .obj fields, h => by
    have hperm := sortByKey_perm (sortFields fields)
    rw [sortKeys, Value.isJson_obj]
    constructor
    · rw [(hperm.map Prod.fst).nodup_iff, keys_sortFields]
      exact h.1
    · intro f hf
      exact Value.isJsonFields_iff.mp (isJson_sortFields fields h.2) f (hperm.mem_iff.mp hf)

theorem isJson_sortItems : ∀ items : List Value, Value.IsJsonItems items →
    Value.IsJsonItems (sortItems items)
  | [], h => h
  | v :: rest, h => ⟨isJson_sortKeys v h.1, isJson_sortItems rest h.2⟩

theorem isJson_sortFields : ∀ fields : List (Text × Value), Value.IsJsonFields fields →
    Value.IsJsonFields (sortFields fields)
  | [], h => h
  | (_, v) :: rest, h => ⟨isJson_sortKeys v h.1, isJson_sortFields rest h.2⟩

end

/-! ## The canonical text -/

theorem mapM_fieldText (fields : List (Text × Value)) :
    (fields.map fun f => ((f.1, .ok f.2.text) : CanonicalField)).mapM fieldText
      = .ok (Value.textFields fields) := by
  induction fields with
  | nil => rfl
  | cons f rest ih =>
    rw [List.map_cons, List.mapM_cons, ih]
    rfl

mutual

/-- **The canonical text of JSON** is the text of its sorted form. -/
theorem canonical_isJson : ∀ v : Value, v.IsJson → canonical v = .ok (sortKeys v).text
  | .null, _ => rfl
  | .bool _, _ => rfl
  | .num n, h => by
    rw [Value.IsJson] at h
    rw [canonical, if_pos h]
    rfl
  | .str _, _ => rfl
  | .arr items, h => by
    rw [canonical, canonicalItems_isJson items h]
    rfl
  | .obj fields, h => by
    have hsorted := map_sortByKey (fun f : Text × Value =>
      ((f.1, .ok f.2.text) : CanonicalField)) (fun _ => rfl) (sortFields fields)
    rw [canonical, canonicalFields_isJson fields h.2, ← hsorted, mapM_fieldText]
    rfl

theorem canonicalItems_isJson : ∀ items : List Value, Value.IsJsonItems items →
    canonicalItems items = .ok (Value.textItems (sortItems items))
  | [], _ => rfl
  | v :: rest, h => by
    rw [canonicalItems, canonical_isJson v h.1, canonicalItems_isJson rest h.2]
    rfl

theorem canonicalFields_isJson : ∀ fields : List (Text × Value), Value.IsJsonFields fields →
    canonicalFields fields
      = (sortFields fields).map fun f => ((f.1, .ok f.2.text) : CanonicalField)
  | [], _ => rfl
  | (k, v) :: rest, h => by
    rw [canonicalFields, canonical_isJson v h.1, canonicalFields_isJson rest h.2]
    rfl

end

/-! ## Values that say the same -/

theorem text_of_unsigned {n m : Number} (h : n.unsigned = m.unsigned) (hn : n.isFinite = true)
    (hm : m.isFinite = true) : n.text = m.text := by
  obtain ⟨x, hx, hnx⟩ := isFinite_cases hn
  obtain ⟨y, hy, hmy⟩ := isFinite_cases hm
  rw [hx, hy, Number.finite.injEq] at h
  rw [hnx, hmy, h]

def fieldTexts (fields : List (Text × Value)) : List (Text × Text) :=
  fields.map fun f => (f.1, (sortKeys f.2).text)

theorem keys_fieldTexts (fields : List (Text × Value)) :
    (fieldTexts fields).map Prod.fst = fields.map Prod.fst := by
  rw [fieldTexts, List.map_map]
  rfl

theorem text_sortKeys_obj (fields : List (Text × Value)) :
    (sortKeys (.obj fields)).text =
      123 :: (Ecma.joinComma ((sortByKey (fieldTexts fields)).map fun f => quote f.1 ++ 58 :: f.2)
        ++ [125]) := by
  have hmap : fieldTexts fields = (sortFields fields).map fun f => (f.1, f.2.text) := by
    rw [fieldTexts, sortFields_eq, List.map_map]
    rfl
  rw [sortKeys, Value.text, Value.textFields_eq, hmap,
    ← map_sortByKey (fun f : Text × Value => (f.1, f.2.text)) (fun _ => rfl), List.map_map]
  rfl

/-- Fields that say the same have the same texts, where the texts of one side are determined by what
its values say. -/
theorem fieldTexts_subset {fields fields' : List (Text × Value)}
    (hdata : Value.dataFields fields = Value.dataFields fields')
    (hn : (fields.map Prod.fst).Nodup)
    (htext : ∀ f ∈ fields, ∀ f' ∈ fields', f.2.data = f'.2.data →
      (sortKeys f.2).text = (sortKeys f'.2).text) :
    ∀ f ∈ fieldTexts fields, f ∈ fieldTexts fields' := by
  intro f hf
  obtain ⟨⟨k, v⟩, hv, rfl⟩ := List.mem_map.mp hf
  have hkey := Value.dataFields_of_mem hn hv
  rw [hdata] at hkey
  obtain ⟨v', hv', hsame⟩ := Value.mem_of_dataFields hkey
  refine List.mem_map.mpr ⟨(k, v'), hv', ?_⟩
  show (k, (sortKeys v').text) = (k, (sortKeys v).text)
  rw [htext (k, v) hv (k, v') hv' hsame.symm]

mutual

/-- **Values that say the same have the same sorted text.** -/
theorem text_sortKeys_of_data : ∀ a b : Value, a.IsJson → b.IsJson → a.data = b.data →
    (sortKeys a).text = (sortKeys b).text
  | .null, b, _, _, h => by
    cases b <;> cases h
    rfl
  | .bool _, b, _, _, h => by
    cases b <;> cases h
    rfl
  | .num n, b, ha, hb, h => by
    cases b with
    | num m =>
      rw [Value.data, Value.data, Data.num.injEq] at h
      exact text_of_unsigned h ha hb
    | _ => cases h
  | .str _, b, _, _, h => by
    cases b <;> cases h
    rfl
  | .arr items, b, ha, hb, h => by
    cases b with
    | arr items' =>
      rw [Value.data, Value.data, Data.arr.injEq] at h
      rw [sortKeys, sortKeys, Value.text, Value.text, textItems_of_data items items' ha hb h]
    | _ => cases h
  | .obj fields, b, ha, hb, h => by
    cases b with
    | obj fields' =>
      rw [Value.data, Value.data, Data.obj.injEq] at h
      have htext : ∀ f ∈ fields, ∀ f' ∈ fields', f.2.data = f'.2.data →
          (sortKeys f.2).text = (sortKeys f'.2).text := by
        intro f hf f' hf'
        exact textFields_of_data fields ha.2 f hf f'.2 (Value.isJsonFields_iff.mp hb.2 f' hf')
      have hnodup : ∀ {fields : List (Text × Value)}, (fields.map Prod.fst).Nodup →
          (fieldTexts fields).Nodup := by
        intro fields hn
        rw [← keys_fieldTexts] at hn
        exact hn.of_map
      have hperm : (fieldTexts fields).Perm (fieldTexts fields') := by
        refine (List.perm_ext_iff_of_nodup (hnodup ha.1) (hnodup hb.1)).mpr fun f => ⟨?_, ?_⟩
        · exact fieldTexts_subset h ha.1 htext f
        · exact fieldTexts_subset h.symm hb.1
            (fun f' hf' f hf hsame => (htext f hf f' hf' hsame.symm).symm) f
      rw [text_sortKeys_obj, text_sortKeys_obj,
        sortByKey_of_perm (by rw [keys_fieldTexts]; exact ha.1) hperm]
    | _ => cases h

theorem textItems_of_data : ∀ items items' : List Value, Value.IsJsonItems items →
    Value.IsJsonItems items' → Value.dataItems items = Value.dataItems items' →
    Value.textItems (sortItems items) = Value.textItems (sortItems items')
  | [], [], _, _, _ => rfl
  | [], _ :: _, _, _, h => by cases h
  | _ :: _, [], _, _, h => by cases h
  | v :: rest, w :: rest', hv, hw, h => by
    rw [Value.dataItems, Value.dataItems, List.cons.injEq] at h
    rw [sortItems, sortItems, Value.textItems, Value.textItems,
      text_sortKeys_of_data v w hv.1 hw.1 h.1, textItems_of_data rest rest' hv.2 hw.2 h.2]

theorem textFields_of_data : ∀ fields : List (Text × Value), Value.IsJsonFields fields →
    ∀ f ∈ fields, ∀ b : Value, b.IsJson → f.2.data = b.data →
      (sortKeys f.2).text = (sortKeys b).text
  | (_, v) :: rest, hv, f, hf, b, hb, h => by
    rcases List.mem_cons.mp hf with rfl | hf
    · exact text_sortKeys_of_data v b hv.1 hb h
    · exact textFields_of_data rest hv.2 f hf b hb h

end

/-! ## Fingerprints -/

theorem canonicalJson_read {a : Value} (ha : a.IsJson) :
    ∃ text v, canonicalJson a = .ok text ∧ parse text = some v ∧ v.data = a.data := by
  refine ⟨(sortKeys a).text, (sortKeys a).unsigned, canonical_isJson a ha,
    parse_text (isJson_sortKeys a ha), ?_⟩
  rw [Value.data_unsigned, data_sortKeys a ha]

/-- **Two values of JSON have the same canonical text where they say the same, and only there; what
`JSON.parse` reads from it says the same as well.** -/
theorem canonicalJson_eq_iff {a b : Value} (ha : a.IsJson) (hb : b.IsJson) :
    (canonicalJson a = canonicalJson b ↔ a.data = b.data) ∧
    ∃ text v, canonicalJson a = .ok text ∧ parse text = some v ∧ v.data = a.data := by
  refine ⟨⟨fun h => ?_, fun h => ?_⟩, canonicalJson_read ha⟩
  · obtain ⟨text, v, htext, hparse, hv⟩ := canonicalJson_read ha
    obtain ⟨text', v', htext', hparse', hv'⟩ := canonicalJson_read hb
    rw [htext, htext', Except.ok.injEq] at h
    rw [h, hparse', Option.some.injEq] at hparse
    rw [← hv, ← hv', hparse]
  · rw [canonicalJson, canonicalJson, canonical_isJson a ha, canonical_isJson b hb,
      text_sortKeys_of_data a b ha hb h]

/-- `{"b": -0, "a": "\ud800"}`, and the same with its keys the other way round. -/
theorem canonicalJson_eq_iff_halves :
    canonicalJson (.obj [([98], .num .negativeZero), ([97], .str [0xD800])]) =
      canonicalJson (.obj [([97], .str [0xD800]), ([98], .num (.finite .zero))]) := by
  refine (canonicalJson_eq_iff (a := .obj [([98], .num .negativeZero), ([97], .str [0xD800])])
    (b := .obj [([97], .str [0xD800]), ([98], .num (.finite .zero))]) ?_ ?_).1.mpr ?_
  · exact ⟨by decide, rfl, trivial, trivial⟩
  · exact ⟨by decide, trivial, rfl, trivial⟩
  · have hperm : List.Perm [(([98] : Text), Value.num (.finite .zero)), ([97], .str [0xD800])]
        [([97], .str [0xD800]), ([98], .num (.finite .zero))] := .swap _ _ []
    have hdata := Value.dataFields_perm (by decide) hperm
    exact congrArg Data.obj hdata

end ThreeXhaust.Core.Fingerprint
