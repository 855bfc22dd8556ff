import ThreeXhaust.Lib.Json.RoundTrip
import ThreeXhaust.Lib.Json.SortKeys

/-!
# Canonical JSON

`core/src/canonical.ts`: the text of a value with the keys of every object sorted, for digests
and checkpoints. A value that is not JSON is refused. `sha` stands for the hexadecimal SHA-256
digest of the UTF-8 bytes of a text.

* **`canonicalJson_isJson`** — the canonical text of JSON is the text of its sorted form.
* **`parse_canonicalJson`** — reading it back gives that form.
-/

namespace ThreeXhaust.Core

open Json

def joinComma : List (List Char) → List Char
  | [] => []
  | [part] => part
  | part :: next :: rest => part ++ ',' :: joinComma (next :: rest)

/-- A field with its text, or with what its value throws. -/
abbrev CanonicalField := String × Except String (List Char)

def fieldText (field : CanonicalField) : Except String (List Char) :=
  field.2.map fun text => quote field.1 ++ ':' :: text

mutual

def canonical : Value → Except String (List Char)
  | .undefined => .error "Canonical values must be JSON-compatible"
  | .null => .ok Value.null.text
  | .bool b => .ok (Value.bool b).text
  | .num (.finite d) => .ok d.text
  | .num _ => .error "Canonical values require finite numbers"
  | .str s => .ok (quote s)
  | .arr items => (canonicalItems items).map fun parts => '[' :: (joinComma parts ++ [']'])
  | .obj fields =>
    -- the keys are sorted first, so the first key in that order is the one that throws
    ((sortByKey (canonicalFields fields)).mapM fieldText).map
      fun parts => '{' :: (joinComma parts ++ ['}'])

def canonicalItems : List Value → Except String (List (List Char))
  | [] => .ok []
  | v :: rest => do
    let first ← canonical v
    let others ← canonicalItems rest
    .ok (first :: others)

def canonicalFields : List (String × Value) → List CanonicalField
  | [] => []
  | (k, v) :: rest => (k, canonical v) :: canonicalFields rest

end

def canonicalJson (value : Value) : Except String String := (canonical value).map String.ofList

def sha256 (sha : String → String) (value : Value) : Except String String :=
  (canonicalJson value).map sha

/-- `text.slice(start, end)` of a hexadecimal digest. -/
def slice (s : String) (start stop : Nat) : String :=
  String.ofList ((s.toList.drop start).take (stop - start))

/-! ## The text of JSON -/

theorem textItems_eq (items : List Value) :
    Value.textItems items = joinComma (items.map Value.text) := by
  induction items with
  | nil => rfl
  | cons v rest ih =>
    cases rest with
    | nil => rfl
    | cons w rest =>
      rw [Value.textItems, ih]
      rfl

theorem isUndefined_of_isJson {v : Value} (h : v.IsJson) : v.isUndefined = false := by
  cases v with
  | undefined => cases h
  | null => rfl
  | bool b => rfl
  | num n => rfl
  | str s => rfl
  | arr items => rfl
  | obj fields => rfl

theorem textFields_eq {fields : List (String × Value)} (h : ∀ f ∈ fields, f.2.IsJson) :
    Value.textFields fields = joinComma (fields.map fun f => quote f.1 ++ ':' :: f.2.text) := by
  induction fields with
  | nil => rfl
  | cons f rest ih =>
    obtain ⟨k, v⟩ := f
    have hv : v.isUndefined = false := isUndefined_of_isJson (h (k, v) (by simp))
    have hrest := ih fun g hg => h g (by simp [hg])
    rw [Value.textFields, hv, if_neg (by simp), hrest]
    cases rest with
    | nil => simp [joinComma, commaBefore]
    | cons g more =>
      -- the tail of a non-empty rest is not empty, so a comma stands before it
      have hne : joinComma ((g :: more).map fun f => quote f.1 ++ ':' :: f.2.text) ≠ [] := by
        rw [List.map_cons]
        cases more with
        | nil => simp [joinComma]
        | cons g' more' => simp [joinComma]
      rw [commaBefore, if_neg hne]
      simp [joinComma]

theorem mapM_fieldText (fields : List (String × Value)) :
    (fields.map fun f => ((f.1, .ok f.2.text) : CanonicalField)).mapM fieldText
      = .ok (fields.map fun f => quote f.1 ++ ':' :: f.2.text) := by
  induction fields with
  | nil => rfl
  | cons f rest ih =>
    rw [List.map_cons, List.mapM_cons, ih]
    rfl

mutual

/-- **The canonical text of JSON** is the text of its sorted form. -/
theorem canonical_isJson (v : Value) (h : v.IsJson) : canonical v = .ok v.sortKeys.text := by
  match v with
  | .null => rfl
  | .bool b => rfl
  | .num n =>
    obtain ⟨d, rfl⟩ := h
    rfl
  | .str s => rfl
  | .arr items =>
    have hitems := canonicalItems_isJson items (Value.isJson_arr.mp h)
    rw [canonical, hitems, Value.sortKeys, Value.text, textItems_eq]
    rfl
  | .obj fields =>
    obtain ⟨-, hfields⟩ := Value.isJson_obj.mp h
    have hcanonical := canonicalFields_isJson fields hfields
    have hsorted := map_sortByKey (fun f : String × Value =>
      ((f.1, .ok f.2.text) : CanonicalField)) (fun _ => rfl) (Value.sortFields fields)
    have hjson : ∀ f ∈ sortByKey (Value.sortFields fields), f.2.IsJson := by
      intro f hf
      exact Value.isJson_sortFields fields hfields f ((sortByKey_perm _).mem_iff.mp hf)
    rw [canonical, hcanonical, ← hsorted, Value.sortKeys, Value.text, textFields_eq hjson]
    rw [mapM_fieldText]
    rfl

theorem canonicalItems_isJson (items : List Value) (h : ∀ v ∈ items, v.IsJson) :
    canonicalItems items = .ok ((Value.sortItems items).map Value.text) := by
  match items with
  | [] => rfl
  | v :: rest =>
    rw [canonicalItems, canonical_isJson v (h v (by simp)),
      canonicalItems_isJson rest fun u hu => h u (by simp [hu])]
    rfl

theorem canonicalFields_isJson (fields : List (String × Value)) (h : ∀ f ∈ fields, f.2.IsJson) :
    canonicalFields fields
      = (Value.sortFields fields).map fun f => ((f.1, .ok f.2.text) : CanonicalField) := by
  match fields with
  | [] => rfl
  | (k, v) :: rest =>
    rw [canonicalFields, canonical_isJson v (h (k, v) (by simp)),
      canonicalFields_isJson rest fun u hu => h u (by simp [hu])]
    rfl

end

theorem canonicalJson_isJson {v : Value} (h : v.IsJson) :
    canonicalJson v = .ok v.sortKeys.stringify := by
  rw [canonicalJson, canonical_isJson v h]
  rfl

theorem parse_canonicalJson {v : Value} (h : v.IsJson) :
    parse v.sortKeys.stringify = some v.sortKeys :=
  parse_stringify _ (Value.isJson_sortKeys v h)

end ThreeXhaust.Core
