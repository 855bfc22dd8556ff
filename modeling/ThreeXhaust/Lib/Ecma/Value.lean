import ThreeXhaust.Lib.Json.Double
import ThreeXhaust.Lib.Utf16

/-!
# JavaScript data with strings of UTF-16 code units

`Value` is what a JavaScript program can hold as plain data, strings with half surrogate pairs and
both zeros included. `Value.text` is the compact JSON text of a value and `parse` is `JSON.parse`.

* `Value.IsJson` — the values that JSON can write: no `undefined`, finite numbers.
* `Value.data` — what a value says: the order of its keys and the sign of its zeros are left out.
-/

namespace Ecma

open Utf16

/-! ## Numbers -/

/-- A binary64 that is not the negative zero, in its shortest decimal form. -/
@[ext] structure Double where
  decimal : Json.Decimal
  isDouble : decimal.rounded = .finite decimal
deriving DecidableEq

theorem rounded_zero : (Json.Decimal.ofNat 0).rounded = .finite (.ofNat 0) := by
  rw [Json.Decimal.rounded, if_neg (Json.Decimal.not_overflows_ofNat (by decide)),
    Json.Decimal.units_ofNat (by decide), Nat.zero_mul, Json.shortest_zero]

def Double.zero : Double := ⟨.ofNat 0, rounded_zero⟩

inductive Number where
  | finite (x : Double)
  | negativeZero
  | nan
  | infinity (negative : Bool)
deriving DecidableEq

theorem rounded_rounded (d : Json.Decimal) : d.rounded.rounded = d.rounded := by
  cases h : d.rounded with
  | finite r => exact Json.Decimal.rounded_rounded h
  | nan => rfl
  | infinity negative => rfl

/-- A number that was rounded; `negative` tells that it stood behind a minus sign. -/
def Number.ofRounded (negative : Bool) : (n : Json.Number) → n.rounded = n → Number
  | .finite r, h => if negative && r = .ofNat 0 then .negativeZero else .finite ⟨r, h⟩
  | .nan, _ => .nan
  | .infinity negative, _ => .infinity negative

def Number.read (negative : Bool) (d : Json.Decimal) : Number :=
  .ofRounded negative d.rounded (rounded_rounded d)

def Number.unsigned : Number → Number
  | .negativeZero => .finite .zero
  | n => n

/-- `String(n)`, and `JSON.stringify(n)` where `n` is finite. -/
def Number.text : Number → Text
  | .finite x => decimalText x.decimal
  | .negativeZero => units "0"
  | .nan => units "NaN"
  | .infinity false => units "Infinity"
  | .infinity true => units "-Infinity"

def Number.isFinite : Number → Bool
  | .finite _ => true
  | .negativeZero => true
  | _ => false

/-! ## Values -/

inductive Value where
  | undefined
  | null
  | bool (b : Bool)
  | num (n : Number)
  | str (s : Text)
  | arr (items : List Value)
  | obj (fields : List (Text × Value))

mutual

/-- No `undefined`, only finite numbers, and no key twice in an object. -/
def Value.IsJson : Value → Prop
  | .undefined => False
  | .null => True
  | .bool _ => True
  | .num n => n.isFinite = true
  | .str _ => True
  | .arr items => Value.IsJsonItems items
  | .obj fields => (fields.map Prod.fst).Nodup ∧ Value.IsJsonFields fields

@[grind =] def Value.IsJsonItems : List Value → Prop
  | [] => True
  | v :: rest => v.IsJson ∧ Value.IsJsonItems rest

@[grind =] def Value.IsJsonFields : List (Text × Value) → Prop
  | [] => True
  | (_, v) :: rest => v.IsJson ∧ Value.IsJsonFields rest

end

theorem Value.isJsonFields_iff {fields : List (Text × Value)} :
    Value.IsJsonFields fields ↔ ∀ f ∈ fields, f.2.IsJson := by
  induction fields with
  | nil => simp [Value.IsJsonFields]
  | cons f rest ih => simp [Value.IsJsonFields, ih]

theorem Value.isJson_obj {fields : List (Text × Value)} :
    (Value.obj fields).IsJson ↔ (fields.map Prod.fst).Nodup ∧ ∀ f ∈ fields, f.2.IsJson := by
  rw [Value.IsJson, Value.isJsonFields_iff]

/-! ## What a value says -/

/-- A value without the order of its keys and the sign of its zeros. -/
inductive Data where
  | undefined
  | null
  | bool (b : Bool)
  | num (n : Number)
  | str (s : Text)
  | arr (items : List Data)
  | obj (field : Text → Option Data)

mutual

def Value.data : Value → Data
  | .undefined => .undefined
  | .null => .null
  | .bool b => .bool b
  | .num n => .num n.unsigned
  | .str s => .str s
  | .arr items => .arr (Value.dataItems items)
  | .obj fields => .obj (Value.dataFields fields)

@[grind =] def Value.dataItems : List Value → List Data
  | [] => []
  | v :: rest => v.data :: Value.dataItems rest

@[grind =] def Value.dataFields : List (Text × Value) → Text → Option Data
  | [] => fun _ => none
  | (k, v) :: rest => fun key => if key = k then some v.data else Value.dataFields rest key

end

theorem Value.dataFields_cons (k : Text) (v : Value) (rest : List (Text × Value)) (key : Text) :
    Value.dataFields ((k, v) :: rest) key
      = if key = k then some v.data else Value.dataFields rest key := rfl

theorem Value.dataFields_eq_none_iff {fields : List (Text × Value)} {key : Text} :
    Value.dataFields fields key = none ↔ key ∉ fields.map Prod.fst := by
  induction fields with
  | nil => simp [Value.dataFields]
  | cons f rest ih =>
    obtain ⟨k, v⟩ := f
    by_cases h : key = k
    · simp [Value.dataFields, h]
    · simp [Value.dataFields, h, ih]

theorem Value.dataFields_of_mem {fields : List (Text × Value)} {key : Text} {v : Value}
    (hn : (fields.map Prod.fst).Nodup) (h : (key, v) ∈ fields) :
    Value.dataFields fields key = some v.data := by
  induction fields with
  | nil => cases h
  | cons f rest ih =>
    obtain ⟨k, w⟩ := f
    rw [List.map_cons, List.nodup_cons] at hn
    rcases List.mem_cons.mp h with heq | hrest
    · obtain ⟨rfl, rfl⟩ := Prod.mk.inj heq
      rw [Value.dataFields_cons, if_pos rfl]
    · -- a later field has another key
      have hne : key ≠ k := by
        rintro rfl
        exact hn.1 (List.mem_map.mpr ⟨_, hrest, rfl⟩)
      rw [Value.dataFields_cons, if_neg hne, ih hn.2 hrest]

theorem Value.mem_of_dataFields {fields : List (Text × Value)} {key : Text} {d : Data}
    (h : Value.dataFields fields key = some d) : ∃ v, (key, v) ∈ fields ∧ v.data = d := by
  induction fields with
  | nil => cases h
  | cons f rest ih =>
    obtain ⟨k, w⟩ := f
    rw [Value.dataFields_cons] at h
    split at h
    · next hk =>
      subst hk
      exact ⟨w, List.mem_cons_self, Option.some.inj h⟩
    · obtain ⟨v, hv, hd⟩ := ih h
      exact ⟨v, List.mem_cons_of_mem _ hv, hd⟩

theorem Value.dataFields_perm {fields fields' : List (Text × Value)}
    (hn : (fields.map Prod.fst).Nodup) (h : fields.Perm fields') :
    Value.dataFields fields = Value.dataFields fields' := by
  have hn' : (fields'.map Prod.fst).Nodup := (h.map Prod.fst).nodup_iff.mp hn
  funext key
  cases hkey : Value.dataFields fields key with
  | none =>
    rw [Value.dataFields_eq_none_iff] at hkey
    refine (Value.dataFields_eq_none_iff.mpr fun hmem => hkey ?_).symm
    exact (h.map Prod.fst).mem_iff.mpr hmem
  | some d =>
    obtain ⟨v, hv, rfl⟩ := Value.mem_of_dataFields hkey
    exact (Value.dataFields_of_mem hn' (h.mem_iff.mp hv)).symm

/-! ## JSON text -/

@[grind =] def joinComma : List Text → Text
  | [] => []
  | [part] => part
  | part :: next :: rest => part ++ 44 :: joinComma (next :: rest)

mutual

@[grind =] def Value.text : Value → Text
  | .undefined => units "undefined"
  | .null => units "null"
  | .bool true => units "true"
  | .bool false => units "false"
  | .num n => n.text
  | .str s => quote s
  | .arr items => 91 :: (joinComma (Value.textItems items) ++ [93])
  | .obj fields => 123 :: (joinComma (Value.textFields fields) ++ [125])

@[grind =] def Value.textItems : List Value → List Text
  | [] => []
  | v :: rest => v.text :: Value.textItems rest

@[grind =] def Value.textFields : List (Text × Value) → List Text
  | [] => []
  | (k, v) :: rest => (quote k ++ 58 :: v.text) :: Value.textFields rest

end

theorem Value.textFields_eq (fields : List (Text × Value)) :
    Value.textFields fields = fields.map fun f => quote f.1 ++ 58 :: f.2.text := by
  induction fields with
  | nil => rfl
  | cons f rest ih => rw [Value.textFields, ih, List.map_cons]

end Ecma
