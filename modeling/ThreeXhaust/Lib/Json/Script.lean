import ThreeXhaust.Lib.Json.Value

/-!
# JavaScript strings of JSON values

What a program sees of a value when it asks for `value.length`, for `String(value)` or for the
order of two keys: lengths and comparisons are in UTF-16 code units, and an array is the join
of its elements.
-/

namespace Json

def utf16Char (c : Char) : List Nat :=
  if c.toNat < 0x10000 then [c.toNat]
  else [0xD800 + (c.toNat - 0x10000) / 0x400, 0xDC00 + (c.toNat - 0x10000) % 0x400]

def utf16 (s : String) : List Nat := s.toList.flatMap utf16Char

/-- `text.length`. -/
def utf16Length (s : String) : Nat := (utf16 s).length

/-- The largest integer `Number.isSafeInteger` accepts. -/
def maxSafeInteger : Nat := 9007199254740991

def isSafeInteger (n : Nat) : Prop := n ≤ maxSafeInteger

instance (n : Nat) : Decidable (isSafeInteger n) := inferInstanceAs (Decidable (n ≤ _))

/-- The number `n`, and nothing else. -/
def Value.isNat (v : Value) (n : Nat) : Bool :=
  match v with
  | .num (.finite d) => d = .ofNat n
  | _ => false

@[simp] theorem Value.isNat_nat (n : Nat) : (Value.nat n).isNat n = true := by
  simp [Value.isNat, Value.nat]

/-- `Boolean(value)`. -/
def Value.truthy : Value → Bool
  | .undefined => false
  | .null => false
  | .bool b => b
  | .num (.finite d) => d ≠ .ofNat 0
  | .num .nan => false
  | .num (.infinity _) => true
  | .str s => s ≠ ""
  | .arr _ => true
  | .obj _ => true

def Number.jsString : Number → String
  | .finite d => String.ofList d.text
  | .nan => "NaN"
  | .infinity negative => if negative then "-Infinity" else "Infinity"

mutual

/-- `String(value)`; `none` is the `TypeError` of an object whose own `toString` is plain data. -/
def Value.jsString : Value → Option String
  | .undefined => some "undefined"
  | .null => some "null"
  | .bool b => some (if b then "true" else "false")
  | .num n => some n.jsString
  | .str s => some s
  | .arr items => Value.joinItems items
  | .obj fields =>
    if "toString" ∈ fields.map Prod.fst then none else some "[object Object]"

/-- `Array.prototype.join`: a missing element is empty text. -/
@[grind =] def Value.joinItems : List Value → Option String
  | [] => some ""
  | [v] => Value.joinItem v
  | v :: w :: rest => do
    let first ← Value.joinItem v
    let others ← Value.joinItems (w :: rest)
    some (first ++ "," ++ others)

def Value.joinItem : Value → Option String
  | .undefined => some ""
  | .null => some ""
  | .bool b => some (if b then "true" else "false")
  | .num n => some n.jsString
  | .str s => some s
  | .arr items => Value.joinItems items
  | .obj fields =>
    if "toString" ∈ fields.map Prod.fst then none else some "[object Object]"

end

structure PlainWord (word : String) : Prop where
  notSpecial : word ∉ ["", "undefined", "NaN", "Infinity", "-Infinity", "[object Object]"]
  noComma : ',' ∉ word.toList

theorem Value.joinItems_word {word : String} (hw : PlainWord word) {items : List Value}
    (h : Value.joinItems items = some word) : ∃ v, items = [v] ∧ v.joinItem = some word := by
  match items with
  | [] =>
    rw [Value.joinItems] at h
    exact absurd (by simp [← Option.some.inj h]) hw.notSpecial
  | [v] => exact ⟨v, rfl, by simpa [Value.joinItems] using h⟩
  | v :: w :: rest =>
    -- two elements leave a comma between them
    rw [Value.joinItems] at h
    obtain ⟨first, -, h⟩ := Option.bind_eq_some_iff.mp h
    obtain ⟨others, -, h⟩ := Option.bind_eq_some_iff.mp h
    have hword : word = first ++ "," ++ others := by simpa using h.symm
    exact absurd (by simp [hword]) hw.noComma

theorem Value.isJson_of_joinItem {word : String} (hw : PlainWord word) :
    ∀ v : Value, v.joinItem = some word → v.IsJson
  | .undefined, h => absurd (by simp [← Option.some.inj h]) hw.notSpecial
  | .null, _ => trivial
  | .bool _, _ => trivial
  | .num (.finite d), _ => ⟨d, rfl⟩
  | .num .nan, h => absurd (by simp [← Option.some.inj h, Number.jsString]) hw.notSpecial
  | .num (.infinity negative), h => by
    have hword : word = Number.jsString (.infinity negative) := (Option.some.inj h).symm
    refine absurd ?_ hw.notSpecial
    cases negative <;> simp [hword, Number.jsString]
  | .str _, _ => trivial
  | .arr items, h => by
    obtain ⟨v, rfl, hv⟩ := Value.joinItems_word hw h
    exact ⟨Value.isJson_of_joinItem hw v hv, trivial⟩
  | .obj fields, h => by
    rw [Value.joinItem] at h
    split at h
    · cases h
    · exact absurd (by simp [← Option.some.inj h]) hw.notSpecial

theorem Value.isJson_of_jsString {word : String} (hw : PlainWord word) (hnull : word ≠ "null")
    {v : Value} (h : v.jsString = some word) : v.IsJson := by
  cases v with
  | undefined => exact absurd (by simp [← Option.some.inj h]) hw.notSpecial
  | null => exact absurd (Option.some.inj h).symm hnull
  | bool b => trivial
  | num n => exact Value.isJson_of_joinItem hw (.num n) h
  | str s => trivial
  | arr items => exact Value.isJson_of_joinItem hw (.arr items) h
  | obj fields => exact Value.isJson_of_joinItem hw (.obj fields) h

end Json
