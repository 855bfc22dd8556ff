import ThreeXhaust.Lib.Json.Number

/-!
# JavaScript data values, `JSON.stringify` and `JSON.parse`

`Value` is what a JavaScript program can hold as plain data: JSON, `undefined`, and the
numbers JSON cannot write. Objects are association lists in insertion order. Strings are
well-formed Unicode, so a lone surrogate has no value here and `JSON.parse` of its escape
fails.

* `Value.stringify` — `JSON.stringify` without indentation: a field holding `undefined` is
  left out, an array slot holding one is written `null`, and so is a number that is not
  finite.
* `parse` — `JSON.parse`: whitespace allowed between tokens, the last of two equal keys wins.
* `Value.IsJson` — the values on which the two are inverse (`parse_stringify`, in
  `Json.RoundTrip`).
-/

namespace Json

/-- A JavaScript number, `-0` identified with `0`. -/
inductive Number where
  | finite (d : Decimal)
  | nan
  | infinity (negative : Bool)
deriving DecidableEq

inductive Value where
  | undefined
  | null
  | bool (b : Bool)
  | num (n : Number)
  | str (s : String)
  | arr (items : List Value)
  | obj (fields : List (String × Value))

def Value.nat (n : Nat) : Value := .num (.finite (.ofNat n))

/-! ## Fields of an object -/

/-- Assign a field: in place when the key is there, at the end otherwise. -/
def setField (fields : List (String × Value)) (key : String) (v : Value) :
    List (String × Value) :=
  if fields.any (·.1 == key) then
    fields.map fun f => if f.1 == key then (key, v) else f
  else fields ++ [(key, v)]

/-- The own field of a value, `undefined` when there is none. -/
def Value.get (v : Value) (key : String) : Value :=
  match v with
  | .obj fields => ((fields.find? (·.1 == key)).map Prod.snd).getD .undefined
  | _ => .undefined

def Value.keys : Value → List String
  | .obj fields => fields.map Prod.fst
  | _ => []

/-! ## `JSON.stringify` -/

def hexDigit (n : Nat) : Char := if n < 10 then Char.ofNat (48 + n) else Char.ofNat (87 + n)

def escapeChar (c : Char) : List Char :=
  if c = '"' then ['\\', '"']
  else if c = '\\' then ['\\', '\\']
  else if c.toNat = 8 then ['\\', 'b']
  else if c.toNat = 12 then ['\\', 'f']
  else if c = '\n' then ['\\', 'n']
  else if c = '\r' then ['\\', 'r']
  else if c = '\t' then ['\\', 't']
  else if c.toNat < 32 then
    ['\\', 'u', '0', '0', hexDigit (c.toNat / 16), hexDigit (c.toNat % 16)]
  else [c]

def quoteBody (cs : List Char) : List Char := cs.flatMap escapeChar ++ ['"']

def quote (s : String) : List Char := '"' :: quoteBody s.toList

def Value.isUndefined : Value → Bool
  | .undefined => true
  | _ => false

def commaBefore (tail : List Char) : List Char := if tail = [] then [] else ',' :: tail

@[grind =] def Number.text : Number → List Char
  | .finite d => d.text
  | _ => "null".toList

mutual

@[grind =] def Value.text : Value → List Char
  | .undefined => "null".toList
  | .null => "null".toList
  | .bool true => "true".toList
  | .bool false => "false".toList
  | .num n => n.text
  | .str s => quote s
  | .arr items => '[' :: (Value.textItems items ++ [']'])
  | .obj fields => '{' :: (Value.textFields fields ++ ['}'])

@[grind =] def Value.textItems : List Value → List Char
  | [] => []
  | [v] => v.text
  | v :: w :: rest => v.text ++ ',' :: Value.textItems (w :: rest)

/-- The fields of an object, those holding `undefined` left out. -/
@[grind =] def Value.textFields : List (String × Value) → List Char
  | [] => []
  | (k, v) :: rest =>
    if v.isUndefined then Value.textFields rest
    else quote k ++ ':' :: (v.text ++ commaBefore (Value.textFields rest))

end

/-- `JSON.stringify` of an object or an array. -/
def Value.stringify (v : Value) : String := String.ofList v.text

/-! ## `JSON.parse` -/

def isSpace (c : Char) : Bool := c = ' ' || c = '\n' || c = '\r' || c = '\t'

def skipSpace (cs : List Char) : List Char := cs.dropWhile isSpace

def hexValue (c : Char) : Option Nat :=
  if '0' ≤ c ∧ c ≤ '9' then some (c.toNat - 48)
  else if 'a' ≤ c ∧ c ≤ 'f' then some (c.toNat - 87)
  else if 'A' ≤ c ∧ c ≤ 'F' then some (c.toNat - 55)
  else none

def parseHex4 : List Char → Option (Nat × List Char)
  | a :: b :: c :: d :: rest => do
    let a ← hexValue a
    let b ← hexValue b
    let c ← hexValue c
    let d ← hexValue d
    some (16 * (16 * (16 * a + b) + c) + d, rest)
  | _ => none

/-- The low half of a surrogate pair, after its high half `u`. -/
def parseLowSurrogate (u : Nat) : List Char → Option (Char × List Char)
  | '\\' :: 'u' :: rest => do
    let (v, rest) ← parseHex4 rest
    if 0xDC00 ≤ v ∧ v < 0xE000 then
      some (Char.ofNat (0x10000 + (u - 0xD800) * 0x400 + (v - 0xDC00)), rest)
    else none
  | _ => none

def parseEscape : List Char → Option (Char × List Char)
  | [] => none
  | c :: rest =>
    if c = '"' then some ('"', rest)
    else if c = '\\' then some ('\\', rest)
    else if c = '/' then some ('/', rest)
    else if c = 'b' then some (Char.ofNat 8, rest)
    else if c = 'f' then some (Char.ofNat 12, rest)
    else if c = 'n' then some ('\n', rest)
    else if c = 'r' then some ('\r', rest)
    else if c = 't' then some ('\t', rest)
    else if c = 'u' then do
      let (u, rest) ← parseHex4 rest
      if 0xD800 ≤ u ∧ u < 0xDC00 then parseLowSurrogate u rest
      else if 0xDC00 ≤ u ∧ u < 0xE000 then none
      else some (Char.ofNat u, rest)
    else none

/-- The body of a quoted string, up to and including its closing quote. -/
@[grind =] def parseChars : Nat → List Char → Option (List Char × List Char)
  | 0, _ => none
  | _ + 1, [] => none
  | fuel + 1, c :: rest =>
    if c = '"' then some ([], rest)
    else if c = '\\' then do
      let (c, rest) ← parseEscape rest
      let (cs, rest) ← parseChars fuel rest
      some (c :: cs, rest)
    else if c.toNat < 32 then none
    else do
      let (cs, rest) ← parseChars fuel rest
      some (c :: cs, rest)

def parseString (cs : List Char) : Option (String × List Char) := do
  let (body, rest) ← parseChars (cs.length + 1) cs
  some (String.ofList body, rest)

def parseWord (word : List Char) (v : Value) (cs : List Char) : Option (Value × List Char) :=
  if word.isPrefixOf cs then some (v, cs.drop word.length) else none

mutual

/-- One value. `fuel` bounds the nesting; twice the length of the text is enough. -/
def parseValue : Nat → List Char → Option (Value × List Char)
  | 0, _ => none
  | fuel + 1, cs =>
    match skipSpace cs with
    | [] => none
    | c :: rest =>
      if c = '{' then
        match skipSpace rest with
        | '}' :: rest => some (.obj [], rest)
        | rest => do
          let (fields, rest) ← parseFields fuel rest
          some (.obj (fields.foldl (fun fs f => setField fs f.1 f.2) []), rest)
      else if c = '[' then
        match skipSpace rest with
        | ']' :: rest => some (.arr [], rest)
        | rest => do
          let (items, rest) ← parseItems fuel rest
          some (.arr items, rest)
      else if c = '"' then do
        let (s, rest) ← parseString rest
        some (.str s, rest)
      else if c = 't' then parseWord "rue".toList (.bool true) rest
      else if c = 'f' then parseWord "alse".toList (.bool false) rest
      else if c = 'n' then parseWord "ull".toList .null rest
      else do
        let (d, rest) ← parseNumber (c :: rest)
        some (.num (.finite d), rest)

@[grind =] def parseItems : Nat → List Char → Option (List Value × List Char)
  | 0, _ => none
  | fuel + 1, cs => do
    let (v, rest) ← parseValue fuel cs
    match skipSpace rest with
    | ',' :: rest => do
      let (vs, rest) ← parseItems fuel rest
      some (v :: vs, rest)
    | ']' :: rest => some ([v], rest)
    | _ => none

@[grind =] def parseFields : Nat → List Char → Option (List (String × Value) × List Char)
  | 0, _ => none
  | fuel + 1, cs =>
    match skipSpace cs with
    | '"' :: rest => do
      let (k, rest) ← parseString rest
      match skipSpace rest with
      | ':' :: rest => do
        let (v, rest) ← parseValue fuel rest
        match skipSpace rest with
        | ',' :: rest => do
          let (fs, rest) ← parseFields fuel rest
          some ((k, v) :: fs, rest)
        | '}' :: rest => some ([(k, v)], rest)
        | _ => none
      | _ => none
    | _ => none

end

/-- `JSON.parse`; `none` is the `SyntaxError`. -/
def parse (s : String) : Option Value :=
  match parseValue (2 * s.toList.length) s.toList with
  | none => none
  | some (v, rest) => if skipSpace rest = [] then some v else none

/-! ## JSON data -/

mutual

/-- No `undefined`, only finite numbers, and no key twice in an object. -/
def Value.IsJson : Value → Prop
  | .undefined => False
  | .null => True
  | .bool _ => True
  | .num n => ∃ d, n = .finite d
  | .str _ => True
  | .arr items => Value.IsJsonItems items
  | .obj fields => (fields.map Prod.fst).Nodup ∧ Value.IsJsonFields fields

@[grind =] def Value.IsJsonItems : List Value → Prop
  | [] => True
  | v :: rest => v.IsJson ∧ Value.IsJsonItems rest

@[grind =] def Value.IsJsonFields : List (String × Value) → Prop
  | [] => True
  | (_, v) :: rest => v.IsJson ∧ Value.IsJsonFields rest

end

@[simp] theorem Value.isJson_nat (n : Nat) : (Value.nat n).IsJson := ⟨_, rfl⟩

@[simp] theorem Value.isJson_str (s : String) : (Value.str s).IsJson := True.intro

@[simp] theorem Value.isJson_bool (b : Bool) : (Value.bool b).IsJson := True.intro

theorem Value.isJsonItems_iff {items : List Value} :
    Value.IsJsonItems items ↔ ∀ v ∈ items, v.IsJson := by
  induction items with
  | nil => exact ⟨fun _ _ hv => absurd hv List.not_mem_nil, fun _ => True.intro⟩
  | cons v rest ih =>
    show v.IsJson ∧ Value.IsJsonItems rest ↔ _
    rw [ih, List.forall_mem_cons]

theorem Value.isJsonFields_iff {fields : List (String × Value)} :
    Value.IsJsonFields fields ↔ ∀ f ∈ fields, f.2.IsJson := by
  induction fields with
  | nil => exact ⟨fun _ _ hf => absurd hf List.not_mem_nil, fun _ => True.intro⟩
  | cons f rest ih =>
    show f.2.IsJson ∧ Value.IsJsonFields rest ↔ _
    rw [ih, List.forall_mem_cons]

theorem Value.isJson_arr {items : List Value} :
    (Value.arr items).IsJson ↔ ∀ v ∈ items, v.IsJson :=
  Value.isJsonItems_iff

theorem Value.isJson_obj {fields : List (String × Value)} :
    (Value.obj fields).IsJson ↔
      (fields.map Prod.fst).Nodup ∧ ∀ f ∈ fields, f.2.IsJson :=
  and_congr_right' Value.isJsonFields_iff

def Value.strs (xs : List String) : Value := .arr (xs.map .str)

@[simp] theorem Value.isJson_strs (xs : List String) : (Value.strs xs).IsJson := by
  rw [Value.strs, Value.isJson_arr]
  intro v hv
  obtain ⟨s, -, rfl⟩ := List.mem_map.mp hv
  exact Value.isJson_str s

end Json
